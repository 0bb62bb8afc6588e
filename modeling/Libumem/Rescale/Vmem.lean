import Libumem.Lib.Rehash
import Libumem.Rescale.Size
import Libumem.Vmem.Effect

/-!
# Rescaling the hash table of an arena

`vmem_hash_rescale` moves the allocated segments of an arena to a table of another size. The new
array is allocated and the old one is freed without `vm_lock`, by calls on `vmem_hash_arena`. That
arena has a hash table of its own, so for it, and for the arenas that it imports from, these calls
change the entries of the very table that is rebuilt.
-/

namespace Libumem.Rescale
open List BitVec Arith Lib Vmem

/-- A hash table as its users see it. -/
structure HashView (α : Type) where
  lookup : Word → Option α
  chain : Nat → List α
  /-- The chain that the hash of an entry selects. -/
  index : α → Nat
  size : Word

namespace HashView
variable {α : Type}

def entries (v : HashView α) : List α := (List.range v.size.toNat).flatMap v.chain

/-- The same table with other chains. -/
structure Rehashed (v v' : HashView α) : Prop where
  lookup : ∀ a, v'.lookup a = v.lookup a
  entries : v'.entries.Perm v.entries
  placed : ∀ i < v'.size.toNat, ∀ x, x ∈ v'.chain i ↔ x ∈ v'.entries ∧ v'.index x = i

/-- The size of a table that was rebuilt for `n` entries. -/
def Rebuilt (initial n : Nat) (v : HashView α) : Prop :=
  IsPow2 v.size ∧
    (v.size.toNat = initial ∨ n ≤ 2 * v.size.toNat ∧ v.size.toNat ≤ 2 * n)

def Within (initial n : Nat) (v : HashView α) : Prop :=
  max initial n ≤ 4 * v.size.toNat ∧ v.size.toNat ≤ 4 * max initial n

end HashView

/-- What a rescale does to a table of `n` entries, where the flag says whether the new array could
be allocated: `none` as its result would mean that it does not end. -/
structure Rescales {σ α : Type} (view : σ → HashView α) (rescale : Bool → σ → Option σ)
    (initial n : Nat) (got : Bool) (s s' : σ) : Prop where
  ends : rescale got s = some s'
  rehashed : (view s).Rehashed (view s')
  rebuilt : s' = s ∨ (view s').Rebuilt initial n
  within : got = true → (view s').Within initial n
  again : got = true → ∀ got', rescale got' s' = some s'

/-- `VMEM_HASH_INITIAL`. -/
def vmemHashInitial : BitVec 32 := 16

def nseg (vmp : Arena) : Word := vmp.vkAlloc - vmp.vkFree

def hashTableSize (vmp : Arena) : Word := vmp.vmHashMask + 1

def buckets (vmp : Arena) : List Word := (List.range (hashTableSize vmp).toNat).map (BitVec.ofNat 64)

/-- The entries in the order in which they are moved. -/
def moved (vmp : Arena) : List SegId := (buckets vmp).flatMap vmp.vmHashTable

def setHashSize (vmp : Arena) (newSize : Word) : Arena :=
  { vmp with
    vmHashMask := newSize - 1
    vmHashShift := highbit (newSize - 1) }

/-- The chain of an entry under the mask and the shift that are set. -/
def chainOf (vmp : Arena) (vsp : SegId) : Word := vmemHashIndex vmp (vmp.segs vsp).vsStart

/-- The critical section: every segment moves to the chain of its address under the new mask and
shift. -/
def rebuildHash (vmp : Arena) (newSize : Word) : Arena :=
  { setHashSize vmp newSize with
    vmHashTable := relink (chainOf (setHashSize vmp newSize)) (moved vmp) }

/-- The loop of the critical section on the table and the `vs_knext` links in memory. A walk takes
no more turns than there are segments. -/
def rebuildLinks (vmp : Arena) (newSize : Word) (m : Heads Word SegId (Option SegId)) :
    Option (Heads Word SegId (Option SegId)) :=
  pushChains id some (chainOf (setHashSize vmp newSize)) vmp.aList.length m.head (buckets vmp)
    ⟨fun _ => none, m.next⟩

/-- What the calls for the two arrays do to the arena that is rescaled. -/
structure ArrayCalls where
  /-- `vmem_alloc (vmem_hash_arena, size, VM_NOSLEEP)`, and whether it returns an array. -/
  alloc : Arena → Word → Arena × Bool
  /-- Whether the old table is `vm_hash0`. -/
  hash0 : Bool
  /-- `vmem_free` of the old array. -/
  free : Arena → Arena

def vmemHashRescale (calls : ArrayCalls) (vmp : Arena) : Arena :=
  let newSize := hashSize vmemHashInitial (nseg vmp)
  if NearEnough (hashTableSize vmp) newSize then vmp
  else
    match calls.alloc vmp (newSize * 8) with
    | (vmp, false) => vmp
    | (vmp, true) =>
      let vmp := rebuildHash vmp newSize
      if calls.hash0 then vmp else calls.free vmp

/-- The arrays come from other arenas. -/
def ArrayCalls.elsewhere (got hash0 : Bool) : ArrayCalls where
  alloc := fun vmp _ => (vmp, got)
  hash0 := hash0
  free := id

/-- The search of `vmem_hash_delete`. -/
def vmemHashLookup (vmp : Arena) (addr : Word) : Option SegId :=
  (vmp.vmHashTable (vmemHashIndex vmp addr)).find? fun vsp => (vmp.segs vsp).vsStart == addr

def vmemHashView (vmp : Arena) : HashView SegId where
  lookup := vmemHashLookup vmp
  chain := fun i => vmp.vmHashTable (BitVec.ofNat 64 i)
  index := fun vsp => (chainOf vmp vsp).toNat
  size := hashTableSize vmp

variable {vmp : Arena} {newSize : Word} {calls : ArrayCalls}

def Allocated (vmp : Arena) (vsp : SegId) : Prop :=
  vsp ∈ vmp.aList ∧ vsp ∉ ([] : List SegId) ∧ (vmp.segs vsp).vsType = .alloc

theorem mem_buckets (hsize : TableSize 4 (hashTableSize vmp)) (a : Word) :
    vmemHashIndex vmp a ∈ buckets vmp := by
  obtain ⟨i, -, hi, hpow⟩ := hsize
  have hlt : 2^i ≤ 2^30 := Nat.pow_le_pow_right (by decide) hi
  have hle : (vmemHashIndex vmp a).toNat ≤ vmp.vmHashMask.toNat := by
    rw [vmemHashIndex, toNat_and]
    exact Nat.and_le_right
  have hmask : (hashTableSize vmp).toNat = vmp.vmHashMask.toNat+1 := by
    rw [hashTableSize] at hpow ⊢
    have := Nat.one_le_two_pow (n := i)
    bv_omega
  refine mem_map.mpr ⟨(vmemHashIndex vmp a).toNat, mem_range.mpr (by omega), ?_⟩
  exact eq_of_toNat_eq (by simp)

theorem buckets_nodup (vmp : Arena) : (buckets vmp).Nodup := by
  refine Nodup.map_on ?_ nodup_range
  intro i hi j hj heq
  rw [mem_range] at hi hj
  have hlt := (hashTableSize vmp).isLt
  have := congrArg BitVec.toNat heq
  rwa [toNat_ofNat, toNat_ofNat, Nat.mod_eq_of_lt (by omega), Nat.mod_eq_of_lt (by omega)] at this

theorem entries_vmemHashView (vmp : Arena) : (vmemHashView vmp).entries = moved vmp := by
  rw [moved, buckets, flatMap_map]
  rfl

theorem mem_moved (hw : WellFormed vmp) (hsize : TableSize 4 (hashTableSize vmp)) {x : SegId} :
    x ∈ moved vmp ↔ Allocated vmp x :=
  hw.indexed.hash.mem_flatMap fun _ _ => mem_buckets hsize _

theorem moved_nodup (hw : WellFormed vmp) : (moved vmp).Nodup :=
  hw.indexed.hash.nodup_flatMap (buckets_nodup vmp)

theorem vmemHashLookup_eq_some (hw : WellFormed vmp) {a : Word} {x : SegId} :
    vmemHashLookup vmp a = some x ↔ Allocated vmp x ∧ (vmp.segs x).vsStart = a := by
  rw [vmemHashLookup, hw.indexed.hash.find?_eq_some, beq_iff_eq]
  · rfl
  · intro y z hy hz hya hza
    rw [beq_iff_eq] at hya hza
    exact hw.layout.eq_of_vsStart hy.1 hz.1 (.inl hy.2.2) (.inl hz.2.2) (hya.trans hza.symm)
  · intro y _ hy
    rw [beq_iff_eq] at hy
    rw [hy]

theorem rebuildHash_keeps (vmp : Arena) (newSize : Word) :
    (rebuildHash vmp newSize).aList = vmp.aList ∧ (rebuildHash vmp newSize).segs = vmp.segs ∧
      nseg (rebuildHash vmp newSize) = nseg vmp := ⟨rfl, rfl, rfl⟩

theorem rebuildHash_wellFormed (hw : WellFormed vmp) (hsize : TableSize 4 (hashTableSize vmp))
    (newSize : Word) : WellFormed (rebuildHash vmp newSize) where
  layout := hw.layout.ofSame rfl rfl rfl rfl rfl
  indexed :=
    { free := hw.indexed.free
      free_ne := hw.indexed.free_ne
      freemap := hw.indexed.freemap
      hash := (buckets_relink (moved_nodup hw)).congr
        (fun _ => (mem_moved hw hsize).symm) fun _ _ => rfl }
  rotor := hw.rotor

theorem hashTableSize_rebuildHash : hashTableSize (rebuildHash vmp newSize) = newSize := by
  change newSize-1+1 = newSize
  bv_omega

theorem placed_vmemHashView (hw : WellFormed vmp) (hsize : TableSize 4 (hashTableSize vmp)) :
    ∀ i < (vmemHashView vmp).size.toNat, ∀ x, x ∈ (vmemHashView vmp).chain i ↔
      x ∈ (vmemHashView vmp).entries ∧ (vmemHashView vmp).index x = i := by
  intro i hi x
  have hlt : i < 2^64 := hi.trans (isLt _)
  rw [entries_vmemHashView, mem_moved hw hsize]
  refine (hw.indexed.hash.mem _ x).trans (and_congr_right fun _ => ?_)
  change chainOf vmp x = _ ↔ (chainOf vmp x).toNat = i
  rw [← toNat_inj, toNat_ofNat, Nat.mod_eq_of_lt hlt]

theorem rebuildHash_rehashed (hw : WellFormed vmp) (hsize : TableSize 4 (hashTableSize vmp))
    (hnew : TableSize 4 newSize) :
    (vmemHashView vmp).Rehashed (vmemHashView (rebuildHash vmp newSize)) := by
  have hw' := rebuildHash_wellFormed hw hsize newSize
  have hsize' : TableSize 4 (hashTableSize (rebuildHash vmp newSize)) := by
    rwa [hashTableSize_rebuildHash]
  have hmem : ∀ x, x ∈ moved (rebuildHash vmp newSize) ↔ Allocated vmp x := fun x =>
    mem_moved hw' hsize'
  refine ⟨fun a => ?_, ?_, placed_vmemHashView hw' hsize'⟩
  · refine Option.ext fun x => ?_
    change vmemHashLookup (rebuildHash vmp newSize) a = some x ↔ vmemHashLookup vmp a = some x
    rw [vmemHashLookup_eq_some hw', vmemHashLookup_eq_some hw]
    rfl
  · rw [entries_vmemHashView, entries_vmemHashView]
    refine (perm_ext_iff_of_nodup (moved_nodup hw') (moved_nodup hw)).mpr fun x => ?_
    rw [hmem, mem_moved hw hsize]

theorem rebuildLinks_reps (hw : WellFormed vmp) {m : Heads Word SegId (Option SegId)}
    (hm : m.Reps id vmp.vmHashTable) :
    ∃ m', rebuildLinks vmp newSize m = some m' ∧
      m'.Reps id (rebuildHash vmp newSize).vmHashTable := by
  have hn : ∀ k ∈ buckets vmp, (vmp.vmHashTable k).length ≤ vmp.aList.length := by
    intro k _
    refine (subperm_of_subset (hw.indexed.hash.nodup k) fun x hx => ?_).length_le
    exact ((hw.indexed.hash.mem k x).mp hx).1.1
  obtain ⟨m', hm', hreps, -⟩ := pushChains_rebuild id some (chainOf (setHashSize vmp newSize))
    (rfl : id none = none) hm (moved_nodup hw) hn fun _ _ _ _ => rfl
  exact ⟨m', hm', hreps⟩

theorem tableSize_vmem (hn : (nseg vmp).toNat < 2^30) :
    TableSize 4 (hashSize vmemHashInitial (nseg vmp)) :=
  tableSize_hashSize (by decide) rfl hn

theorem TableSize.isPow2 {j : Nat} {size : Word} (h : TableSize j size) : IsPow2 size := by
  obtain ⟨i, -, hi, hpow⟩ := h
  exact ⟨i, by omega, hpow⟩

theorem vmemHashRescale_near
    (h : NearEnough (hashTableSize vmp) (hashSize vmemHashInitial (nseg vmp))) :
    vmemHashRescale calls vmp = vmp := if_pos h

theorem rehashed_refl (hw : WellFormed vmp) (hsize : TableSize 4 (hashTableSize vmp)) :
    (vmemHashView vmp).Rehashed (vmemHashView vmp) where
  lookup _ := rfl
  entries := Perm.refl _
  placed := placed_vmemHashView hw hsize

theorem rebuilt_vmem (hn : (nseg vmp).toNat < 2^30) (mid : Arena) :
    (vmemHashView (rebuildHash mid (hashSize vmemHashInitial (nseg vmp)))).Rebuilt 16
      (nseg vmp).toNat := by
  unfold HashView.Rebuilt vmemHashView
  rw [hashTableSize_rebuildHash]
  refine ⟨(tableSize_vmem hn).isPow2, ?_⟩
  exact hashSize_near (by decide : 2 ≤ 4 ∧ 4 ≤ 30) (rfl : vmemHashInitial.toNat = 2^4) hn

theorem within_vmem (hn : (nseg vmp).toNat < 2^30) {vmp' : Arena}
    (hsize : TableSize 4 (hashTableSize vmp'))
    (hnear : NearEnough (hashTableSize vmp') (hashSize vmemHashInitial (nseg vmp))) :
    (vmemHashView vmp').Within 16 (nseg vmp).toNat :=
  within_four_of_nearEnough (by decide) rfl hn hsize hnear

theorem vmemHashRescale_elsewhere (hw : WellFormed vmp) (hsize : TableSize 4 (hashTableSize vmp))
    (hn : (nseg vmp).toNat < 2^30) (got hash0 : Bool) :
    ∃ vmp', Rescales vmemHashView
      (fun got vmp => some (vmemHashRescale (.elsewhere got hash0) vmp)) 16 (nseg vmp).toNat
      got vmp vmp' := by
  have hnew := tableSize_vmem hn
  by_cases hnear : NearEnough (hashTableSize vmp) (hashSize vmemHashInitial (nseg vmp))
  · have hsame : ∀ got, vmemHashRescale (.elsewhere got hash0) vmp = vmp := fun _ =>
      vmemHashRescale_near hnear
    exact ⟨vmp, congrArg some (hsame got), rehashed_refl hw hsize, .inl rfl,
      fun _ => within_vmem hn hsize hnear, fun _ got' => congrArg some (hsame got')⟩
  · cases got with
    | false =>
      have hfailed : vmemHashRescale (.elsewhere false hash0) vmp = vmp := if_neg hnear
      exact ⟨vmp, congrArg some hfailed, rehashed_refl hw hsize, .inl rfl, by simp, by simp⟩
    | true =>
      have hrebuilt : vmemHashRescale (.elsewhere true hash0) vmp =
          rebuildHash vmp (hashSize vmemHashInitial (nseg vmp)) :=
        (if_neg hnear).trans (by cases hash0 <;> rfl)
      refine ⟨_, congrArg some hrebuilt, rebuildHash_rehashed hw hsize hnew,
        .inr (rebuilt_vmem hn vmp), fun _ => within_vmem hn ?_ ?_, fun _ got' => ?_⟩
      · rwa [hashTableSize_rebuildHash]
      · rw [hashTableSize_rebuildHash]
        exact nearEnough_self hnew
      · -- the counters are the same, and so is the size that is computed from them
        refine congrArg some (vmemHashRescale_near ?_)
        rw [hashTableSize_rebuildHash, (rebuildHash_keeps _ _).2.2]
        exact nearEnough_self hnew

/-- The critical section, on the arena as it is when the lock is taken. -/
structure RebuildsSection (n : Nat) (mid : Arena) (newSize : Word) : Prop where
  rehashed : (vmemHashView mid).Rehashed (vmemHashView (rebuildHash mid newSize))
  rebuilt : (vmemHashView (rebuildHash mid newSize)).Rebuilt 16 n
  within : (vmemHashView (rebuildHash mid newSize)).Within 16 n
  /-- In memory the loop ends, and leaves the chains of the rebuilt table. -/
  links : ∀ m : Heads Word SegId (Option SegId), m.Reps id mid.vmHashTable →
    ∃ m', rebuildLinks mid newSize m = some m' ∧
      m'.Reps id (rebuildHash mid newSize).vmHashTable

theorem rebuildsSection (hn : (nseg vmp).toNat < 2^30) {mid : Arena} (hw : WellFormed mid)
    (hsize : TableSize 4 (hashTableSize mid)) :
    RebuildsSection (nseg vmp).toNat mid (hashSize vmemHashInitial (nseg vmp)) where
  rehashed := rebuildHash_rehashed hw hsize (tableSize_vmem hn)
  rebuilt := rebuilt_vmem hn mid
  within := by
    refine within_vmem hn ?_ ?_
    · rw [hashTableSize_rebuildHash]
      exact tableSize_vmem hn
    · rw [hashTableSize_rebuildHash]
      exact nearEnough_self (tableSize_vmem hn)
  links _ hm := rebuildLinks_reps hw hm

theorem vmemHashRescale_between {mid : Arena} (hn : (nseg vmp).toNat < 2^30)
    (hfar : ¬ NearEnough (hashTableSize vmp) (hashSize vmemHashInitial (nseg vmp)))
    (halloc : calls.alloc vmp (hashSize vmemHashInitial (nseg vmp) * 8) = (mid, true))
    (hw : WellFormed mid) (hsize : TableSize 4 (hashTableSize mid)) :
    vmemHashRescale calls vmp = (if calls.hash0
      then rebuildHash mid (hashSize vmemHashInitial (nseg vmp))
      else calls.free (rebuildHash mid (hashSize vmemHashInitial (nseg vmp)))) ∧
    RebuildsSection (nseg vmp).toNat mid (hashSize vmemHashInitial (nseg vmp)) := by
  refine ⟨?_, rebuildsSection hn hw hsize⟩
  unfold vmemHashRescale
  dsimp only
  rw [if_neg hfar, halloc]

end Libumem.Rescale
