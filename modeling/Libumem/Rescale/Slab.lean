import Libumem.Rescale.Vmem
import Libumem.Slab.Put

/-!
# Rescaling the hash table of a cache

`umem_hash_rescale` moves the bufctls of the buffers in use to a table of another size. The bufctls
are linked through `bc_next`, which is also the link of the free lists of the slabs, so the loop
must not touch the bufctls that are not in the table.
-/

namespace Libumem.Rescale
open List Arith Lib Slab

/-- `UMEM_HASH_INITIAL`. -/
def umemHashInitial : BitVec 32 := 64

def cacheTableSize (s : State) : Word := s.hashMask + 1

/-- The bucket of a bufctl under a mask. -/
def bucketOf (g : Geom) (s : State) (newSize : Word) (bcp : Word) : Nat :=
  State.hashIndex g { s with hashMask := newSize - 1 } (s.bcAddr bcp)

def installTable (s : State) (newSize : Word) (t : Heads Nat Word Word) : State :=
  { s with hashMask := newSize - 1, hashTable := t.head, bcNext := t.next }

/-- The flag says whether the new array could be allocated. A walk takes no more turns than the cache
has buffers. -/
def umemHashRescale (g : Geom) (got : Bool) (s : State) : Option State :=
  let newSize := hashSize umemHashInitial (BitVec.ofNat 64 s.buftotal)
  if NearEnough (cacheTableSize s) newSize then some s
  else if got = false then some s
  else
    (pushChains ptr id (bucketOf g s newSize) s.buftotal s.hashTable
      (List.range (cacheTableSize s).toNat) ⟨fun _ => 0, s.bcNext⟩).map (installTable s newSize)

/-- The table as the searches of `umem_slab_free` see it. -/
def umemHashView (g : Geom) (s : State) : HashView Word where
  lookup := fun buf => (leaveHash g s buf).2
  chain := fun i => chainList s.hashLink s.buftotal (ptr (s.hashTable i))
  index := fun bcp => s.hashIndex g (s.bcAddr bcp)
  size := cacheTableSize s

variable {g : Geom} {s : State} {ly : Layout}

/-- The bufctls of the buffers in use. -/
def InUse (s : State) (ly : Layout) (bcp : Word) : Prop := ∃ sp ∈ s.live, bcp ∈ ly.used sp

theorem buckets_chain (h : Inv g s ly) (hhash : g.hash = true) :
    Buckets (umemHashView g s).chain (InUse s ly) (umemHashView g s).index ∧
      Heads.Reps ptr ⟨s.hashTable, s.bcNext⟩ (umemHashView g s).chain ∧
      ∀ i, ((umemHashView g s).chain i).length ≤ s.buftotal := by
  obtain ⟨lists, hchain, hmem⟩ := h.table hhash
  have hlen : ∀ i, (lists i).length ≤ s.buftotal := fun i =>
    h.length_bucket_le (hchain i).nodup fun b hb => ((hmem b i).mp hb).1
  have heq : (umemHashView g s).chain = lists :=
    funext fun i => (hchain i).chainList_eq (hlen i)
  rw [heq]
  refine ⟨⟨fun i x => ?_, fun i => (hchain i).nodup⟩, hchain, hlen⟩
  rw [hmem, eq_comm]
  rfl

theorem index_lt (hsize : TableSize 6 (cacheTableSize s)) (bcp : Word) :
    (umemHashView g s).index bcp < (cacheTableSize s).toNat := by
  obtain ⟨i, -, hi, hpow⟩ := hsize
  have hlt : 2^i ≤ 2^30 := Nat.pow_le_pow_right (by decide) hi
  have hle : (umemHashView g s).index bcp ≤ s.hashMask.toNat := by
    change ((s.bcAddr bcp >>> g.hashShift) &&& s.hashMask).toNat ≤ _
    rw [BitVec.toNat_and]
    exact Nat.and_le_right
  have hmask : (cacheTableSize s).toNat = s.hashMask.toNat+1 := by
    rw [cacheTableSize] at hpow ⊢
    have := Nat.one_le_two_pow (n := i)
    bv_omega
  omega

section
variable (h : Inv g s ly) (hhash : g.hash = true)
include h hhash

theorem mem_entries (hsize : TableSize 6 (cacheTableSize s)) {bcp : Word} :
    bcp ∈ (umemHashView g s).entries ↔ InUse s ly bcp :=
  (buckets_chain h hhash).1.mem_flatMap fun y _ => mem_range.mpr (index_lt hsize y)

theorem entries_nodup : (umemHashView g s).entries.Nodup :=
  (buckets_chain h hhash).1.nodup_flatMap nodup_range

theorem placed_umemHashView (hsize : TableSize 6 (cacheTableSize s)) :
    ∀ i < (umemHashView g s).size.toNat, ∀ x, x ∈ (umemHashView g s).chain i ↔
      x ∈ (umemHashView g s).entries ∧ (umemHashView g s).index x = i := by
  intro i _ x
  rw [mem_entries h hhash hsize]
  exact (buckets_chain h hhash).1.mem i x

theorem leaveHash_eq_some_iff {buf bcp : Word} :
    (leaveHash g s buf).2 = some bcp ↔ InUse s ly bcp ∧ s.bcAddr bcp = buf := by
  have haddr : ∀ b, s.addrOf g b = s.bcAddr b := fun _ => if_pos hhash
  by_cases hbuf : buf ∈ s.held
  · obtain ⟨sp, hsp, b, hb, rfl⟩ := (h.held buf).mp hbuf
    obtain ⟨next, table, heq, -⟩ := leaveHash_eq_some h hhash hsp hb
    rw [heq]
    constructor
    · intro hsome
      obtain rfl := Option.some.inj hsome
      exact ⟨⟨sp, hsp, hb⟩, (haddr b).symm⟩
    · rintro ⟨⟨sp', hsp', hb'⟩, heq'⟩
      rw [← haddr] at heq'
      rw [h.addr_injective hsp' hsp (mem_append_right _ hb') (mem_append_right _ hb) heq']
  · rw [leaveHash_eq_none h hhash hbuf]
    refine iff_of_false (by simp) ?_
    rintro ⟨⟨sp, hsp, hb⟩, heq⟩
    exact hbuf ((h.held buf).mpr ⟨sp, hsp, bcp, hb, (haddr bcp).trans heq⟩)

end

theorem inv_installTable (h : Inv g s ly) {newSize : Word} {t : Heads Nat Word Word}
    (hnext : ∀ bcp, ¬ InUse s ly bcp → t.next bcp = s.bcNext bcp)
    (htable : TableOk g (installTable s newSize t) (InUse s ly)) :
    Inv g (installTable s newSize t) ly := by
  refine { h with slab := fun sp hsp => ?_, table := fun _ => htable }
  refine (h.slab sp hsp).congr rfl rfl rfl rfl rfl (fun b hb => ?_) (fun _ _ => rfl) fun _ _ => rfl
  have hfree : ¬ InUse s ly b := by
    rintro ⟨sp', hsp', hused⟩
    obtain rfl := h.slab_unique hsp hsp' (mem_append_left _ hb) (mem_append_right _ hused)
    exact (nodup_append.mp (h.slab sp hsp).bufctl_nodup).2.2 b hb b hused rfl
  change ptr (g.linkMangle b (t.next b)) = ptr (g.linkMangle b (s.bcNext b))
  rw [hnext b hfree]

theorem pushChains_inv (h : Inv g s ly) (hhash : g.hash = true)
    (hsize : TableSize 6 (cacheTableSize s)) (newSize : Word) :
    ∃ t, pushChains ptr id (bucketOf g s newSize) s.buftotal s.hashTable
        (range (cacheTableSize s).toNat) ⟨fun _ => 0, s.bcNext⟩ = some t ∧
      Inv g (installTable s newSize t) ly := by
  obtain ⟨-, hreps, hlen⟩ := buckets_chain h hhash
  have hmem := @mem_entries g s ly h hhash hsize
  have hnd := entries_nodup h hhash
  have haddr : ∀ k ∈ range (cacheTableSize s).toNat,
      ∀ a ∈ (umemHashView g s).chain k, ptr (id a) = some a := by
    intro k hk a ha
    obtain ⟨sp, hsp, hused⟩ := hmem.mp (mem_flatMap.mpr ⟨k, hk, ha⟩)
    exact ptr_of_ne ((h.slab sp hsp).bufctl a (mem_append_right _ hused)).1
  obtain ⟨t, ht, hreps', hsame⟩ := pushChains_rebuild ptr id (bucketOf g s newSize)
    (rfl : ptr 0 = none) hreps hnd (fun k _ => hlen k) haddr
  refine ⟨t, ht, inv_installTable h (fun bcp hout => hsame bcp fun hin => hout (hmem.mp hin)) ?_⟩
  refine ⟨_, hreps', fun bcp i => (mem_relink hnd).trans (and_congr hmem ?_)⟩
  exact eq_comm

theorem cacheTableSize_installTable (s : State) (newSize : Word) (t : Heads Nat Word Word) :
    cacheTableSize (installTable s newSize t) = newSize := by
  change newSize-1+1 = newSize
  bv_omega

theorem rehashed_of_inv {s' : State} (h : Inv g s ly) (h' : Inv g s' ly) (hhash : g.hash = true)
    (hsize : TableSize 6 (cacheTableSize s)) (hsize' : TableSize 6 (cacheTableSize s'))
    (hlive : s'.live = s.live) (haddr : s'.bcAddr = s.bcAddr) :
    (umemHashView g s).Rehashed (umemHashView g s') := by
  have huse : ∀ bcp, InUse s' ly bcp ↔ InUse s ly bcp := fun bcp => by
    rw [InUse, InUse, hlive]
  refine ⟨fun a => Option.ext fun bcp => ?_, ?_, placed_umemHashView h' hhash hsize'⟩
  · change (leaveHash g s' a).2 = some bcp ↔ (leaveHash g s a).2 = some bcp
    rw [leaveHash_eq_some_iff h' hhash, leaveHash_eq_some_iff h hhash, huse, haddr]
  · refine (perm_ext_iff_of_nodup (entries_nodup h' hhash) (entries_nodup h hhash)).mpr
      fun bcp => ?_
    rw [mem_entries h' hhash hsize', mem_entries h hhash hsize, huse]

theorem umemHashRescale_rescales (h : Inv g s ly) (hhash : g.hash = true)
    (hsize : TableSize 6 (cacheTableSize s)) (hn : s.buftotal < 2^30) (got : Bool) :
    ∃ s', Rescales (umemHashView g) (umemHashRescale g) 64 s.buftotal got s s' := by
  have htotal : (BitVec.ofNat 64 s.buftotal).toNat = s.buftotal := by
    rw [BitVec.toNat_ofNat]
    exact Nat.mod_eq_of_lt (by omega)
  have hn' : (BitVec.ofNat 64 s.buftotal).toNat < 2^30 := by rwa [htotal]
  have hnew : TableSize 6 (hashSize umemHashInitial (BitVec.ofNat 64 s.buftotal)) :=
    tableSize_hashSize (by decide) rfl hn'
  have hwithin : ∀ {s' : State}, TableSize 6 (cacheTableSize s') →
      NearEnough (cacheTableSize s') (hashSize umemHashInitial (BitVec.ofNat 64 s.buftotal)) →
      (umemHashView g s').Within 64 s.buftotal := by
    intro s' hs' hnear
    have := within_four_of_nearEnough (by decide) rfl hn' hs' hnear
    rwa [htotal] at this
  have hrefl : (umemHashView g s).Rehashed (umemHashView g s) :=
    rehashed_of_inv h h hhash hsize hsize rfl rfl
  by_cases hnear : NearEnough (cacheTableSize s)
      (hashSize umemHashInitial (BitVec.ofNat 64 s.buftotal))
  · have hsame : ∀ got, umemHashRescale g got s = some s := fun _ => if_pos hnear
    exact ⟨s, hsame got, hrefl, .inl rfl, fun _ => hwithin hsize hnear, fun _ got' => hsame got'⟩
  · cases got with
    | false =>
      have hfailed : umemHashRescale g false s = some s := (if_neg hnear).trans (if_pos rfl)
      exact ⟨s, hfailed, hrefl, .inl rfl, by simp, by simp⟩
    | true =>
      obtain ⟨t, ht, hinv⟩ := pushChains_inv h hhash hsize
        (hashSize umemHashInitial (BitVec.ofNat 64 s.buftotal))
      have hrebuilt : umemHashRescale g true s = some (installTable s
          (hashSize umemHashInitial (BitVec.ofNat 64 s.buftotal)) t) := by
        refine (if_neg hnear).trans ((if_neg (by simp)).trans ?_)
        rw [ht, Option.map_some]
      have hsize' := cacheTableSize_installTable s
        (hashSize umemHashInitial (BitVec.ofNat 64 s.buftotal)) t
      have hself := nearEnough_self hnew
      have hnew' := hnew
      rw [← hsize'] at hnew'
      refine ⟨_, hrebuilt, rehashed_of_inv h hinv hhash hsize hnew' rfl rfl, .inr ⟨hnew'.isPow2,
        ?_⟩, fun _ => hwithin hnew' (by rwa [hsize']), fun _ got' => if_pos (by rwa [hsize'])⟩
      have hnear' := hashSize_near (by decide : 2 ≤ 6 ∧ 6 ≤ 30)
        (rfl : umemHashInitial.toNat = _) hn'
      rw [htotal, ← hsize'] at hnear'
      exact hnear'

end Libumem.Rescale
