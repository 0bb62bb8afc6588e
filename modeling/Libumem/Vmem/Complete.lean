import Libumem.Slab.CacheCreate
import Libumem.Vmem.Constraints

/-!
# What `VM_NOSLEEP` allocations find

A `VM_NOSLEEP` call in an arena without a source either returns an address or gives up after one
look at the freelists. Whatever the policy, `vmem_alloc` gives up only when no free segment is
large enough, as long as it looks for itself: a small request is answered by a quantum cache. A
best-fit `vmem_xalloc` gives up exactly when no free segment can hold the request and takes a
smallest one otherwise, if the fit test is right about the request.
-/

namespace Libumem.Vmem
open List Option Arith Lib Pow2

/-- An arena that neither imports spans nor gives any back. -/
structure Sourceless (vmp : Arena) : Prop where
  source : vmp.vmSource = none
  sourceFree : vmp.vmSourceFree = false

/-- A call that no other thread gets in the way of: its sections follow one another. The result is
the address that the call returns, or null. -/
def Call.finish (vmp : Arena) (call : Call) : Nat → Option (Arena × Option Word)
  | 0 => none
  | turns + 1 =>
    (call.exec vmp ⟨0, 0⟩).bind fun (vmp', r) =>
      match r with
      | .done addr _ => some (vmp', some addr)
      | r =>
        match call.rest vmp r with
        | [] => some (vmp', none)
        | next :: _ => next.finish vmp' turns

/-- `_umem_cache_alloc` for a quantum cache: a buffer that the cache holds, or the first of a new
slab, which comes from the arena. -/
def qcacheAlloc (vmp : Arena) (held : Option Word) : Option (Arena × Option Word) :=
  match held with
  | some buf => some (vmp, some buf)
  | none => (Call.instant (Slab.qcacheSlab vmp.vmQcacheMax) true).finish vmp 3

/-- `vmem_alloc` where no other thread gets in the way. `held` is what the quantum cache has for a
small request. -/
def vmemAllocNosleep (vmp : Arena) (size : Word) (vmflag : Vmflag) (held : Option Word) :
    Option (Arena × Option Word) :=
  match allocCalls vmp size vmflag with
  | [] => qcacheAlloc vmp held
  | call :: _ => call.finish vmp 3

/-- The quantum caches that `vmem_create` sets up are for multiples of the quantum. The size of
their slabs, `1 << highbit(3 * vm_qcache_max)`, is computed as an `int`. -/
structure Qcaches (q qcacheMax : Word) : Prop where
  whole : q.toNat ∣ qcacheMax.toNat
  shift : 3 * qcacheMax.toNat < 2 ^ 30

section
variable {vmp : Arena} {x : XallocArgs}

theorem xallocFound_none (hI : Indexed vmp []) (hsize : x.size ≠ 0) (h : xallocFound vmp x = none) :
    (∀ v ∈ vmp.aList, (vmp.segs v).vsType = .free → 2^x.size.toNat.log2 ≤ (vmp.segs v).len →
      xallocPlace vmp x (vmp.segs v) = none) ∨
    x.vmBestfit = false ∧ x.vmFirstfit = false ∧ ∃ v ∈ vmp.aList, (vmp.segs v).vsType = .free ∧
      2^(x.size.toNat.log2+1) ≤ (vmp.segs v).len ∧ xallocPlace vmp x (vmp.segs v) = none := by
  obtain ⟨k, hflist, hk⟩ := @xallocFlist_eq vmp x hsize
  have habove := @xallocSearch_above vmp x hI (vmemFreelists+1) k (by simp [vmemFreelists])
  rw [← hflist, ← xallocFound, h] at habove
  rcases hk with rfl | ⟨rfl, hb, hf, hne⟩
  · left
    intro v hv ht hle
    exact habove _ ((lt_highbit_iff hI hv ht).mpr hle) v (mem_freelist_of_free hI hv ht)
  · right
    obtain ⟨hlt, -, hnil, -⟩ := freelistAbove_spec hI hne
    obtain ⟨v, hv⟩ := exists_mem_of_ne_nil _ hnil
    obtain ⟨ha, -, ht, hbit, -⟩ := hI.mem_freelist hv
    refine ⟨hb, hf, v, ha, ht, ?_, habove _ hlt v hv⟩
    rw [← lt_highbit_iff hI ha ht, hbit]
    exact hlt

end

theorem size_le_of_fitsIn {q : Word} {x : XallocArgs} {vsp : Seg} (hfits : x.FitsIn q vsp) :
    x.size.toNat ≤ vsp.len := by
  have hstart := toNat_startIn x vsp
  change (x.startIn vsp.vsStart).toNat = max vsp.lo x.minaddr.toNat at hstart
  rw [XallocArgs.FitsIn, Seg.hi] at hfits
  omega

section
variable {vmp vmp' : Arena} {size : Word} {bestfit firstfit nosleep : Bool} {x : XallocArgs}
  {walker : SegId} {afterme : Option SegId}

theorem plainArgs_checked (hq : IsPow2 vmp.vmQuantum) (size : Word)
    (bestfit firstfit nosleep : Bool) :
    (plainArgs vmp size bestfit firstfit nosleep).Checked vmp.vmQuantum where
  quantum := hq
  passes vmp' h := by
    have hmask : vmp.vmQuantum &&& (vmp.vmQuantum-1) = 0 :=
      (and_pred_eq_zero_iff _ hq).mpr dvd_rfl
    simpa [xallocPanics, xallocAlign, plainArgs, h] using hmask
  align := .inr hq
  nocross := .inl rfl

theorem plainArgs_fitsIn (hq : IsPow2 vmp.vmQuantum) {vsp : Seg}
    (hv : vsp.FreeRange vmp.vmQuantum) (hle : size.toNat ≤ vsp.len) :
    (plainArgs vmp size bestfit firstfit nosleep).FitsIn vmp.vmQuantum vsp := by
  obtain ⟨hstart, htaddr⟩ := xallocFit_plain size bestfit firstfit nosleep hq hv.aligned hv.pos
  have hstart : (plainArgs vmp size bestfit firstfit nosleep).startIn vsp.vsStart =
      vsp.vsStart := hstart
  have htaddr : (plainArgs vmp size bestfit firstfit nosleep).taddr vmp.vmQuantum
      ((plainArgs vmp size bestfit firstfit nosleep).startIn vsp.vsStart) = vsp.vsStart := htaddr
  have htop : (plainArgs vmp size bestfit firstfit nosleep).top = 2^64 := rfl
  have hbound := hv.bound
  rw [XallocArgs.FitsIn, XallocArgs.offset, htaddr, hstart, sub_self, htop]
  change vsp.lo+0+size.toNat ≤ min vsp.hi (2^64)
  rw [Seg.hi] at *
  omega

theorem plain_found_none (hw : WellFormed vmp) (hsize : size ≠ 0)
    (h : xallocFound vmp (plainArgs vmp size bestfit firstfit nosleep) = none) :
    ∀ v ∈ vmp.aList, (vmp.segs v).vsType = .free → (vmp.segs v).len < size.toNat := by
  have hq := hw.layout.quantum
  have hs : 0 < size.toNat := by bv_omega
  have hplace : ∀ v ∈ vmp.aList, (vmp.segs v).vsType = .free → size.toNat ≤ (vmp.segs v).len →
      xallocPlace vmp (plainArgs vmp size bestfit firstfit nosleep) (vmp.segs v) ≠ none := by
    intro v hv ht hle
    have hrange := hw.layout.freeRange hv ht
    rw [xallocPlace_of_fitsIn rfl hrange hs (plainArgs_fitsIn hq hrange hle)]
    simp
  have hlog : 2^size.toNat.log2 ≤ size.toNat := Nat.log2_self_le (by omega)
  rcases xallocFound_none hw.indexed hsize h with hnone | ⟨-, -, v, hv, ht, hle, hnone⟩
  · intro v hv ht
    by_contra hge
    exact hplace v hv ht (by omega) (hnone v hv ht (hlog.trans (by omega)))
  · have hlt : size.toNat < 2^(size.toNat.log2+1) := Nat.lt_log2_self
    have hle : 2^(size.toNat.log2+1) ≤ (vmp.segs v).len := hle
    exact absurd hnone (hplace v hv ht (by omega))

theorem finish_xalloc_none (hs : Sourceless vmp) (hpanics : xallocPanics vmp x = false)
    (hsize : x.size ≠ 0) (hnosleep : x.vmNosleep = true) (h : xallocFound vmp x = none)
    (turns : Nat) : (Call.xalloc x).finish vmp (turns+1) = some (vmp, none) := by
  have hexec : (Call.xalloc x).exec vmp ⟨0, 0⟩ = some (vmp, .retry) := by
    change vmemXalloc vmp x = _
    rw [vmemXalloc, if_neg (by simp [hpanics]), ← xallocFound, h]
    dsimp only
    rw [if_neg hsize, hs.source]
    split <;> rfl
  have hrest : (Call.xalloc x).rest vmp .retry = [] := if_pos hnosleep
  rw [Call.finish, hexec, bind_some]
  dsimp only
  rw [hrest]

theorem finish_xalloc_some {v : SegId} {addr : Word} (hpanics : xallocPanics vmp x = false)
    (hstock : 2 ≤ vmp.vmSegfree.length) (h : xallocFound vmp x = some (v, addr)) (turns : Nat) :
    ∃ vmp', (Call.xalloc x).finish vmp (turns+1) = some (vmp', some addr) := by
  obtain ⟨vmp', hdone⟩ := vmemXalloc_of_found hpanics hstock h
  refine ⟨vmp', ?_⟩
  have hexec : (Call.xalloc x).exec vmp ⟨0, 0⟩ = some (vmp', .done addr none) := hdone
  rw [Call.finish, hexec, bind_some]

/-- No free segment has `size` bytes. -/
def NoRoom (vmp : Arena) (size : Word) : Prop :=
  ∀ v ∈ vmp.aList, (vmp.segs v).vsType = .free → (vmp.segs v).len < size.toNat

/-- Not even the free segments on the two sides of the rotor have `size` bytes together. -/
def NoRoomJoined (vmp : Arena) (size : Word) : Prop :=
  ∀ pre a b post, vmp.aList = pre ++ a :: vmRotor :: b :: post → (vmp.segs a).vsType = .free →
    (vmp.segs b).vsType = .free → (vmp.segs a).len + (vmp.segs b).len < size.toNat

variable {size : Word}

theorem finish_plain (hw : WellFormed vmp) (hs : Sourceless vmp)
    (hstock : 2 ≤ vmp.vmSegfree.length) (hsize : size ≠ 0) (bestfit firstfit : Bool) (turns : Nat) :
    ∃ vmp' r, (Call.xalloc (plainArgs vmp size bestfit firstfit true)).finish vmp (turns+1) =
      some (vmp', r) ∧ (r = none → NoRoom vmp size) := by
  have hpanics := (plainArgs_checked hw.layout.quantum size bestfit firstfit true).passes vmp rfl
  cases hfound : xallocFound vmp (plainArgs vmp size bestfit firstfit true) with
  | none =>
    exact ⟨vmp, none, finish_xalloc_none hs hpanics hsize rfl hfound turns,
      fun _ => plain_found_none hw hsize hfound⟩
  | some best =>
    obtain ⟨vmp', hfinish⟩ := finish_xalloc_some hpanics hstock hfound turns
    exact ⟨vmp', some best.2, hfinish, by simp⟩

theorem finish_of_done {call : Call} {vmp' : Arena} {addr : Word} {released : Option Block}
    (h : call.exec vmp ⟨0, 0⟩ = some (vmp', .done addr released)) (turns : Nat) :
    call.finish vmp (turns+1) = some (vmp', some addr) := by
  rw [Call.finish, h, bind_some]

theorem finish_of_xalloc {call : Call} {vmp' : Arena}
    (h : call.exec vmp ⟨0, 0⟩ = some (vmp', .xalloc)) (turns : Nat) :
    call.finish vmp (turns+1) = (Call.xalloc (call.args vmp)).finish vmp' turns := by
  rw [Call.finish, h, bind_some]
  rfl

theorem instantFlist_eq (hw : WellFormed vmp) (hsize : size ≠ 0) :
    ∃ k, (if size &&& (size-1) = 0 then lowbit (p2align vmp.vmFreemap size)
      else if highbit size < vmemFreelists then
        lowbit (p2align vmp.vmFreemap ((1 : Word) <<< highbit size)) else 0) =
      freelistAbove vmp k := by
  split
  · rename_i hpow
    refine ⟨size.toNat.log2, ?_⟩
    rw [freelistAbove, ← eq_one_shiftLeft hsize hpow]
  · split
    · exact ⟨_, rfl⟩
    · refine ⟨64, ((freelistAbove_eq_zero_iff hw.indexed).mpr fun i hi => ?_).symm⟩
      exact freelist_eq_nil_of_lt hw.indexed hi

theorem finish_instant_none (hw : WellFormed vmp) (hs : Sourceless vmp) (hsize : size ≠ 0)
    (hsum : size.toNat+2 * vmp.vmQuantum.toNat ≤ 2^64) (hroom : NoRoom vmp size) :
    (Call.instant size true).finish vmp 3 = some (vmp, none) := by
  have hx := plainArgs_checked hw.layout.quantum size false false true
  have hexec : (Call.instant size true).exec vmp ⟨0, 0⟩ = some (vmp, .xalloc) := by
    change vmemAlloc vmp size = _
    unfold vmemAlloc
    dsimp only
    refine if_pos ?_
    by_contra hne
    obtain ⟨k, hflist⟩ := instantFlist_eq hw hsize
    have hnil := (freelistAbove_spec hw.indexed (hflist ▸ hne)).2.2.1
    rw [← hflist] at hnil
    obtain ⟨v, hv⟩ := exists_mem_of_ne_nil _ hnil
    obtain ⟨ha, -, ht, -⟩ := hw.indexed.mem_freelist hv
    have hle := (size_le_of_instantFit hw rfl hne hv).2
    exact absurd hle (Nat.not_le_of_lt (hroom v ha ht))
  have hexact : (plainArgs vmp size false false true).Exact vmp.vmQuantum := by
    apply XallocArgs.exact_of_room hx (.inl rfl)
    have halign : (plainArgs vmp size false false true).alignFor vmp.vmQuantum = vmp.vmQuantum :=
      ite_self _
    rw [halign]
    exact hsum
  have hfound : xallocFound vmp (plainArgs vmp size false false true) = none := by
    cases hfound : xallocFound vmp (plainArgs vmp size false false true) with
    | none => rfl
    | some best =>
      obtain ⟨ha, ht, -, hplace, hclass⟩ := xallocFound_spec hw.indexed hfound
      have hfits := (fitsIn_of_xallocPlace rfl hexact (hw.layout.freeRange ha ht) hsize hclass
        hplace).1
      exact absurd (size_le_of_fitsIn hfits) (Nat.not_le_of_lt (hroom best.1 ha ht))
  rw [finish_of_xalloc hexec]
  exact finish_xalloc_none hs (hx.passes vmp rfl) hsize rfl hfound 1

theorem finish_instant (hw : WellFormed vmp) (hs : Sourceless vmp)
    (hstock : 2 ≤ vmp.vmSegfree.length) (hsize : size ≠ 0) :
    ∃ vmp' r, (Call.instant size true).finish vmp 3 = some (vmp', r) ∧
      (r = none → NoRoom vmp size) := by
  obtain ⟨k, hflist⟩ := instantFlist_eq hw hsize
  have hexec : (Call.instant size true).exec vmp ⟨0, 0⟩ = vmemAlloc vmp size := rfl
  unfold vmemAlloc at hexec
  rw [hflist] at hexec
  dsimp only at hexec
  by_cases hz : freelistAbove vmp k = 0
  · rw [if_pos hz] at hexec
    rw [finish_of_xalloc hexec]
    exact finish_plain hw hs hstock hsize false false 1
  · rw [if_neg hz] at hexec
    obtain ⟨-, -, hnil, -⟩ := freelistAbove_spec hw.indexed hz
    obtain ⟨v, rest, hlist⟩ := exists_cons_of_ne_nil hnil
    obtain ⟨y, vmp', halloc⟩ := @vmemSegAlloc_isSome v vmp hstock (vmp.segs v).vsStart size
    rw [hlist] at hexec
    dsimp only at hexec
    rw [halloc] at hexec
    exact ⟨vmp', some _, finish_of_done hexec 2, by simp⟩

theorem advance_conf (vprev vnext : SegId) :
    (advanceJoin (advanceLink vmp walker afterme) vprev vnext).toArenaConf = vmp.toArenaConf := by
  have hlink : (advanceLink vmp walker afterme).toArenaConf = vmp.toArenaConf := by
    cases afterme <;> rfl
  rw [advanceJoin]
  split
  · simp [hlink]
  · exact hlink

theorem vmemAdvance_eq (hs : Sourceless vmp) :
    vmemAdvance vmp walker afterme =
      (advanceJoin (advanceLink vmp walker afterme) (vmp.aPrev walker) (vmp.aNext walker), none) := by
  have hwhole : ∀ vsp, isWholeImport (advanceJoin (advanceLink vmp walker afterme)
      (vmp.aPrev walker) (vmp.aNext walker)) vsp = false := by
    intro vsp
    simp [isWholeImport, advance_conf, hs.sourceFree]
  unfold vmemAdvance
  dsimp only
  split
  · rfl
  · rw [hwhole]
    rfl

section
variable {post pre : List SegId} {a b : SegId} (hL : Layout vmp)
  (ha : vmp.aList = pre ++ a :: walker :: b :: post) (hm : vmp.isMarker walker = true)
include hL ha hm

theorem Layout.lo_eq_hi_of_marker (hfa : (vmp.segs a).vsType = .free)
    (hfb : (vmp.segs b).vsType = .free) : (vmp.segs b).lo = (vmp.segs a).hi := by
  obtain ⟨s, t, -, hstep, hrest⟩ := hL.scan_at ha
  obtain ⟨hold, -, -, rfl⟩ := (Scan.step_free hfa).mp hstep
  rw [map_cons] at hrest
  obtain ⟨t, hstep, hrest⟩ := Scan.tiled_cons.mp hrest
  obtain rfl := (Scan.step_marker (isMarker_iff.mp hm)).mp hstep
  rw [map_cons] at hrest
  obtain ⟨t, hstep, -⟩ := Scan.tiled_cons.mp hrest
  obtain ⟨holdb, -, -, -⟩ := (Scan.step_free hfb).mp hstep
  have hstart := hold.start
  have hstart' := holdb.start
  simp only [Seg.hi] at *
  omega

theorem advance_joins {after : SegId} (hplace : vmp.Place walker (some after))
    (hfa : (vmp.segs a).vsType = .free) (hfb : (vmp.segs b).vsType = .free) :
    let vmp' := advanceJoin (advanceLink vmp walker (some after)) a b
    a ∈ vmp'.aList ∧ (vmp'.segs a).vsType = .free ∧
      (vmp'.segs a).len = (vmp.segs a).len+(vmp.segs b).len := by
  have hsegs : (advanceLink vmp walker (some after)).segs = vmp.segs := rfl
  have hnd := hL.nodup_aList
  have hab : a ≠ b ∧ a ≠ walker := by
    rw [ha] at hnd
    simp only [nodup_cons, nodup_append, mem_append, mem_cons] at hnd
    grind
  have hlink : a ∈ (advanceLink vmp walker (some after)).aList := by
    rw [mem_advanceLink hnd hplace, if_neg hab.2, ha]
    simp
  have hseg : (advanceJoin (advanceLink vmp walker (some after)) a b).segs a =
      { vmp.segs a with vsEnd := (vmp.segs b).vsEnd } := by
    rw [advanceJoin, hsegs, if_pos ⟨hfa, hfb⟩]
    simp [hsegs, hfa]
  refine ⟨?_, ?_, ?_⟩
  · rw [advanceJoin, hsegs, if_pos ⟨hfa, hfb⟩]
    simpa using (mem_erase_of_ne hab.1).mpr hlink
  · rw [hseg]
    exact hfa
  · have hnext := hL.lo_eq_hi_of_marker ha hm hfa hfb
    have hbound := (hL.freeRange (by rw [ha]; simp) hfb).bound
    have hpos := (hL.freeRange (by rw [ha]; simp) hfa).pos
    rw [hseg]
    simp only [Seg.hi, Seg.lo, Seg.len, Seg.vsSize] at *
    bv_omega

end

theorem nextfitTake_isSome (hstock : 2 ≤ vmp.vmSegfree.length) (v : SegId) (size : Word) :
    ∃ vmp' released, nextfitTake vmp v size = some (vmp', .done (vmp.segs v).vsStart released) := by
  obtain ⟨x, vmp₁, halloc⟩ := @vmemSegAlloc_isSome v vmp hstock (vmp.segs v).vsStart size
  refine ⟨(vmemAdvance vmp₁ vmRotor (some x)).1, (vmemAdvance vmp₁ vmRotor (some x)).2, ?_⟩
  simp [nextfitTake, halloc]

theorem mem_around (hw : WellFormed vmp) {v : SegId} (hv : v ∈ vmp.aList)
    (ht : (vmp.segs v).vsType = .free) : v ∈ Ring.around vmp.aList vmRotor := by
  obtain ⟨pre, post, ha⟩ := append_of_mem hw.rotor.1
  have hnd := hw.layout.nodup_aList
  rw [ha] at hnd hv ⊢
  rw [Ring.around_split hnd]
  have hne : v ≠ vmRotor := by
    rintro rfl
    simp [hw.rotor.2] at ht
  simp only [mem_append, mem_cons] at hv ⊢
  tauto

section

variable {pre post : List SegId} (hw : WellFormed vmp) (ha : vmp.aList = pre ++ vmRotor :: post)

include hw ha

theorem aPrev_rotor : vmp.aPrev vmRotor = pre.getLastD seg0 := by
  have hnd := hw.layout.nodup_aList
  rw [ha] at hnd
  rw [Arena.aPrev, ha, Ring.prev_split hnd]

theorem aNext_rotor : vmp.aNext vmRotor = post.headD seg0 := by
  have hnd := hw.layout.nodup_aList
  rw [ha] at hnd
  rw [Arena.aNext, ha, Ring.next_split hnd]

end

theorem rotor_advance (hw : WellFormed vmp) (hs : Sourceless vmp) (size : Word) :
    ∃ vmp₁, vmemAdvance vmp vmRotor (some (vmp.aNext vmRotor)) = (vmp₁, none) ∧
      WellFormed vmp₁ ∧ vmp₁.toArenaConf = vmp.toArenaConf ∧
      vmp.vmSegfree.length ≤ vmp₁.vmSegfree.length ∧ (NoRoom vmp₁ size → NoRoomJoined vmp size) := by
  have hplace := rotor_place hw
  have hm : vmp.isMarker vmRotor = true := isMarker_iff.mpr (.inl hw.rotor.2)
  obtain ⟨hw₁, -, hconf⟩ := vmemAdvance_keeps hw hw.rotor.1 hm hplace (vmemAdvance_eq hs)
  refine ⟨_, vmemAdvance_eq hs, hw₁, hconf, ?_, fun hroom pre a b post ha hfa hfb => ?_⟩
  · obtain ⟨pre, post, ha⟩ := append_of_mem hw.rotor.1
    have hj := advanceJoin_spec hw.layout hw.indexed ha hm hplace
    rw [← aPrev_rotor hw ha, ← aNext_rotor hw ha] at hj
    rcases hj.body with ⟨-, -, hstock, -⟩ | ⟨_, _, _, _, -, -, -, -, -, hstock, -⟩ <;> rw [hstock]
    rw [length_cons]
    omega
  · -- what the rotor kept apart has become one segment
    have hsplit : vmp.aList = (pre ++ [a]) ++ vmRotor :: b :: post := by simpa using ha
    have hprev : vmp.aPrev vmRotor = a := by simpa using aPrev_rotor hw hsplit
    have hnext : vmp.aNext vmRotor = b := aNext_rotor hw hsplit
    obtain ⟨hmem, hfree, hlen⟩ := advance_joins hw.layout ha hm hplace hfa hfb
    rw [hprev] at hroom
    nth_rewrite 2 [hnext] at hroom
    rw [← hlen]
    exact hroom a hmem hfree

theorem nextfitFast_isSome (hstock : 1 ≤ vmp.vmSegfree.length)
    (h : (vmp.segs (vmp.aNext vmRotor)).vsType = .free ∧
      p2roundup size vmp.vmQuantum < vmp.vsSize (vmp.aNext vmRotor) ∧
      p2samehighbit (vmp.vsSize (vmp.aNext vmRotor))
        (vmp.vsSize (vmp.aNext vmRotor)-p2roundup size vmp.vmQuantum) = true) (nosleep : Bool) :
    ∃ vmp', vmemNextfitAlloc vmp size nosleep =
      some (vmp', .done (vmp.segs (vmp.aNext vmRotor)).vsStart none) := by
  unfold vmemNextfitAlloc
  dsimp only
  rw [if_pos h]
  generalize (vmp.segs (vmp.aNext vmRotor)).vsStart = addr
  generalize hmid : vmp.setStart (vmp.aNext vmRotor) (addr+p2roundup size vmp.vmQuantum) = mid
  have hstock' : 1 ≤ mid.vmSegfree.length := by
    rw [← hmid]
    simpa using hstock
  obtain ⟨x, vmp₁, hc, -⟩ := vmemSegCreate_isSome hstock' (mid.aPrev vmRotor) addr (addr+size)
  exact ⟨vmemHashInsert vmp₁ x, by rw [hc]; rfl⟩

section

variable (hw : WellFormed vmp) (hs : Sourceless vmp) (hstock : 2 ≤ vmp.vmSegfree.length)

include hw hs hstock

theorem nextfitSearch_cases :
    (∃ vmp' addr released, nextfitSearch vmp size true = some (vmp', .done addr released)) ∨
      ∃ vmp₁, nextfitSearch vmp size true = some (vmp₁, .xalloc) ∧ WellFormed vmp₁ ∧
        vmp₁.toArenaConf = vmp.toArenaConf ∧ 2 ≤ vmp₁.vmSegfree.length ∧ NoRoom vmp size ∧
        (NoRoom vmp₁ size → NoRoomJoined vmp size) := by
  unfold nextfitSearch
  cases hfind : (Ring.around vmp.aList vmRotor).find? fun vsp =>
      decide ((vmp.segs vsp).vsType = .free) && decide (size ≤ vmp.vsSize vsp) with
  | some v =>
    obtain ⟨vmp', released, htake⟩ := nextfitTake_isSome hstock v size
    exact .inl ⟨vmp', _, released, htake⟩
  | none =>
    have hroom : NoRoom vmp size := by
      intro v hv ht
      have hnot := find?_eq_none.mp hfind v (mem_around hw hv ht)
      simp only [ht, decide_true, Bool.true_and, decide_eq_true_iff, BitVec.not_le] at hnot
      exact hnot
    obtain ⟨vmp₁, hadvance, hw₁, hconf, hlen, hjoined⟩ := rotor_advance hw hs size
    have hstock₁ : 2 ≤ vmp₁.vmSegfree.length := hstock.trans hlen
    simp only [hadvance, nextfitAdvanced]
    split
    · obtain ⟨vmp', released, htake⟩ := nextfitTake_isSome hstock₁ (vmp₁.aPrev vmRotor) size
      exact .inl ⟨vmp', _, released, htake⟩
    · simp only [Bool.or_true, if_true]
      exact .inr ⟨vmp₁, rfl, hw₁, hconf, hstock₁, hroom, hjoined⟩

theorem finish_nextfit (hsize : size ≠ 0) :
    ∃ vmp' r, (Call.nextfit size true).finish vmp 3 = some (vmp', r) ∧
      (r = none → NoRoom vmp size ∧ NoRoomJoined vmp size) := by
  have hexec : (Call.nextfit size true).exec vmp ⟨0, 0⟩ = vmemNextfitAlloc vmp size true := rfl
  by_cases hfast : (vmp.segs (vmp.aNext vmRotor)).vsType = .free ∧
      p2roundup size vmp.vmQuantum < vmp.vsSize (vmp.aNext vmRotor) ∧
      p2samehighbit (vmp.vsSize (vmp.aNext vmRotor))
        (vmp.vsSize (vmp.aNext vmRotor)-p2roundup size vmp.vmQuantum) = true
  · obtain ⟨vmp', hdone⟩ := nextfitFast_isSome (Nat.le_of_succ_le hstock) hfast true
    exact ⟨vmp', _, finish_of_done (hexec.trans hdone) 2, by simp⟩
  · have hslow : vmemNextfitAlloc vmp size true = nextfitSearch vmp size true := if_neg hfast
    rw [hslow] at hexec
    rcases nextfitSearch_cases hw hs hstock with ⟨vmp', addr, released, hdone⟩ |
      ⟨vmp₁, hxalloc, hw₁, hconf, hstock₁, hroom, hjoined⟩
    · exact ⟨vmp', _, finish_of_done (hexec.trans hdone) 2, by simp⟩
    · have hs₁ : Sourceless vmp₁ := ⟨by rw [hconf, hs.source], by rw [hconf, hs.sourceFree]⟩
      have hargs : (Call.nextfit size true).args vmp = plainArgs vmp₁ size false false true := by
        rw [plainArgs, hconf]
        rfl
      rw [finish_of_xalloc (hexec.trans hxalloc), hargs]
      obtain ⟨vmp', r, hfinish, hnull⟩ := finish_plain hw₁ hs₁ hstock₁ hsize false false 1
      exact ⟨vmp', r, hfinish, fun hr => ⟨hroom, hjoined (hnull hr)⟩⟩

end

end

/-- A `VM_NOSLEEP` call of `vmem_alloc` returns null only when no free segment is large enough, in
every arena without a source that has this quantum and these quantum caches. -/
def AllocComplete (q qcacheMax size : Word) (vmflag : Vmflag) : Prop :=
  ∀ vmp held, WellFormed vmp → Sourceless vmp → Stocked vmp → vmp.vmQuantum = q →
    vmp.vmQcacheMax = qcacheMax →
    ∃ vmp' r, vmemAllocNosleep vmp size vmflag held = some (vmp', r) ∧
      (r = none → NoRoom vmp size ∧ (vmflag.vmNextfit = true → NoRoomJoined vmp size))

/-- A best-fit call of `vmem_xalloc` returns null exactly when no free segment can hold the request,
and otherwise uses one of the smallest that can, in every arena without a source that has this
quantum. -/
def XallocArgs.BestFits (q : Word) (x : XallocArgs) : Prop :=
  ∀ vmp, WellFormed vmp → Sourceless vmp → Stocked vmp → vmp.vmQuantum = q →
    ∃ vmp' r, (Call.xalloc x).finish vmp 3 = some (vmp', r) ∧
      (r = none ↔ ∀ v ∈ vmp.aList, (vmp.segs v).vsType = .free → ¬ (vmp.segs v).CanHold q x) ∧
      ∀ addr, r = some addr → ∃ v ∈ vmp.aList, xallocFound vmp x = some (v, addr) ∧
        (vmp.segs v).vsType = .free ∧ (vmp.segs v).CanHold q x ∧
        ∀ w ∈ vmp.aList, (vmp.segs w).vsType = .free → (vmp.segs w).CanHold q x →
          (vmp.segs v).len ≤ (vmp.segs w).len

variable {q qcacheMax size : Word} {vmflag : Vmflag} {x : XallocArgs}

theorem allocComplete_of_large (hsize : size ≠ 0) (hnosleep : vmflag.vmNosleep = true)
    (hlarge : ¬ size-1 < qcacheMax) : AllocComplete q qcacheMax size vmflag := by
  intro vmp cached hw hs hstock hq hmax
  have hstock := hstock.two_le
  rw [vmemAllocNosleep, allocCalls, hmax, if_neg hlarge, hnosleep]
  cases hnext : vmflag.vmNextfit with
  | true =>
    obtain ⟨vmp', r, hfinish, hnull⟩ := finish_nextfit hw hs hstock hsize
    exact ⟨vmp', r, hfinish, fun hr => ⟨(hnull hr).1, fun _ => (hnull hr).2⟩⟩
  | false =>
    simp only [Bool.false_eq_true, if_false]
    split
    · rename_i hcalls
      split at hcalls <;> simp at hcalls
    · rename_i call rest hcalls
      split at hcalls
      · obtain ⟨rfl, -⟩ := cons.inj hcalls
        obtain ⟨vmp', r, hfinish, hnull⟩ := finish_plain hw hs hstock hsize _ _ 2
        exact ⟨vmp', r, hfinish, fun hr => ⟨hnull hr, by simp⟩⟩
      · obtain ⟨rfl, -⟩ := cons.inj hcalls
        obtain ⟨vmp', r, hfinish, hnull⟩ := finish_instant hw hs hstock hsize
        exact ⟨vmp', r, hfinish, fun hr => ⟨hnull hr, by simp⟩⟩

theorem Qcaches.lt_qcacheSlab (h : Qcaches q qcacheMax) :
    qcacheMax.toNat < (Slab.qcacheSlab qcacheMax).toNat ∧
      (Slab.qcacheSlab qcacheMax).toNat ≤ 2^30 := by
  have hshift := h.shift
  have hmul : (3 * qcacheMax).toNat = 3 * qcacheMax.toNat := by bv_omega
  have hbit : highbit (3 * qcacheMax) ≤ 30 := by
    by_contra hgt
    obtain ⟨f, hf⟩ := Nat.exists_eq_add_of_lt (Nat.lt_of_not_le hgt)
    have hle := two_pow_le_of_highbit hf
    have hmono : 2^30 ≤ 2^(30+f) := Nat.pow_le_pow_right (by decide) (by omega)
    omega
  have hlt := lt_two_pow_highbit (3 * qcacheMax)
  have hpow := toNat_one_shiftLeft (Nat.lt_of_le_of_lt hbit (by decide : 30<64))
  have hmono : 2^highbit (3 * qcacheMax) ≤ 2^30 := Nat.pow_le_pow_right (by decide) hbit
  rw [Slab.qcacheSlab]
  split <;> split <;> bv_omega

section

variable (hq : IsPow2 q) (hcaches : Qcaches q qcacheMax)

include hq hcaches

theorem exists_small_null (hsmall : size-1 < qcacheMax) (vmflag : Vmflag) :
    ∃ vmp v, WellFormed vmp ∧ Sourceless vmp ∧ Stocked vmp ∧ vmp.vmQuantum = q ∧
      vmp.vmQcacheMax = qcacheMax ∧ vmemAllocNosleep vmp size vmflag none = some (vmp, none) ∧
      v ∈ vmp.aList ∧ (vmp.segs v).vsType = .free ∧ size.toNat ≤ (vmp.segs v).len := by
  obtain ⟨hslab, hslab'⟩ := hcaches.lt_qcacheSlab
  have hshift := hcaches.shift
  have hle : size.toNat ≤ qcacheMax.toNat := by bv_omega
  have hround : roundUp size.toNat q.toNat ≤ qcacheMax.toNat :=
    roundUp_le_of_dvd hq.pos hcaches.whole hle
  have hqmax : q.toNat ≤ qcacheMax.toNat := Nat.le_of_dvd (by bv_omega) hcaches.whole
  have hpos := hq.pos
  have hup : (p2roundup size q).toNat = roundUp size.toNat q.toNat :=
    toNat_p2roundup_of_lt hq (by omega)
  have hge := le_roundUp (n := size.toNat) hq.pos
  have hne : p2roundup size q ≠ 0 := by bv_omega
  obtain ⟨vmp, v, hw, hstock, hconf, hv, hseg, honly⟩ := @exists_oneSpan q q hq qcacheMax
    (p2roundup size q) (by bv_omega) hne (by omega) dvd_rfl (hup ▸ dvd_roundUp _ _)
  have hs : Sourceless vmp := ⟨by rw [hconf]; rfl, by rw [hconf]; rfl⟩
  have hquantum : vmp.vmQuantum = q := by
    rw [hconf]
    rfl
  have hmax : vmp.vmQcacheMax = qcacheMax := by
    rw [hconf]
    rfl
  have hlen : (vmp.segs v).len = (p2roundup size q).toNat := by
    rw [hseg]
    simp only [Seg.len, Seg.vsSize]
    rw [add_sub_cancel_left]
  have hroom : NoRoom vmp (Slab.qcacheSlab qcacheMax) := by
    intro y hy ht
    rw [honly y hy ht, hlen]
    omega
  refine ⟨vmp, v, hw, hs, hstock, hquantum, hmax, ?_, hv, by rw [hseg], by omega⟩
  rw [vmemAllocNosleep, allocCalls, hmax, if_pos hsmall]
  dsimp only
  rw [qcacheAlloc, hmax]
  exact finish_instant_none hw hs (by bv_omega) (by rw [hquantum]; omega) hroom

theorem not_allocComplete_of_small (hsmall : size-1 < qcacheMax) :
    ¬ AllocComplete q qcacheMax size vmflag := by
  intro h
  obtain ⟨vmp, v, hw, hs, hstock, hquantum, hmax, hnull, hv, ht, hle⟩ :=
    exists_small_null hq hcaches hsmall vmflag
  obtain ⟨vmp', r, hr, hcomplete⟩ := h vmp none hw hs hstock hquantum hmax
  rw [hnull] at hr
  cases hr
  exact absurd hle (Nat.not_le_of_lt ((hcomplete rfl).1 v hv ht))

theorem allocComplete_iff (hsize : size ≠ 0) (hnosleep : vmflag.vmNosleep = true) :
    AllocComplete q qcacheMax size vmflag ↔ ¬ size-1 < qcacheMax :=
  ⟨fun h hsmall => not_allocComplete_of_small hq hcaches hsmall h,
    allocComplete_of_large hsize hnosleep⟩

end

section
variable {vmp : Arena} {v w : SegId} {addr : Word}

theorem place_of_canHold (hw : WellFormed vmp) (hx : x.Checked vmp.vmQuantum) (hsize : x.size ≠ 0)
    (hwa : w ∈ vmp.aList) (hwt : (vmp.segs w).vsType = .free)
    (hhold : (vmp.segs w).CanHold vmp.vmQuantum x) :
    xallocPlace vmp x (vmp.segs w) ≠ none ∧ 2^x.size.toNat.log2 ≤ (vmp.segs w).len := by
  have hrange := hw.layout.freeRange hwa hwt
  have hpos : 0 < x.size.toNat := by bv_omega
  have hfits := (canHold_iff hx hrange hpos).mp hhold
  have hlog : 2^x.size.toNat.log2 ≤ x.size.toNat := Nat.log2_self_le (by omega)
  refine ⟨?_, hlog.trans (size_le_of_fitsIn hfits)⟩
  simp [xallocPlace_of_fitsIn rfl hrange hpos hfits]

theorem size_le_of_place (hw : WellFormed vmp) (hexact : x.Exact vmp.vmQuantum)
    (hsize : x.size ≠ 0) (hwa : w ∈ vmp.aList) (hwt : (vmp.segs w).vsType = .free)
    (hclass : 2^x.size.toNat.log2 ≤ (vmp.segs w).len)
    (hplace : xallocPlace vmp x (vmp.segs w) ≠ none) : x.size.toNat ≤ (vmp.segs w).len := by
  have hrange := hw.layout.freeRange hwa hwt
  obtain ⟨addr, hsome⟩ := ne_none_iff_exists'.mp hplace
  exact size_le_of_fitsIn (fitsIn_of_xallocPlace rfl hexact hrange hsize hclass hsome).1

theorem xallocFound_least (hw : WellFormed vmp) (hx : x.Checked vmp.vmQuantum)
    (hexact : x.Exact vmp.vmQuantum) (hbest : x.vmBestfit = true)
    (h : xallocFound vmp x = some (v, addr)) (hwa : w ∈ vmp.aList)
    (hwt : (vmp.segs w).vsType = .free) (hhold : (vmp.segs w).CanHold vmp.vmQuantum x) :
    (vmp.segs v).len ≤ (vmp.segs w).len := by
  have hI := hw.indexed
  obtain ⟨hva, hvt, hsize, -, -⟩ := xallocFound_spec hI h
  obtain ⟨k, hflist, hk⟩ := @xallocFlist_eq vmp x hsize
  have hk : k = x.size.toNat.log2 := hk.resolve_right (by simp [hbest])
  have habove := @xallocSearch_above vmp x hI (vmemFreelists+1) k (by simp [vmemFreelists])
  rw [← hflist, ← xallocFound, h] at habove
  obtain ⟨i, hi, hscan, hbelow⟩ := habove
  obtain ⟨hmem, -⟩ := (xallocScan_spec hscan).resolve_left (by simp)
  have hbit : highbit (vmp.segs v).vsSize = i := (hI.mem_freelist hmem).2.2.2.1
  obtain ⟨hplace, hclass⟩ := place_of_canHold hw hx hsize hwa hwt hhold
  have hwmem := mem_freelist_of_free hI hwa hwt
  rw [← hk] at hclass
  have hwk := (lt_highbit_iff hI hwa hwt).mpr hclass
  rcases lt_trichotomy (highbit (vmp.segs w).vsSize) i with hlt | heq | hgt
  · exact absurd (hbelow _ hwk hlt w hwmem) hplace
  · -- the list of `w` is the one in which the search ends
    have hfits : ∀ y ∈ vmp.vmFreelist i, xallocPlace vmp x (vmp.segs y) ≠ none →
        x.size ≤ vmp.vsSize y := by
      intro y hy hyp
      obtain ⟨hya, -, hyt, hybit, -⟩ := hI.mem_freelist hy
      exact size_le_of_place hw hexact hsize hya hyt
        ((lt_highbit_iff hI hya hyt).mp (by rw [hybit, ← hk]; exact hi)) hyp
    rw [heq] at hwmem
    exact (xallocScan_least hbest hfits (by simp) hscan).2 w hwmem hplace
  · -- the list of `w` is a larger one
    have hge := (lt_highbit_iff hI hwa hwt).mp hgt
    have hlt : (vmp.segs v).len < 2^i := by
      by_contra hnot
      have := (lt_highbit_iff hI hva hvt).mpr (Nat.le_of_not_lt hnot)
      omega
    omega

end

section

variable (hx : x.Checked q) (hsize : x.size ≠ 0) (hbest : x.vmBestfit = true)
  (hnosleep : x.vmNosleep = true)

include hx hsize hbest hnosleep

theorem XallocArgs.Exact.bestFits (hexact : x.Exact q) : x.BestFits q := by
  rintro vmp hw hs hstock rfl
  have hpanics := hx.passes vmp rfl
  cases hfound : xallocFound vmp x with
  | none =>
    refine ⟨vmp, none, finish_xalloc_none hs hpanics hsize hnosleep hfound 2, ?_, by simp⟩
    refine ⟨fun _ w hwa hwt hhold => ?_, fun _ => rfl⟩
    obtain ⟨hplace, hclass⟩ := place_of_canHold hw hx hsize hwa hwt hhold
    rcases xallocFound_none hw.indexed hsize hfound with hnone | ⟨hb, -⟩
    · exact hplace (hnone w hwa hwt hclass)
    · simp [hbest] at hb
  | some best =>
    obtain ⟨v, addr⟩ := best
    obtain ⟨vmp', hfinish⟩ := finish_xalloc_some hpanics hstock.two_le hfound 2
    obtain ⟨hva, hvt, -, hplace, hclass⟩ := xallocFound_spec hw.indexed hfound
    have hrange := hw.layout.freeRange hva hvt
    have hfits := (fitsIn_of_xallocPlace rfl hexact hrange hsize hclass hplace).1
    have hhold := (canHold_iff hx hrange (by bv_omega)).mpr hfits
    refine ⟨vmp', some addr, hfinish, ⟨by simp, fun h => absurd hhold (h v hva hvt)⟩, ?_⟩
    rintro addr ⟨rfl⟩
    exact ⟨v, hva, rfl, hvt, hhold,
      fun w hwa hwt => xallocFound_least hw hx hexact hbest hfound hwa hwt⟩

theorem XallocArgs.bestFits_iff : x.BestFits q ↔ x.Exact q := by
  refine ⟨fun h => ?_, fun hexact => hexact.bestFits hx hsize hbest hnosleep⟩
  by_contra hexact
  obtain ⟨vmp, v, addr, hw, hstock, hconf, hv, ht, honly, hfound, hhold⟩ :=
    exists_misplaced hx 0 hexact
  have hq : vmp.vmQuantum = q := by
    rw [hconf]
    rfl
  obtain ⟨vmp', hdone⟩ := finish_xalloc_some (hx.passes vmp hq) hstock.two_le hfound 2
  obtain ⟨vmp'', r, hfinish, hnull, -⟩ :=
    h vmp hw ⟨by rw [hconf]; rfl, by rw [hconf]; rfl⟩ hstock hq
  rw [hdone] at hfinish
  cases hfinish
  refine absurd (hnull.mpr fun w hwa hwt => ?_) (by simp)
  rwa [honly w hwa hwt]

end

/-- Which requests are answered completely: `vmem_alloc` returns null only for want of room exactly
for the sizes that no quantum cache serves, and a best-fit `vmem_xalloc` finds a smallest segment
that can hold the request, if there is one, exactly when its fit test is right about the request. -/
theorem nosleep_complete_iff (hq : IsPow2 q) :
    (∀ qcacheMax size vmflag, Qcaches q qcacheMax → size ≠ 0 → vmflag.vmNosleep = true →
      (AllocComplete q qcacheMax size vmflag ↔ ¬ size - 1 < qcacheMax)) ∧
    ∀ x : XallocArgs, x.Checked q → x.size ≠ 0 → x.vmBestfit = true → x.vmNosleep = true →
      (x.BestFits q ↔ x.Exact q) :=
  ⟨fun _ _ _ hcaches hsize hnosleep => allocComplete_iff hq hcaches hsize hnosleep,
    fun _ hx hsize hbest hnosleep => XallocArgs.bestFits_iff hx hsize hbest hnosleep⟩

theorem nosleep_complete_at :
    AllocComplete 8 128 136 ⟨true, false, false, true⟩ ∧ constrained.BestFits 8 := by
  have h := nosleep_complete_iff (q := 8) ⟨3, by decide, by decide⟩
  refine ⟨(h.1 128 136 _ ⟨by decide, by decide⟩ (by decide) rfl).mpr (by decide), ?_⟩
  exact (h.2 constrained constrained_checked (by decide) rfl rfl).mpr
    (XallocArgs.exact_of_room constrained_checked (.inr (by decide)) (by decide))

/-- A best-fit request that leaves no room for its alignment. -/
def crowded : XallocArgs := ⟨0xfffffffffffff000, 0x2000, 0, 0, 0, 0, true, false, true⟩

theorem crowded_checked : crowded.Checked 8 where
  quantum := ⟨3, by decide⟩
  passes vmp hq := by
    simp only [xallocPanics, xallocAlign, hq]
    decide
  align := .inr ⟨13, by decide⟩
  nocross := .inl rfl

theorem crowded_not_canHold {vsp : Seg} (hv : vsp.FreeRange 8) : ¬ vsp.CanHold 8 crowded := by
  rintro ⟨addr, hmeets, hlo, -⟩
  have hpos := hv.pos
  have hphase : addr.toNat % 0x2000 = 0 := hmeets.good.phase
  have hupper : addr.toNat+0xfffffffffffff000 ≤ 2^64 := hmeets.upper
  omega

/-- The sum of the fit test wraps around for a request that no segment can hold, and a quantum cache
returns null for a page while the arena has one. -/
theorem nosleep_incomplete :
    (∃ vmp vmp', WellFormed vmp ∧ Sourceless vmp ∧ Stocked vmp ∧ vmp.vmQuantum = 8 ∧
      (Call.xalloc crowded).finish vmp 3 = some (vmp', some 0x2000) ∧
      ∀ v ∈ vmp.aList, (vmp.segs v).vsType = .free → ¬ (vmp.segs v).CanHold 8 crowded) ∧
    ∃ vmp v, WellFormed vmp ∧ Sourceless vmp ∧ Stocked vmp ∧ vmp.vmQuantum = 0x1000 ∧
      vmp.vmQcacheMax = 0x8000 ∧
      vmemAllocNosleep vmp 0x1000 ⟨false, false, false, true⟩ none = some (vmp, none) ∧
      v ∈ vmp.aList ∧ (vmp.segs v).vsType = .free ∧ (0x1000 : Word).toNat ≤ (vmp.segs v).len := by
  constructor
  · obtain ⟨vmp, v, hw, hstock, hconf, hfound⟩ := exists_found crowded_checked 8 0xfffffffffffffff0
      0x2000 (by decide) (by decide) (by decide) (by decide) (by decide) (by decide)
      (by decide +kernel) (by decide +kernel)
    have hq : vmp.vmQuantum = 8 := by
      rw [hconf]
      rfl
    obtain ⟨vmp', hdone⟩ :=
      finish_xalloc_some (crowded_checked.passes vmp hq) hstock.two_le hfound 2
    refine ⟨vmp, vmp', hw, ⟨by rw [hconf]; rfl, by rw [hconf]; rfl⟩, hstock, hq, hdone, ?_⟩
    intro v hv ht
    exact crowded_not_canHold (hq ▸ hw.layout.freeRange hv ht)
  · exact exists_small_null ⟨12, by decide, by decide⟩ ⟨by decide, by decide⟩ (by decide) _

end Libumem.Vmem
