import Libumem.Vmem.Search
import Libumem.Vmem.Stocked

/-!
# The constraints of `vmem_xalloc`

An allocation that `vmem_xalloc` makes in a free segment of the arena lies where the caller asked
for it, in every arena, exactly for the requests whose fit test is right wherever a free segment
can begin. What goes wrong otherwise is the test alone: its sum wraps around for a size that leaves
no room for the alignment, and its difference wraps around for bounds that are crossed.
-/

namespace Libumem.Vmem
open Option Arith Lib Pow2 Place

/-- The segment and the address that `vmem_xalloc` finds. -/
def xallocFound (vmp : Arena) (x : XallocArgs) : Option (SegId × Word) :=
  xallocSearch vmp x (vmemFreelists + 1) (xallocFlist vmp x)

section
variable {vmp vmp' : Arena} {x : XallocArgs} {v : SegId} {addr : Word}

theorem xallocFound_spec (hI : Indexed vmp []) (h : xallocFound vmp x = some (v, addr)) :
    v ∈ vmp.aList ∧ (vmp.segs v).vsType = .free ∧ x.size ≠ 0 ∧
      xallocPlace vmp x (vmp.segs v) = some addr ∧ 2^x.size.toNat.log2 ≤ (vmp.segs v).len := by
  have hsize : x.size ≠ 0 := by
    intro hz
    rw [xallocFound, xallocSearch_zero hz] at h
    simp at h
  obtain ⟨k, hflist, hk⟩ := @xallocFlist_eq vmp x hsize
  have habove := @xallocSearch_above vmp x hI (vmemFreelists+1) k (by simp [vmemFreelists])
  rw [← hflist, ← xallocFound, h] at habove
  obtain ⟨i, hi, hscan, -⟩ := habove
  obtain ⟨hmem, hplace⟩ := (xallocScan_spec hscan).resolve_left (by simp)
  obtain ⟨ha, -, ht, hbit, -⟩ := hI.mem_freelist hmem
  refine ⟨ha, ht, hsize, hplace, ?_⟩
  rw [← lt_highbit_iff hI ha ht, hbit]
  rcases hk with rfl | ⟨rfl, -⟩ <;> omega

theorem xallocFound_only (hI : Indexed vmp []) (hv : v ∈ vmp.aList)
    (ht : (vmp.segs v).vsType = .free)
    (honly : ∀ y ∈ vmp.aList, (vmp.segs y).vsType = .free → y = v) (hsize : x.size ≠ 0)
    (hclass : 2^x.size.toNat.log2 ≤ (vmp.segs v).len)
    (hplace : xallocPlace vmp x (vmp.segs v) = some addr) : xallocFound vmp x = some (v, addr) := by
  obtain ⟨k, hflist, hk⟩ := @xallocFlist_eq vmp x hsize
  have hmem := mem_freelist_of_free hI hv ht
  have hbelow : k < highbit (vmp.segs v).vsSize := by
    have hlist : ∀ i, vmp.vmFreelist i ≠ [] → i = highbit (vmp.segs v).vsSize := by
      intro i hne
      obtain ⟨y, hy⟩ := List.exists_mem_of_ne_nil _ hne
      obtain ⟨ha, -, hty, hbit, -⟩ := hI.mem_freelist hy
      rw [← hbit, honly y ha hty]
    rcases hk with rfl | ⟨rfl, -, -, hne⟩
    · exact (lt_highbit_iff hI hv ht).mpr hclass
    · obtain ⟨hk, -, hnil, -⟩ := freelistAbove_spec hI hne
      exact lt_of_lt_of_eq hk (hlist _ hnil)
  have habove := @xallocSearch_above vmp x hI (vmemFreelists+1) k (by simp [vmemFreelists])
  rw [← hflist, ← xallocFound] at habove
  cases hfound : xallocFound vmp x with
  | none =>
    rw [hfound] at habove
    exact absurd (habove _ hbelow v hmem) (by simp [hplace])
  | some best =>
    obtain ⟨ha, hty, -, hbest, -⟩ := xallocFound_spec hI hfound
    have heq : best.1 = v := honly _ ha hty
    rw [heq, hplace] at hbest
    rw [← heq, some.inj hbest]

theorem vmemXalloc_done (h : vmemXalloc vmp x = some (vmp', .done addr none)) :
    ∃ v, xallocFound vmp x = some (v, addr) := by
  unfold vmemXalloc at h
  split at h
  · simp at h
  rw [← xallocFound] at h
  cases hfound : xallocFound vmp x with
  | some best =>
    simp only [hfound, bind_eq_bind, bind_eq_some_iff, Prod.exists, pure_def,
      some.injEq, Prod.mk.injEq, AllocResult.done.injEq] at h
    obtain ⟨_, _, _, -, rfl, -⟩ := h
    exact ⟨best.1, rfl⟩
  | none =>
    simp only [hfound] at h
    split at h
    · simp at h
    · split at h
      · split at h
        · simp at h
        · split at h
          · split at h <;> simp at h
          · simp at h
      · simp at h

theorem vmemXalloc_of_found (hpanics : xallocPanics vmp x = false)
    (hstock : 2 ≤ vmp.vmSegfree.length) (h : xallocFound vmp x = some (v, addr)) :
    ∃ vmp', vmemXalloc vmp x = some (vmp', .done addr none) := by
  obtain ⟨w, vmp', halloc⟩ := @vmemSegAlloc_isSome v vmp hstock addr x.size
  refine ⟨vmp', ?_⟩
  rw [vmemXalloc, if_neg (by simp [hpanics]), ← xallocFound, h]
  simp [halloc]

end

/-- In every well-formed arena with this quantum, a request that is satisfied from a free segment
of the arena lies where it was asked for, and within that segment. -/
def XallocArgs.Honoured (q : Word) (x : XallocArgs) : Prop :=
  ∀ vmp vmp' addr, WellFormed vmp → vmp.vmQuantum = q →
    vmemXalloc vmp x = some (vmp', .done addr none) →
    x.Meets q addr ∧ ∃ v ∈ vmp.aList, xallocFound vmp x = some (v, addr) ∧
      (vmp.segs v).vsType = .free ∧ (vmp.segs v).Within q addr x.size

variable {q : Word} {x : XallocArgs}

theorem XallocArgs.Exact.honoured (hx : x.Checked q) (h : x.Exact q) : x.Honoured q := by
  intro vmp vmp' addr hw hq hdone
  obtain ⟨v, hfound⟩ := vmemXalloc_done hdone
  obtain ⟨ha, ht, hsize, hplace, hclass⟩ := xallocFound_spec hw.indexed hfound
  have hrange : (vmp.segs v).FreeRange q := hq ▸ hw.layout.freeRange ha ht
  obtain ⟨hfits, rfl⟩ := fitsIn_of_xallocPlace hq h hrange hsize hclass hplace
  obtain ⟨hmeets, hwithin⟩ := meets_of_fitsIn hx hrange (by bv_omega) hfits
  exact ⟨hmeets, v, ha, hfound, ht, hwithin⟩

def topSegment (base : Word) : Seg := ⟨base, 0, .free, false⟩

theorem topSegment_hi {base : Word} (hbase : base ≠ 0) : (topSegment base).hi = 2^64 := by
  simp only [topSegment, Seg.hi, Seg.lo, Seg.len, Seg.vsSize]
  bv_omega

theorem topSegment_freeRange {base : Word} (hq : IsPow2 q) (hbase : base ≠ 0)
    (hdvd : q.toNat ∣ base.toNat) : (topSegment base).FreeRange q := by
  have hhi := topSegment_hi hbase
  have hlt := base.isLt
  have hlo : (topSegment base).lo = base.toNat := rfl
  refine ⟨?_, hdvd, ?_, ?_, hhi.le⟩
  · rw [hlo]
    bv_omega
  · rw [Seg.hi, hlo] at hhi
    omega
  · have hlen : (topSegment base).len = 2^64-base.toNat := by
      rw [Seg.hi, hlo] at hhi
      omega
    rw [hlen]
    exact Nat.dvd_sub hq.dvd_two_pow hdvd

/-- Where the fit test is wrong, an arena with one free segment goes wrong. -/
theorem exists_misplaced (hx : x.Checked q) (qcacheMax : Word) (h : ¬ x.Exact q) :
    ∃ vmp v addr, WellFormed vmp ∧ Stocked vmp ∧
      vmp.toArenaConf = (vmemCreate q none false false qcacheMax).toArenaConf ∧
      v ∈ vmp.aList ∧ (vmp.segs v).vsType = .free ∧
      (∀ y ∈ vmp.aList, (vmp.segs y).vsType = .free → y = v) ∧
      xallocFound vmp x = some (v, addr) ∧ ¬ (vmp.segs v).CanHold q x := by
  simp only [XallocArgs.Exact, not_forall] at h
  obtain ⟨base, hsearched, hfit, hover⟩ := h
  have hsize : 0 < x.size.toNat := by
    have := hsearched.size_ne
    bv_omega
  have hrange := topSegment_freeRange hx.quantum hsearched.ne_zero hsearched.aligned
  have hneg : (-base).toNat = 2^64-base.toNat := by
    have := hsearched.ne_zero
    bv_omega
  have hlt := base.isLt
  have hneg_ne : -base ≠ 0 := by
    have := hsearched.ne_zero
    bv_omega
  obtain ⟨vmp, v, hw, hstock, hconf, hv, hseg, honly⟩ := exists_oneSpan hx.quantum qcacheMax (-base)
    hsearched.ne_zero hneg_ne (by omega) hsearched.aligned
    (dvd_toNat_neg hx.quantum hsearched.aligned)
  have hq : vmp.vmQuantum = q := by
    rw [hconf]
    rfl
  have hseg : vmp.segs v = topSegment base := by
    rw [hseg, add_neg_cancel]
    rfl
  have ht : (vmp.segs v).vsType = .free := by
    rw [hseg]
    rfl
  have hlast : x.lastIn (topSegment base) = x.maxaddr-1 := by
    rw [XallocArgs.lastIn, if_neg]
    change ¬ (0 : Word)-1 < x.maxaddr-1
    bv_omega
  have hplace : xallocPlace vmp x (topSegment base) = some (x.addrIn q (topSegment base)) := by
    rw [xallocPlace_eq_some hq]
    refine ⟨?_, hsearched.below, ?_, rfl⟩
    · change x.minaddr ≤ (0 : Word)-1
      bv_omega
    · rw [hlast, sub_add_cancel]
      exact hfit
  have hclass : 2^x.size.toNat.log2 ≤ (topSegment base).len := by
    have hhi := topSegment_hi hsearched.ne_zero
    have hroom := hsearched.room
    have hlo : (topSegment base).lo = base.toNat := rfl
    rw [Seg.hi, hlo] at hhi
    omega
  refine ⟨vmp, v, _, hw, hstock, hconf, hv, ht, honly,
    xallocFound_only hw.indexed hv ht honly hsearched.size_ne (by rwa [hseg]) (by rwa [hseg]), ?_⟩
  rw [hseg, canHold_iff hx hrange hsize, XallocArgs.FitsIn, topSegment_hi hsearched.ne_zero,
    min_eq_right x.top_le]
  exact hover

/-- `vmem_xalloc` honours a request in every arena exactly when the fit test is right about it. -/
theorem xalloc_honoured_iff (hx : x.Checked q) : x.Honoured q ↔ x.Exact q := by
  constructor
  · intro h
    by_contra hexact
    obtain ⟨vmp, v, addr, hw, hstock, hconf, hv, ht, honly, hfound, hhold⟩ :=
      exists_misplaced hx 0 hexact
    have hq : vmp.vmQuantum = q := by
      rw [hconf]
      rfl
    obtain ⟨vmp', hdone⟩ := vmemXalloc_of_found (hx.passes vmp hq) hstock.two_le hfound
    obtain ⟨hmeets, w, -, hfound', -, hwithin⟩ := h vmp vmp' addr hw hq hdone
    obtain rfl : v = w := by
      rw [hfound] at hfound'
      simpa using hfound'
    exact hhold ⟨addr, hmeets, hwithin⟩
  · exact XallocArgs.Exact.honoured hx

theorem XallocArgs.exact_of_room (hx : x.Checked q) (hbounds : x.maxaddr = 0 ∨ x.minaddr < x.maxaddr)
    (hroom : x.size.toNat+2 * (x.alignFor q).toNat+x.nocross.toNat ≤ 2^64) : x.Exact q := by
  intro base hsearched hfit
  have hoff : (x.offset q (x.startIn base)).toNat+x.size.toNat < 2^64 :=
    @xallocFit_offset (vmemCreate q none false false 0) x (topSegment base) hroom
      hx.isPow2_alignFor.pos
  have hstart : (x.startIn base).toNat = max base.toNat x.minaddr.toNat :=
    toNat_startIn x (topSegment base)
  have htop := toNat_maxaddr_sub_one x
  have hbelow : base.toNat ≤ (x.maxaddr-1).toNat := hsearched.below
  have hmin : x.minaddr.toNat ≤ (x.maxaddr-1).toNat := by
    rcases hbounds with hz | hlt
    · have := x.minaddr.isLt
      rw [hz] at htop ⊢
      bv_omega
    · bv_omega
  have hpos : 0 < base.toNat := by
    have := hsearched.ne_zero
    bv_omega
  rw [BitVec.le_def, BitVec.toNat_add, Nat.mod_eq_of_lt hoff] at hfit
  have hsub : (x.maxaddr-x.startIn base).toNat = x.top-(x.startIn base).toNat := by
    have hone : x.maxaddr = x.maxaddr-1+1 := by rw [sub_add_cancel]
    rw [← htop]
    nth_rewrite 1 [hone]
    generalize x.maxaddr-1 = last at *
    generalize x.startIn base = start at *
    bv_omega
  omega

/-- A request with every kind of constraint. -/
def constrained : XallocArgs := ⟨64, 128, 32, 256, 0x1100, 0x1800, true, false, true⟩

theorem constrained_checked : constrained.Checked 8 where
  quantum := ⟨3, by decide⟩
  passes vmp hq := by
    simp only [xallocPanics, xallocAlign, hq]
    decide
  align := .inr ⟨7, by decide⟩
  nocross := .inr ⟨8, by decide⟩

theorem constrained_honoured : constrained.Honoured 8 :=
  (xalloc_honoured_iff constrained_checked).mpr
    (XallocArgs.exact_of_room constrained_checked (.inr (by decide)) (by decide))

theorem exists_found {x : XallocArgs} (hx : x.Checked 8) (base size addr : Word) (hbase : base ≠ 0)
    (hsize : size ≠ 0) (hbound : base.toNat+size.toNat ≤ 2^64) (hdvd : 8 ∣ base.toNat)
    (hlen : 8 ∣ size.toNat) (hne : x.size ≠ 0)
    (hclass : 2^x.size.toNat.log2 ≤ (⟨base, base+size, .free, false⟩ : Seg).len)
    (hplace : xallocPlace (vmemCreate 8 none false false 0) x ⟨base, base+size, .free, false⟩ =
      some addr) :
    ∃ vmp v, WellFormed vmp ∧ Stocked vmp ∧
      vmp.toArenaConf = (vmemCreate 8 none false false 0).toArenaConf ∧
      xallocFound vmp x = some (v, addr) := by
  obtain ⟨vmp, v, hw, hstock, hconf, hv, hseg, honly⟩ := exists_oneSpan hx.quantum 0 size hbase
    hsize hbound hdvd hlen
  have hq : vmp.vmQuantum = 8 := by
    rw [hconf]
    rfl
  have hq' : (vmemCreate 8 none false false 0).vmQuantum = 8 := rfl
  have hplace : xallocPlace vmp x (vmp.segs v) = some addr := by
    rw [hseg, xallocPlace_eq_some hq]
    rwa [xallocPlace_eq_some hq'] at hplace
  exact ⟨vmp, v, hw, hstock, hconf,
    xallocFound_only hw.indexed hv (by rw [hseg]) honly hne (by rwa [hseg]) hplace⟩

theorem exists_done {x : XallocArgs} {addr : Word} (hx : x.Checked 8)
    (h : ∃ vmp v, WellFormed vmp ∧ Stocked vmp ∧
      vmp.toArenaConf = (vmemCreate 8 none false false 0).toArenaConf ∧
      xallocFound vmp x = some (v, addr)) :
    ∃ vmp vmp', WellFormed vmp ∧ vmp.vmQuantum = 8 ∧
      vmemXalloc vmp x = some (vmp', .done addr none) := by
  obtain ⟨vmp, v, hw, hstock, hconf, hfound⟩ := h
  have hq : vmp.vmQuantum = 8 := by
    rw [hconf]
    rfl
  obtain ⟨vmp', hdone⟩ := vmemXalloc_of_found (hx.passes vmp hq) hstock.two_le hfound
  exact ⟨vmp, vmp', hw, hq, hdone⟩

/-- A size that leaves no room for the alignment is placed past the end of the address space, and
bounds that are crossed are not kept. -/
theorem xalloc_dishonoured :
    (∃ vmp vmp', WellFormed vmp ∧ vmp.vmQuantum = 8 ∧
      vmemXalloc vmp ⟨0xfffffffffffff000, 0x2000, 0, 0, 0, 0, false, true, true⟩ =
        some (vmp', .done 0x2000 none) ∧
      ¬ XallocArgs.Meets 8 ⟨0xfffffffffffff000, 0x2000, 0, 0, 0, 0, false, true, true⟩ 0x2000) ∧
    ∃ vmp vmp', WellFormed vmp ∧ vmp.vmQuantum = 8 ∧
      vmemXalloc vmp ⟨0x100, 8, 0, 0, 0x5000, 0x3000, false, false, true⟩ =
        some (vmp', .done 0x5000 none) ∧
      ¬ XallocArgs.Meets 8 ⟨0x100, 8, 0, 0, 0x5000, 0x3000, false, false, true⟩ 0x5000 := by
  constructor
  · have hx : XallocArgs.Checked 8 ⟨0xfffffffffffff000, 0x2000, 0, 0, 0, 0, false, true, true⟩ :=
      ⟨⟨3, by decide⟩, fun vmp hq => by simp only [xallocPanics, xallocAlign, hq]; decide,
        .inr ⟨13, by decide⟩, .inl rfl⟩
    obtain ⟨vmp, vmp', hw, hq, hdone⟩ := exists_done hx (exists_found hx 8 0xfffffffffffffff0 0x2000
      (by decide) (by decide) (by decide) (by decide) (by decide) (by decide) (by decide +kernel)
      (by decide +kernel))
    exact ⟨vmp, vmp', hw, hq, hdone, fun hm => absurd hm.upper (by decide)⟩
  · have hx : XallocArgs.Checked 8 ⟨0x100, 8, 0, 0, 0x5000, 0x3000, false, false, true⟩ :=
      ⟨⟨3, by decide⟩, fun vmp hq => by simp only [xallocPanics, xallocAlign, hq]; decide,
        .inr ⟨3, by decide⟩, .inl rfl⟩
    obtain ⟨vmp, vmp', hw, hq, hdone⟩ := exists_done hx (exists_found hx 0x1000 0x8000 0x5000
      (by decide) (by decide) (by decide) (by decide) (by decide) (by decide) (by decide +kernel)
      (by decide +kernel))
    exact ⟨vmp, vmp', hw, hq, hdone, fun hm => absurd hm.upper (by decide)⟩

end Libumem.Vmem
