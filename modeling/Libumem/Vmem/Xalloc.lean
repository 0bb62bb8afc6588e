import Libumem.Vmem.SegAlloc

/-!
# The search of `vmem_xalloc`

What the search returns is a segment on a freelist and an address in it. The fit test adds the
offset of that address and the size, so it is only as good as this sum: the allocation lies in the
segment unless the sum wraps around, or the bounds `minaddr` and `maxaddr` are crossed.
-/

namespace Libumem.Vmem
open Arith Lib Pow2

/-- Arguments for which no sum in the fit test of `vmem_xalloc` wraps around: the bounds are in
order and the size leaves room for the alignment, or the call comes from `vmem_alloc`. -/
def XallocArgs.Bounded (vmp : Arena) (x : XallocArgs) : Prop :=
  (x.maxaddr = 0 ∨ x.minaddr < x.maxaddr) ∧
    x.size.toNat + 2 * (xallocAlign vmp x).toNat + x.nocross.toNat ≤ 2 ^ 64 ∨
  ∃ bestfit firstfit nosleep, x = plainArgs vmp x.size bestfit firstfit nosleep

variable {vmp : Arena} {x : XallocArgs} {best : SegId × Word} {vsp : Seg}

theorem xallocScan_spec {l : List SegId} {vbest : Option (SegId × Word)}
    (h : xallocScan vmp x l vbest = some best) :
    vbest = some best ∨ best.1 ∈ l ∧ xallocPlace vmp x (vmp.segs best.1) = some best.2 := by
  induction l generalizing vbest with
  | nil => exact .inl h
  | cons vsp rest ih =>
    have hrest : ∀ v, xallocScan vmp x rest v = some best → v = some best ∨
        best.1 ∈ vsp :: rest ∧ xallocPlace vmp x (vmp.segs best.1) = some best.2 := fun v hv =>
      (ih hv).imp id fun h => ⟨List.mem_cons_of_mem _ h.1, h.2⟩
    rw [xallocScan] at h
    split at h
    · exact hrest _ h
    · rename_i taddr hplace
      split at h
      · exact hrest _ h
      · split at h
        · cases h
          exact .inr ⟨List.mem_cons_self, hplace⟩
        · rcases hrest _ h with h | h
          · cases h
            exact .inr ⟨List.mem_cons_self, hplace⟩
          · exact .inr h

theorem xallocSearch_spec (hI : Indexed vmp []) {turns flist : Nat}
    (h : xallocSearch vmp x turns flist = some best) :
    best.1 ∈ vmp.aList ∧ (vmp.segs best.1).vsType = .free ∧
      xallocPlace vmp x (vmp.segs best.1) = some best.2 := by
  induction turns generalizing flist with
  | zero => simp [xallocSearch] at h
  | succ turns ih =>
    rw [xallocSearch] at h
    split at h
    · simp at h
    · split at h
      · rename_i found hscan
        cases h
        obtain ⟨hm, hplace⟩ := (xallocScan_spec hscan).resolve_left (by simp)
        obtain ⟨ha, -, ht, -⟩ := hI.mem_freelist hm
        exact ⟨ha, ht, hplace⟩
      · exact ih h

theorem xallocSearch_zero (hsize : x.size = 0) (turns : Nat) :
    xallocSearch vmp x turns (xallocFlist vmp x) = none := by
  have hflist : xallocFlist vmp x = 0 := by
    simp [xallocFlist, hsize, p2align, lowbit]
  cases turns <;> simp [xallocSearch, hflist]

theorem toNat_and_pred_lt (x : Word) {m : Word} (hm : m ≠ 0) : (x &&& (m-1)).toNat < m.toNat := by
  have hle : (x &&& (m-1)).toNat ≤ (m-1).toNat := by
    rw [BitVec.toNat_and]
    exact Nat.and_le_right
  have hpred : (m-1).toNat = m.toNat-1 := by bv_omega
  have hpos : 0 < m.toNat := by bv_omega
  omega

theorem p2boundary_zero (off len : Word) : p2boundary off len 0 = false := by
  rw [p2boundary, decide_eq_false_iff_not]
  bv_omega

theorem xallocFit_offset (hbound : x.size.toNat+2 * (xallocAlign vmp x).toNat +
    x.nocross.toNat ≤ 2^64) (halign : 0 < (xallocAlign vmp x).toNat) :
    ((xallocFit vmp x vsp).taddr-(xallocFit vmp x vsp).start).toNat+x.size.toNat < 2^64 := by
  unfold xallocFit
  dsimp only
  generalize (if x.minaddr < vsp.vsStart then vsp.vsStart else x.minaddr) = start
  generalize xallocAlign vmp x = align at *
  have hne : align ≠ 0 := by
    rintro rfl
    simp at halign
  have hphase := toNat_and_pred_lt (x.phase-start) hne
  rw [p2phaseup_eq_add]
  generalize (x.phase-start) &&& (align-1) = a at *
  split
  · rename_i hcross
    have hnc : x.nocross ≠ 0 := by
      intro hz
      rw [hz, p2boundary_zero] at hcross
      exact absurd hcross (by simp)
    rw [p2roundup_eq_add, p2nphase, p2nphase]
    have hn := toNat_and_pred_lt (-(start+a)) hnc
    generalize -(start+a) &&& (x.nocross-1) = n at *
    have hr := toNat_and_pred_lt (-n) hne
    generalize -n &&& (align-1) = r at *
    have hsum : start+a+(n+r)-start = a+n+r := by
      clear hcross
      bv_omega
    rw [hsum, BitVec.toNat_add, BitVec.toNat_add]
    clear hcross hsum
    omega
  · have hsum : start+a-start = a := by bv_omega
    rw [hsum]
    omega

theorem xallocFit_plain (size : Word) (bestfit firstfit nosleep : Bool)
    (hq : IsPow2 vmp.vmQuantum) (hdvd : vmp.vmQuantum.toNat ∣ vsp.lo) (hpos : 0 < vsp.lo) :
    (xallocFit vmp (plainArgs vmp size bestfit firstfit nosleep) vsp).start = vsp.vsStart ∧
      (xallocFit vmp (plainArgs vmp size bestfit firstfit nosleep) vsp).taddr = vsp.vsStart := by
  have hstart : (0 : Word) < vsp.vsStart := by
    rw [Seg.lo] at hpos
    bv_omega
  have hne : vmp.vmQuantum ≠ 0 := by
    have := hq.pos
    bv_omega
  have hphase : (0-vsp.vsStart) &&& (vmp.vmQuantum-1) = 0 := by
    have hmod := toNat_p2phase (-vsp.vsStart) hq
    rw [Nat.mod_eq_zero_of_dvd (dvd_toNat_neg hq hdvd), p2phase] at hmod
    have hneg : 0-vsp.vsStart = -vsp.vsStart := by bv_omega
    rw [hneg]
    exact BitVec.eq_of_toNat_eq hmod
  have halign : xallocAlign vmp (plainArgs vmp size bestfit firstfit nosleep) = vmp.vmQuantum :=
    if_neg hne
  have htaddr : p2phaseup vsp.vsStart vmp.vmQuantum 0 = vsp.vsStart := by
    rw [p2phaseup_eq_add, hphase]
    bv_omega
  have hmax : (if (plainArgs vmp size bestfit firstfit nosleep).minaddr < vsp.vsStart then
      vsp.vsStart else (plainArgs vmp size bestfit firstfit nosleep).minaddr) = vsp.vsStart :=
    if_pos hstart
  unfold xallocFit
  rw [halign, hmax]
  simp only [plainArgs, p2boundary_zero, Bool.false_eq_true, if_false, htaddr, and_self]

theorem fits_arith {vsStart vsEnd start last taddr size : Word} (hstart : vsStart ≤ start)
    (hlast : start ≤ last) (hend : last ≤ vsEnd-1) (hfit : ¬ last+1-start < (taddr-start)+size)
    (hoff : (taddr-start).toNat+size.toNat < 2^64) (hsize : 0 < size.toNat)
    (hpos : 0 < vsStart.toNat) (hlen : 0 < (vsEnd-vsStart).toNat)
    (hhi : vsStart.toNat+(vsEnd-vsStart).toNat ≤ 2^64) :
    vsStart.toNat ≤ taddr.toNat ∧ taddr.toNat+size.toNat ≤ vsStart.toNat+(vsEnd-vsStart).toNat := by
  have hsum : ((taddr-start)+size).toNat = (taddr-start).toNat+size.toNat := by
    rw [BitVec.toNat_add, Nat.mod_eq_of_lt hoff]
  have htaddr : taddr = start+(taddr-start) := by bv_omega
  generalize taddr-start = d at *
  have hroom : (last+1-start).toNat = last.toNat+1-start.toNat := by bv_omega
  have hle : d.toNat+size.toNat ≤ last.toNat+1-start.toNat := by
    rw [← hsum, ← hroom]
    exact Nat.le_of_not_lt hfit
  have hvend : (vsEnd-1).toNat+1 = vsStart.toNat+(vsEnd-vsStart).toNat := by bv_omega
  have h1 : last.toNat ≤ (vsEnd-1).toNat := hend
  have h2 : start.toNat ≤ last.toNat := hlast
  have h3 : vsStart.toNat ≤ start.toNat := hstart
  have h4 := last.isLt
  have hlt : start.toNat+d.toNat < 2^64 := by omega
  have h5 : taddr.toNat = start.toNat+d.toNat := by
    rw [htaddr, BitVec.toNat_add, Nat.mod_eq_of_lt hlt]
  omega

theorem dvd_of_not_panics (hq : IsPow2 vmp.vmQuantum) (h : xallocPanics vmp x = false) :
    vmp.vmQuantum.toNat ∣ (xallocAlign vmp x).toNat ∧ vmp.vmQuantum.toNat ∣ x.phase.toNat ∧
      vmp.vmQuantum.toNat ∣ x.nocross.toNat := by
  simp only [xallocPanics, Bool.or_eq_false_iff, bne_eq_false_iff_eq] at h
  obtain ⟨⟨-, hguard⟩, -⟩ := h
  rw [or_and_eq_zero_iff, or_and_eq_zero_iff, and_pred_eq_zero_iff _ hq, and_pred_eq_zero_iff _ hq,
    and_pred_eq_zero_iff _ hq, and_assoc] at hguard
  exact hguard

/-- An address that passes the fit test lies in the segment with the whole allocation. -/
theorem xallocPlace_fits {s t : Scan} {addr : Word} (hq : IsPow2 vmp.vmQuantum)
    (hfree : vsp.vsType = .free) (hs : Scan.Step vmp.vmQuantum.toNat s vsp t)
    (hpanics : xallocPanics vmp x = false) (hx : x.Bounded vmp) (hsize : x.size ≠ 0)
    (h : xallocPlace vmp x vsp = some addr) : Fits vmp.vmQuantum vsp addr x.size := by
  obtain ⟨hold, hlen, -, -⟩ := (Scan.step_free hfree).mp hs
  have hlo : 0 < vsp.lo := hold.start ▸ hold.pos
  have hdvd : vmp.vmQuantum.toNat ∣ vsp.lo := hold.start ▸ hold.aligned
  have halign : 0 < (xallocAlign vmp x).toNat := by
    rw [xallocAlign]
    split
    · exact hq.pos
    · bv_omega
  have hoff : (x.maxaddr = 0 ∨ x.minaddr < x.maxaddr) ∧
      ((xallocFit vmp x vsp).taddr-(xallocFit vmp x vsp).start).toNat+x.size.toNat < 2^64 := by
    rcases hx with ⟨hmm, hb⟩ | ⟨b, f, n, he⟩
    · exact ⟨hmm, xallocFit_offset hb halign⟩
    · obtain ⟨h1, h2⟩ := xallocFit_plain x.size b f n hq hdvd hlo
      rw [← he] at h1 h2
      refine ⟨.inl (by rw [he]; rfl), ?_⟩
      rw [h1, h2]
      have := x.size.isLt
      simpa using this
  obtain ⟨hdalign, hdphase, -⟩ := dvd_of_not_panics hq hpanics
  unfold xallocPlace at h
  dsimp only at h
  split at h
  · simp at h
  rename_i hmin
  split at h
  · simp at h
  rename_i hmax
  split at h
  · simp at h
  rename_i hfit
  cases h
  have hmaxle : x.minaddr ≤ x.maxaddr-1 := by
    rcases hoff.1 with hz | hlt
    · rw [hz]
      bv_omega
    · bv_omega
  have hbounds : vsp.vsStart.toNat ≤ (xallocFit vmp x vsp).taddr.toNat ∧
      (xallocFit vmp x vsp).taddr.toNat+x.size.toNat ≤
        vsp.vsStart.toNat+(vsp.vsEnd-vsp.vsStart).toNat := by
    have hroom := hold.room
    have hbound := hold.bound
    rw [← hold.start] at hroom
    refine fits_arith ?_ ?_ ?_ hfit hoff.2 (by bv_omega) hlo hold.len_pos (hroom.trans hbound)
    · change vsp.vsStart ≤ if x.minaddr < vsp.vsStart then vsp.vsStart else x.minaddr
      split <;> bv_omega
    · change (if x.minaddr < vsp.vsStart then vsp.vsStart else x.minaddr) ≤
        if vsp.vsEnd-1 < x.maxaddr-1 then vsp.vsEnd-1 else x.maxaddr-1
      have hse : vsp.vsStart ≤ vsp.vsEnd-1 := by
        have := hold.len_pos
        simp only [Seg.lo, Seg.len, Seg.vsSize] at this hroom hlo
        bv_omega
      split <;> split <;> bv_omega
    · split <;> bv_omega
  refine ⟨hbounds.1, ?_, by bv_omega, hbounds.2⟩
  unfold xallocFit
  dsimp only
  generalize (if x.minaddr < vsp.vsStart then vsp.vsStart else x.minaddr) = start
  split
  · exact dvd_toNat_add hq (dvd_p2phaseup hq _ hdalign hdphase) (dvd_p2roundup hq _ hdalign)
  · exact dvd_p2phaseup hq _ hdalign hdphase

end Libumem.Vmem
