import Libumem.Arith.Boundary
import Libumem.Vmem.Xalloc

/-!
# What `vmem_xalloc` finds in one free segment

The address that the fit test of `vmem_xalloc` looks at is the first one of the range that meets
the alignment, the phase and the boundary, as soon as one exists in the range. The test itself
compares sums of words: it is right for a segment that can hold the request, and wrong where the
sum wraps around or the bounds are crossed.
-/

namespace Libumem.Vmem
open Arith Lib Pow2 Place
namespace XallocArgs

/-- The alignment of a request in an arena with quantum `q`. -/
def alignFor (q : Word) (x : XallocArgs) : Word := if x.align = 0 then q else x.align

/-- The end of the addresses that may be used; a `maxaddr` of null is the top of the address
space. -/
def top (x : XallocArgs) : Nat := if x.maxaddr = 0 then 2 ^ 64 else x.maxaddr.toNat

/-- The address that the fit test looks at in a range that begins at `start`. -/
def taddr (q : Word) (x : XallocArgs) (start : Word) : Word :=
  let taddr := p2phaseup start (x.alignFor q) x.phase
  if p2boundary taddr x.size x.nocross then
    taddr + p2roundup (p2nphase taddr x.nocross) (x.alignFor q)
  else taddr

/-- How far this address lies behind `start`. -/
def offset (q : Word) (x : XallocArgs) (start : Word) : Word := x.taddr q start - start

/-- "Allocate size bytes at offset phase from an align boundary such that the resulting segment is
a subset of [minaddr, maxaddr) that does not straddle a nocross-aligned boundary." -/
structure Meets (q : Word) (x : XallocArgs) (addr : Word) : Prop where
  good : Good (x.alignFor q).toNat x.phase.toNat x.nocross.toNat x.size.toNat addr.toNat
  lower : x.minaddr.toNat ≤ addr.toNat
  upper : addr.toNat + x.size.toNat ≤ x.top

/-- A request that passes the argument checks of `vmem_xalloc`, with powers of two for the
alignment and the boundary. -/
structure Checked (q : Word) (x : XallocArgs) : Prop where
  quantum : IsPow2 q
  passes : ∀ vmp : Arena, vmp.vmQuantum = q → xallocPanics vmp x = false
  align : x.align = 0 ∨ IsPow2 x.align
  nocross : x.nocross = 0 ∨ IsPow2 x.nocross

end XallocArgs

namespace XallocArgs

/-- Where the search begins to look in a free segment that begins at `base`. -/
def startIn (x : XallocArgs) (base : Word) : Word := if x.minaddr < base then base else x.minaddr

/-- A free segment that begins at `base` can be met by the search: it begins on the quantum and
below `maxaddr`, and can be of the size class of the request. -/
structure Searched (q : Word) (x : XallocArgs) (base : Word) : Prop where
  ne_zero : base ≠ 0
  aligned : q.toNat ∣ base.toNat
  below : base ≤ x.maxaddr - 1
  size_ne : x.size ≠ 0
  room : base.toNat + 2 ^ x.size.toNat.log2 ≤ 2 ^ 64

/-- Wherever a free segment begins, `(taddr - start) + size > end - start` fails only for what
ends below `maxaddr`, in whole numbers. -/
def Exact (q : Word) (x : XallocArgs) : Prop :=
  ∀ base, x.Searched q base →
    x.offset q (x.startIn base) + x.size ≤ x.maxaddr - x.startIn base →
    (x.startIn base).toNat + (x.offset q (x.startIn base)).toNat + x.size.toNat ≤ x.top

end XallocArgs

/-- `[addr, addr + size)`, rounded up to the quantum, lies in the segment. -/
def Seg.Within (q : Word) (vsp : Seg) (addr size : Word) : Prop :=
  vsp.lo ≤ addr.toNat ∧ addr.toNat + roundUp size.toNat q.toNat ≤ vsp.hi

/-- The segment has a place for the request. -/
def Seg.CanHold (q : Word) (vsp : Seg) (x : XallocArgs) : Prop :=
  ∃ addr, x.Meets q addr ∧ vsp.Within q addr x.size

/-- The range of a free segment: whole quanta, not at address zero. -/
structure Seg.FreeRange (q : Word) (vsp : Seg) : Prop where
  pos : 0 < vsp.lo
  aligned : q.toNat ∣ vsp.lo
  len_pos : 0 < vsp.len
  len_aligned : q.toNat ∣ vsp.len
  bound : vsp.hi ≤ 2 ^ 64

theorem Layout.freeRange {vmp : Arena} (h : Layout vmp) {v : SegId} (hv : v ∈ vmp.aList)
    (ht : (vmp.segs v).vsType = .free) : (vmp.segs v).FreeRange vmp.vmQuantum := by
  obtain ⟨pre, post, ha⟩ := List.append_of_mem hv
  obtain ⟨s, t, -, hs, -⟩ := h.scan_at ha
  obtain ⟨hold, hlen, -, -⟩ := (Scan.step_free ht).mp hs
  have hstart := hold.start
  refine ⟨hstart ▸ hold.pos, hstart ▸ hold.aligned, hold.len_pos, hlen, ?_⟩
  rw [Seg.hi, hstart]
  exact hold.room.trans hold.bound

namespace XallocArgs.Checked
variable {q : Word} {x : XallocArgs} {start : Word}

theorem isPow2_alignFor (h : x.Checked q) : IsPow2 (x.alignFor q) := by
  rw [alignFor]
  split
  · exact h.quantum
  · rename_i hne
    exact h.align.resolve_left hne

theorem not_panics (h : x.Checked q) : xallocPanics (vmemCreate q none false false 0) x = false :=
  h.passes _ rfl

theorem phase_lt (h : x.Checked q) : x.phase.toNat < (x.alignFor q).toNat := by
  have hpan := h.not_panics
  simp only [xallocPanics, Bool.or_eq_false_iff, Bool.and_eq_false_iff,
    decide_eq_false_iff_not] at hpan
  have hpos := h.isPow2_alignFor.pos
  rcases hpan.1.1 with hz | hlt
  · have : x.phase.toNat = 0 := by bv_omega
    omega
  · have hne : x.align ≠ 0 := by
      rintro hz
      rw [hz] at hlt
      bv_omega
    rw [alignFor, if_neg hne]
    exact Nat.lt_of_not_le hlt

theorem dvd (h : x.Checked q) : q.toNat ∣ (x.alignFor q).toNat ∧ q.toNat ∣ x.phase.toNat := by
  have hd := @dvd_of_not_panics (vmemCreate q none false false 0) x h.quantum h.not_panics
  exact ⟨hd.1, hd.2.1⟩

theorem nocross_spec (h : x.Checked q) (hne : x.nocross ≠ 0) :
    IsPow2 x.nocross ∧ (x.alignFor q).toNat ∣ x.nocross.toNat ∧
      (x.phase.toNat+x.size.toNat ≤ x.nocross.toNat ∨
        2^64 < x.phase.toNat+x.size.toNat+(x.alignFor q).toNat) := by
  have hn := h.nocross.resolve_left hne
  have ha := h.isPow2_alignFor
  have hpan := h.not_panics
  simp only [xallocPanics, Bool.or_eq_false_iff, Bool.and_eq_false_iff, bne_eq_false_iff_eq, hne,
    false_or, decide_eq_false_iff_not] at hpan
  obtain ⟨hle, hround⟩ := hpan.2
  have hle : (x.alignFor q).toNat ≤ x.nocross.toNat := Nat.le_of_not_lt hle
  have hround : (p2roundup (x.phase+x.size) (x.alignFor q)).toNat ≤ x.nocross.toNat :=
    Nat.le_of_not_lt hround
  refine ⟨hn, ha.dvd_of_le hn hle, ?_⟩
  have hge := le_roundUp (n := x.phase.toNat+x.size.toNat) ha.pos
  have hlt := roundUp_lt (n := x.phase.toNat+x.size.toNat) ha.pos
  by_cases hwrap : roundUp (x.phase.toNat+x.size.toNat) (x.alignFor q).toNat < 2^64
  · left
    have hsum : (x.phase+x.size).toNat = x.phase.toNat+x.size.toNat := by
      rw [BitVec.toNat_add, Nat.mod_eq_of_lt (by omega)]
    rw [toNat_p2roundup_of_lt ha (by rwa [hsum]), hsum] at hround
    omega
  · right
    omega

end XallocArgs.Checked

variable {q start addr : Word} {x : XallocArgs} {vmp : Arena} {vsp : Seg}

theorem toNat_phase_and (h : x.Checked q) (start : Word) :
    ((x.phase-start) &&& (x.alignFor q-1)).toNat =
      lead (x.alignFor q).toNat x.phase.toNat start.toNat := by
  rw [← toNat_sub_mod_eq_lead h.isPow2_alignFor]
  exact toNat_p2phase _ h.isPow2_alignFor

theorem toNat_offset_of_not_boundary (h : x.Checked q)
    (hb : p2boundary (p2phaseup start (x.alignFor q) x.phase) x.size x.nocross = false) :
    (x.offset q start).toNat = lead (x.alignFor q).toNat x.phase.toNat start.toNat := by
  have htaddr : x.taddr q start = start+((x.phase-start) &&& (x.alignFor q-1)) := by
    simp only [XallocArgs.taddr, hb, Bool.false_eq_true, if_false]
    exact p2phaseup_eq_add start _ _
  rw [XallocArgs.offset, htaddr, add_sub_cancel_left, toNat_phase_and h]

/-- With a boundary in the way, it goes to the phase behind the boundary. -/
theorem add_offset_of_boundary (h : x.Checked q) (hne : x.nocross ≠ 0)
    (hb : p2boundary (p2phaseup start (x.alignFor q) x.phase) x.size x.nocross = true) :
    let first := start.toNat+lead (x.alignFor q).toNat x.phase.toNat start.toNat
    start.toNat+(x.offset q start).toNat =
      if first % x.nocross.toNat = 0 then first
      else nextBlock x.nocross.toNat x.phase.toNat first := by
  intro first
  obtain ⟨hn, hdvd, -⟩ := h.nocross_spec hne
  have ha := h.isPow2_alignFor
  have hphaseup := p2phaseup_eq_add start (x.alignFor q) x.phase
  have hlead := toNat_phase_and h start
  have hfirst : (p2phaseup start (x.alignFor q) x.phase).toNat = first % 2^64 := by
    rw [hphaseup, BitVec.toNat_add, hlead]
  have hblock : first % 2^64 % x.nocross.toNat = first % x.nocross.toNat :=
    Nat.mod_mod_of_dvd _ hn.dvd_two_pow
  have hmod : first % 2^64 % (x.alignFor q).toNat = x.phase.toNat := by
    rw [Nat.mod_mod_of_dvd _ ha.dvd_two_pow]
    exact add_lead_mod h.phase_lt start.toNat
  have hoff : x.offset q start = ((x.phase-start) &&& (x.alignFor q-1)) +
      p2roundup (p2nphase (p2phaseup start (x.alignFor q) x.phase) x.nocross) (x.alignFor q) := by
    simp only [XallocArgs.offset, XallocArgs.taddr, hb, if_true]
    rw [hphaseup]
    ring
  have hlt := lead_lt ha.pos x.phase.toNat start.toNat
  have halign := ha.le_half
  rw [hoff, BitVec.toNat_add, hlead]
  split
  · rename_i hzero
    have hnphase : p2nphase (p2phaseup start (x.alignFor q) x.phase) x.nocross = 0 := by
      apply BitVec.eq_of_toNat_eq
      rw [toNat_p2nphase _ hn, hfirst, lead, hblock, hzero, Nat.sub_zero, Nat.zero_add,
        Nat.mod_self]
      rfl
    have hbump : (p2roundup 0 (x.alignFor q)).toNat = 0 := by simp [p2roundup]
    rw [hnphase, hbump, Nat.add_zero, Nat.mod_eq_of_lt (by omega)]
  · rename_i hnz
    have hbump := toNat_p2roundup_p2nphase ha hn hdvd (x := p2phaseup start (x.alignFor q) x.phase)
      (by rwa [hfirst, hblock])
    rw [hfirst, hmod, hblock] at hbump
    have hphase : x.phase.toNat ≤ first % x.nocross.toNat := phase_le_mod hdvd (by
      rw [← Nat.mod_mod_of_dvd first ha.dvd_two_pow, hmod])
    have hmodlt := Nat.mod_lt first hn.pos
    have hsplit := Nat.div_add_mod first x.nocross.toNat
    have hhalf := hn.le_half
    rw [hbump, Nat.mod_eq_of_lt (by omega), nextBlock, Nat.add_mul, Nat.one_mul, Nat.mul_comm]
    omega

theorem nocross_ne_zero_of_boundary {off len : Word}
    (hb : p2boundary off len x.nocross = true) : x.nocross ≠ 0 := by
  intro hz
  rw [hz, p2boundary_zero] at hb
  exact absurd hb (by simp)

theorem toNat_p2phaseup_of_fits (h : x.Checked q) (hsize : 0 < x.size.toNat) (start : Word)
    (hend : start.toNat+lead (x.alignFor q).toNat x.phase.toNat start.toNat+x.size.toNat ≤ 2^64) :
    (p2phaseup start (x.alignFor q) x.phase).toNat =
      start.toNat+lead (x.alignFor q).toNat x.phase.toNat start.toNat := by
  rw [p2phaseup_eq_add, BitVec.toNat_add, toNat_phase_and h, Nat.mod_eq_of_lt (by omega)]

theorem good_add_offset (h : x.Checked q) (hsize : 0 < x.size.toNat) (start : Word)
    (hstart : 0 < start.toNat) (hend : start.toNat+(x.offset q start).toNat+x.size.toNat ≤ 2^64) :
    Good (x.alignFor q).toNat x.phase.toNat x.nocross.toNat x.size.toNat
      (start.toNat+(x.offset q start).toNat) := by
  have hmod := add_lead_mod h.phase_lt start.toNat
  cases hb : p2boundary (p2phaseup start (x.alignFor q) x.phase) x.size x.nocross with
  | false =>
    rw [toNat_offset_of_not_boundary h hb] at hend ⊢
    refine ⟨hmod, ?_⟩
    by_cases hne : x.nocross = 0
    · rw [hne]
      exact not_straddles_zero
    · have hfirst := toNat_p2phaseup_of_fits h hsize start hend
      rw [← hfirst] at hend ⊢
      rw [← p2boundary_iff_straddles (h.nocross_spec hne).1 hsize hend, hb]
      simp
  | true =>
    have hne := nocross_ne_zero_of_boundary hb
    obtain ⟨hn, hdvd, hroom⟩ := h.nocross_spec hne
    have hadd := add_offset_of_boundary h hne hb
    dsimp only at hadd
    have hle := Nat.le_of_dvd hn.pos hdvd
    -- the address lies behind the first boundary, where a wrapped check leaves no room
    have hroom : x.phase.toNat+x.size.toNat ≤ x.nocross.toNat := by
      refine hroom.resolve_right fun hwrap => ?_
      have hge : x.nocross.toNat+x.phase.toNat ≤ start.toNat+(x.offset q start).toNat := by
        rw [hadd]
        split
        · rename_i hzero
          have hphase := phase_le_mod hdvd hmod
          have := Nat.le_of_dvd (by omega) (Nat.dvd_of_mod_eq_zero hzero)
          omega
        · rw [nextBlock, Nat.add_mul, Nat.one_mul]
          omega
      omega
    rw [hadd] at hend ⊢
    split
    · rename_i hzero
      rw [if_pos hzero] at hend
      have hphase := phase_le_mod hdvd hmod
      refine ⟨hmod, (straddles_iff hn.pos).not.mpr ?_⟩
      omega
    · exact good_nextBlock hn.pos hdvd h.phase_lt hroom

theorem add_offset_le (h : x.Checked q) (hsize : 0 < x.size.toNat) (start : Word)
    (hle : start.toNat ≤ addr.toNat)
    (hgood : Good (x.alignFor q).toNat x.phase.toNat x.nocross.toNat x.size.toNat addr.toNat)
    (hend : addr.toNat+x.size.toNat ≤ 2^64) :
    start.toNat+(x.offset q start).toNat ≤ addr.toNat := by
  have hmod := add_lead_mod h.phase_lt start.toNat
  have hfirst := add_lead_le h.phase_lt hle hgood.phase
  cases hb : p2boundary (p2phaseup start (x.alignFor q) x.phase) x.size x.nocross with
  | false =>
    rw [toNat_offset_of_not_boundary h hb]
    exact hfirst
  | true =>
    have hne := nocross_ne_zero_of_boundary hb
    obtain ⟨hn, hdvd, -⟩ := h.nocross_spec hne
    have hword := toNat_p2phaseup_of_fits h hsize start (by omega)
    have hstraddles := (p2boundary_iff_straddles hn hsize (by omega)).mp hb
    rw [hword] at hstraddles
    rw [add_offset_of_boundary h hne hb]
    split
    · exact hfirst
    · exact nextBlock_le hn.pos hdvd hstraddles hfirst hgood

theorem toNat_maxaddr_sub_one (x : XallocArgs) : (x.maxaddr-1).toNat+1 = x.top := by
  rw [XallocArgs.top]
  split <;> bv_omega

theorem XallocArgs.top_le (x : XallocArgs) : x.top ≤ 2^64 := by
  rw [← toNat_maxaddr_sub_one]
  exact (x.maxaddr-1).isLt

theorem toNat_startIn (x : XallocArgs) (vsp : Seg) :
    (x.startIn vsp.vsStart).toNat = max vsp.lo x.minaddr.toNat := by
  rw [XallocArgs.startIn, Seg.lo]
  split
  · rename_i hlt
    exact (max_eq_left (le_of_lt hlt)).symm
  · rename_i hge
    exact (max_eq_right (Nat.le_of_not_lt hge)).symm

theorem Seg.FreeRange.toNat_end (h : vsp.FreeRange q) : (vsp.vsEnd-1).toNat+1 = vsp.hi := by
  have hpos := h.pos
  have hlen := h.len_pos
  have hbound := h.bound
  simp only [Seg.hi, Seg.lo, Seg.len, Seg.vsSize] at *
  bv_omega

/-- The request fits in the segment at the address of the fit test, in whole numbers. -/
def XallocArgs.FitsIn (q : Word) (x : XallocArgs) (vsp : Seg) : Prop :=
  (x.startIn vsp.vsStart).toNat + (x.offset q (x.startIn vsp.vsStart)).toNat + x.size.toNat ≤
    min vsp.hi x.top

/-- The address of the fit test. -/
def XallocArgs.addrIn (q : Word) (x : XallocArgs) (vsp : Seg) : Word :=
  x.startIn vsp.vsStart + x.offset q (x.startIn vsp.vsStart)

theorem toNat_addrIn (hv : vsp.FreeRange q) (hsize : 0 < x.size.toNat) (hfits : x.FitsIn q vsp) :
    (x.addrIn q vsp).toNat =
      (x.startIn vsp.vsStart).toNat+(x.offset q (x.startIn vsp.vsStart)).toNat := by
  have hbound := hv.bound
  rw [XallocArgs.FitsIn] at hfits
  rw [XallocArgs.addrIn, BitVec.toNat_add, Nat.mod_eq_of_lt (by omega)]

theorem meets_of_fitsIn (h : x.Checked q) (hv : vsp.FreeRange q) (hsize : 0 < x.size.toNat)
    (hfits : x.FitsIn q vsp) :
    x.Meets q (x.addrIn q vsp) ∧ vsp.Within q (x.addrIn q vsp) x.size := by
  have hstart := toNat_startIn x vsp
  have hbound := hv.bound
  have hpos := hv.pos
  have haddr := toNat_addrIn hv hsize hfits
  rw [XallocArgs.FitsIn] at hfits
  have hgood := good_add_offset h hsize (x.startIn vsp.vsStart) (by omega) (by omega)
  rw [← haddr] at hgood hfits
  have haligned := h.dvd
  have hq : q.toNat ∣ (x.addrIn q vsp).toNat := by
    rw [Nat.dvd_iff_mod_eq_zero, ← Nat.mod_mod_of_dvd _ haligned.1, hgood.phase]
    exact Nat.dvd_iff_mod_eq_zero.mp haligned.2
  refine ⟨⟨hgood, by omega, by omega⟩, by omega, ?_⟩
  have hround : roundUp x.size.toNat q.toNat ≤ vsp.hi-(x.addrIn q vsp).toNat :=
    roundUp_le_of_dvd h.quantum.pos (Nat.dvd_sub (Nat.dvd_add hv.aligned hv.len_aligned) hq)
      (by omega)
  omega

theorem canHold_iff (h : x.Checked q) (hv : vsp.FreeRange q) (hsize : 0 < x.size.toNat) :
    vsp.CanHold q x ↔ x.FitsIn q vsp := by
  constructor
  · rintro ⟨addr, hmeets, hlo, hhi⟩
    have hstart := toNat_startIn x vsp
    have hbound := hv.bound
    have hround := le_roundUp (n := x.size.toNat) h.quantum.pos
    have hlower := hmeets.lower
    have hupper := hmeets.upper
    have hle := add_offset_le h hsize (x.startIn vsp.vsStart) (by omega) hmeets.good
      (by omega)
    rw [XallocArgs.FitsIn]
    omega
  · intro hfits
    exact ⟨_, meets_of_fitsIn h hv hsize hfits⟩

/-- The last address that the fit test allows. -/
def XallocArgs.lastIn (x : XallocArgs) (vsp : Seg) : Word :=
  if vsp.vsEnd - 1 < x.maxaddr - 1 then vsp.vsEnd - 1 else x.maxaddr - 1

theorem toNat_lastIn (hv : vsp.FreeRange q) : (x.lastIn vsp).toNat+1 = min vsp.hi x.top := by
  have hend := hv.toNat_end
  have hmax := toNat_maxaddr_sub_one x
  rw [XallocArgs.lastIn]
  split
  · rename_i hlt
    have hlt : (vsp.vsEnd-1).toNat < (x.maxaddr-1).toNat := hlt
    omega
  · rename_i hge
    have hge : (x.maxaddr-1).toNat ≤ (vsp.vsEnd-1).toNat := Nat.le_of_not_lt hge
    omega

theorem xallocPlace_eq_some (hq : vmp.vmQuantum = q) :
    xallocPlace vmp x vsp = some addr ↔
      x.minaddr ≤ vsp.vsEnd-1 ∧ vsp.vsStart ≤ x.maxaddr-1 ∧
        x.offset q (x.startIn vsp.vsStart)+x.size ≤
          x.lastIn vsp+1-x.startIn vsp.vsStart ∧ addr = x.addrIn q vsp := by
  subst hq
  have htaddr : x.addrIn vmp.vmQuantum vsp = (xallocFit vmp x vsp).taddr := by
    rw [XallocArgs.addrIn, XallocArgs.offset, add_sub_cancel]
    rfl
  have hplace : xallocPlace vmp x vsp =
      if vsp.vsEnd-1 < x.minaddr then none
      else if x.maxaddr-1 < vsp.vsStart then none
      else if x.lastIn vsp+1-x.startIn vsp.vsStart <
          x.offset vmp.vmQuantum (x.startIn vsp.vsStart)+x.size then none
      else some (xallocFit vmp x vsp).taddr := rfl
  rw [hplace, htaddr, Option.ite_none_left_eq_some, Option.ite_none_left_eq_some,
    Option.ite_none_left_eq_some, BitVec.not_lt, BitVec.not_lt, BitVec.not_lt,
    Option.some.injEq, eq_comm (a := addr)]

theorem xallocPlace_of_fitsIn (hq : vmp.vmQuantum = q) (hv : vsp.FreeRange q)
    (hsize : 0 < x.size.toNat) (hfits : x.FitsIn q vsp) :
    xallocPlace vmp x vsp = some (x.addrIn q vsp) := by
  have hstart := toNat_startIn x vsp
  have hend := hv.toNat_end
  have hmax := toNat_maxaddr_sub_one x
  have hlast := toNat_lastIn (x := x) hv
  have hpos := hv.pos
  have hbound := hv.bound
  rw [XallocArgs.FitsIn] at hfits
  rw [xallocPlace_eq_some hq]
  refine ⟨BitVec.le_def.mpr (by omega), BitVec.le_def.mpr ?_, BitVec.le_def.mpr ?_, rfl⟩
  · rw [Seg.lo] at hstart
    omega
  · have hroom : (x.lastIn vsp+1-x.startIn vsp.vsStart).toNat =
        min vsp.hi x.top-(x.startIn vsp.vsStart).toNat := by
      generalize x.lastIn vsp = last at *
      generalize x.startIn vsp.vsStart = start at *
      rw [← hlast]
      bv_omega
    rw [hroom, BitVec.toNat_add, Nat.mod_eq_of_lt (by omega)]
    omega

theorem lastIn_sub_le (hv : vsp.FreeRange q) (hmin : x.minaddr ≤ vsp.vsEnd-1)
    (hmax : vsp.vsStart ≤ x.maxaddr-1) :
    x.lastIn vsp+1-x.startIn vsp.vsStart ≤ x.maxaddr-x.startIn vsp.vsStart := by
  have hstart := toNat_startIn x vsp
  have hlast := toNat_lastIn (x := x) hv
  have htop := toNat_maxaddr_sub_one x
  have hend := hv.toNat_end
  have hpos := hv.pos
  by_cases hcross : x.maxaddr-1 < x.minaddr
  · have heq : x.lastIn vsp = x.maxaddr-1 := by
      rw [XallocArgs.lastIn, if_neg]
      bv_omega
    rw [heq, sub_add_cancel]
    exact BitVec.le_refl _
  · have hle : x.minaddr.toNat ≤ (x.maxaddr-1).toNat := Nat.le_of_not_lt hcross
    have hmax : vsp.lo ≤ (x.maxaddr-1).toNat := hmax
    have hmin : x.minaddr.toNat ≤ (vsp.vsEnd-1).toNat := hmin
    have hlen := hv.len_pos
    have hhi : vsp.lo < vsp.hi := by
      rw [Seg.hi]
      omega
    have hmaxaddr : x.maxaddr = x.maxaddr-1+1 := by rw [sub_add_cancel]
    rw [hmaxaddr, BitVec.le_def]
    generalize x.lastIn vsp = last at *
    generalize x.startIn vsp.vsStart = start at *
    generalize x.maxaddr-1 = stop at *
    bv_omega

theorem fitsIn_of_xallocPlace (hq : vmp.vmQuantum = q) (hexact : x.Exact q)
    (hv : vsp.FreeRange q) (hsize : x.size ≠ 0) (hclass : 2^x.size.toNat.log2 ≤ vsp.len)
    (hplace : xallocPlace vmp x vsp = some addr) : x.FitsIn q vsp ∧ addr = x.addrIn q vsp := by
  obtain ⟨hmin, hmax, hfit, rfl⟩ := (xallocPlace_eq_some hq).mp hplace
  have hbound := hv.bound
  have hpos := hv.pos
  have hsearched : x.Searched q vsp.vsStart := by
    refine ⟨?_, hv.aligned, hmax, hsize, ?_⟩
    · rintro hz
      rw [Seg.lo, hz] at hpos
      simp at hpos
    · rw [Seg.hi, Seg.lo] at hbound
      omega
  have hend := hexact vsp.vsStart hsearched (BitVec.le_trans hfit (lastIn_sub_le hv hmin hmax))
  refine ⟨?_, rfl⟩
  have hstart := toNat_startIn x vsp
  have hlast := toNat_lastIn (x := x) hv
  have htop := x.top_le
  have hend' := hv.toNat_end
  have hs : 0 < x.size.toNat := by bv_omega
  have hmin : x.minaddr.toNat ≤ (vsp.vsEnd-1).toNat := hmin
  have hlen := hv.len_pos
  have hhi : vsp.lo < vsp.hi := by
    rw [Seg.hi]
    omega
  rw [BitVec.le_def, BitVec.toNat_add, Nat.mod_eq_of_lt (by omega)] at hfit
  have hroom : (x.lastIn vsp+1-x.startIn vsp.vsStart).toNat =
      min vsp.hi x.top-(x.startIn vsp.vsStart).toNat := by
    generalize x.lastIn vsp = last at *
    generalize x.startIn vsp.vsStart = start at *
    rw [← hlast]
    bv_omega
  rw [hroom] at hfit
  rw [XallocArgs.FitsIn]
  omega

end Libumem.Vmem
