import Libumem.Arith.P2
import Libumem.Lib.Place

/-!
# Phases and boundaries of words

The macros `P2PHASEUP`, `P2NPHASE` and `P2BOUNDARY` of `sol_compat.h` in whole numbers.
-/

namespace Libumem.Arith
open Lib.Pow2 Lib.Place
variable {align phase nocross : Word}

theorem toNat_sub_mod_eq_lead (h : IsPow2 align) (phase start : Word) :
    (phase-start).toNat % align.toNat = lead align.toNat phase.toNat start.toNat := by
  obtain ⟨c, hc⟩ := h.dvd_two_pow
  have hlt := start.isLt
  have hsplit := Nat.div_add_mod start.toNat align.toNat
  have hmod := Nat.mod_lt start.toNat h.pos
  have hj : start.toNat/align.toNat < c := by
    rw [Nat.div_lt_iff_lt_mul h.pos, Nat.mul_comm, ← hc]
    exact hlt
  obtain ⟨d, rfl⟩ : ∃ d, c = start.toNat/align.toNat+1+d := Nat.exists_eq_add_of_le hj
  have hsum : 2^64-start.toNat+phase.toNat =
      align.toNat * d+(phase.toNat+(align.toNat-start.toNat % align.toNat)) := by
    rw [hc, Nat.mul_add, Nat.mul_add]
    omega
  rw [BitVec.toNat_sub, Nat.mod_mod_of_dvd _ h.dvd_two_pow, hsum, Nat.mul_add_mod, lead]

theorem toNat_p2nphase (x : Word) (h : IsPow2 align) :
    (p2nphase x align).toNat = lead align.toNat 0 x.toNat := by
  have hphase := toNat_p2phase (-x) h
  rw [p2phase] at hphase
  have hneg : -x = 0-x := by simp
  rw [p2nphase, hphase, hneg, toNat_sub_mod_eq_lead h 0 x]
  rfl

theorem p2boundary_iff (h : IsPow2 nocross) (off len : Word) :
    p2boundary off len nocross = true ↔
      off.toNat/nocross.toNat ≠ (off+len-1).toNat/nocross.toNat := by
  obtain ⟨k, hk, hpow⟩ := id h
  have hpred := toNat_sub_one hk hpow
  have hpos := Nat.two_pow_pos k
  rw [p2boundary, decide_eq_true_iff, BitVec.lt_def, hpred, BitVec.toNat_xor, hpow,
    ← not_iff_not, not_not, ← xor_lt_two_pow_iff]
  omega

theorem p2boundary_iff_straddles (h : IsPow2 nocross) {off len : Word} (hlen : 0 < len.toNat)
    (hend : off.toNat+len.toNat ≤ 2^64) :
    p2boundary off len nocross = true ↔ Straddles nocross.toNat off.toNat len.toNat := by
  have hlast : (off+len-1).toNat = off.toNat+len.toNat-1 := by
    have := off.isLt
    bv_omega
  rw [p2boundary_iff h, hlast, straddles_iff h.pos]
  have hmod := Nat.mod_lt off.toNat h.pos
  have hsplit := Nat.div_add_mod off.toNat nocross.toNat
  generalize off.toNat/nocross.toNat = j at *
  constructor
  · intro hne
    by_contra hle
    refine hne (Nat.div_eq_of_lt_le ?_ ?_).symm
    · rw [Nat.mul_comm]
      omega
    · rw [Nat.add_mul, Nat.one_mul, Nat.mul_comm]
      omega
  · intro hover heq
    have hlt := Nat.lt_mul_div_succ (off.toNat+len.toNat-1) h.pos
    rw [← heq, Nat.mul_add, Nat.mul_one] at hlt
    omega

theorem toNat_p2roundup_p2nphase (ha : IsPow2 align) (hn : IsPow2 nocross)
    (hdvd : align.toNat ∣ nocross.toNat) {x : Word} (hne : x.toNat % nocross.toNat ≠ 0) :
    (p2roundup (p2nphase x nocross) align).toNat =
      nocross.toNat-x.toNat % nocross.toNat+x.toNat % align.toNat := by
  have hmod := Nat.mod_lt x.toNat hn.pos
  have hx := Nat.mod_lt x.toNat ha.pos
  have hdist : (p2nphase x nocross).toNat = nocross.toNat-x.toNat % nocross.toNat := by
    rw [toNat_p2nphase x hn, lead, Nat.zero_add, Nat.mod_eq_of_lt (by omega)]
  have hphase := phase_le_mod hdvd (rfl : x.toNat % align.toNat = x.toNat % align.toNat)
  have hmul : align.toNat ∣ x.toNat % nocross.toNat-x.toNat % align.toNat := by
    rw [← Nat.mod_mod_of_dvd x.toNat hdvd]
    exact Nat.dvd_sub_mod _
  have hround : roundUp (nocross.toNat-x.toNat % nocross.toNat) align.toNat =
      nocross.toNat-x.toNat % nocross.toNat+x.toNat % align.toNat := by
    refine roundUp_eq ha.pos ?_ (Nat.le_add_right _ _) (by omega)
    have hsub := Nat.dvd_sub hdvd hmul
    have heq : nocross.toNat-(x.toNat % nocross.toNat-x.toNat % align.toNat) =
        nocross.toNat-x.toNat % nocross.toNat+x.toNat % align.toNat := by omega
    rwa [heq] at hsub
  have hlt : nocross.toNat-x.toNat % nocross.toNat+x.toNat % align.toNat < 2^64 := by
    have := hn.le_half
    omega
  rw [toNat_p2roundup_of_lt ha, hdist, hround]
  rw [hdist, hround]
  exact hlt

end Libumem.Arith
