import Libumem.Vmem.Xalloc

/-!
# Imported spans

`vmem_xalloc` asks its source for `P2ROUNDUP(size + phase, MAX(align, source quantum))` bytes and
places the allocation at the first address of the span with the right phase. The source aligns the
span to its own quantum only, so how far that address lies behind the start of the span depends on
`align` and on where the span happens to lie.
-/

namespace Libumem.Vmem
open Arith Lib Pow2

/-- The distance from the start of an imported span to the allocation. -/
def importOffset (align phase vaddr : Word) : Word := (phase - vaddr) &&& (align - 1)

theorem p2phaseup_eq_importOffset (align phase vaddr : Word) :
    p2phaseup vaddr align phase = vaddr+importOffset align phase vaddr :=
  p2phaseup_eq_add vaddr align phase

section
variable {align phase vaddr sq : Word}

theorem importOffset_le (hsq : IsPow2 sq) (hv : sq.toNat ∣ vaddr.toNat) (hle : align ≤ sq)
    (hphase : phase < align) : (importOffset align phase vaddr).toNat ≤ phase.toNat := by
  obtain ⟨k, hk, hpow⟩ := id hsq
  have hm : (align-1).toNat < 2^k := by
    rw [← hpow]
    bv_omega
  have hlow : (phase-vaddr).toNat % 2^k = phase.toNat := by
    rw [← hpow, toNat_sub_mod hsq phase hv, Nat.mod_eq_of_lt]
    exact Nat.lt_of_lt_of_le hphase hle
  have hmask : (align-1).toNat = (2^k-1) &&& (align-1).toNat := by
    rw [Nat.and_comm, Nat.and_two_pow_sub_one_eq_mod, Nat.mod_eq_of_lt hm]
  rw [importOffset, BitVec.toNat_and, hmask, ← Nat.and_assoc, Nat.and_two_pow_sub_one_eq_mod, hlow]
  exact Nat.and_le_left

end

theorem add_phase_le_asize {size align : Word} (phase : Word) (halign : IsPow2 align)
    (hphase : phase < align) (hsize : size ≠ 0) (hover : ¬ p2roundup (size+phase) align < size) :
    size.toNat+phase.toNat ≤ (p2roundup (size+phase) align).toNat := by
  have hround := toNat_p2roundup (size+phase) halign
  have hle : roundUp (size+phase).toNat align.toNat ≤ 2^64 :=
    roundUp_le_of_dvd halign.pos halign.dvd_two_pow (size+phase).isLt.le
  have hge := le_roundUp (n := (size+phase).toNat) halign.pos
  have hlt := roundUp_lt (n := (size+phase).toNat) halign.pos
  have hhalf : align.toNat ≤ 2^63 := by
    obtain ⟨k, hk, hpow⟩ := halign
    rw [hpow]
    exact Nat.pow_le_pow_right (by decide) (by omega)
  have hp : phase.toNat < align.toNat := hphase
  have hs : 0 < size.toNat := by bv_omega
  have hno : size.toNat ≤ (p2roundup (size+phase) align).toNat := Nat.le_of_not_lt hover
  by_cases hwrap : size.toNat+phase.toNat < 2^64
  · rw [BitVec.toNat_add, Nat.mod_eq_of_lt hwrap] at *
    rcases hle.lt_or_eq with hlt' | heq
    · rw [Nat.mod_eq_of_lt hlt'] at hround
      omega
    · rw [heq, Nat.mod_self] at hround
      omega
  · -- the sum itself wraps around, and what is left is far smaller than `size`
    have hsum : (size+phase).toNat = size.toNat+phase.toNat-2^64 := by
      have h1 := size.isLt
      have h2 := phase.isLt
      rw [BitVec.toNat_add, ← Nat.mod_add_div (size.toNat+phase.toNat) (2^64)]
      omega
    have hmod := Nat.mod_le (roundUp (size+phase).toNat align.toNat) (2^64)
    rw [← hround] at hmod
    omega

end Libumem.Vmem
