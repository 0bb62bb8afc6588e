import Mathlib

/-!
# Addresses at an offset from a boundary

Where `size` bytes can be placed that have to begin `phase` bytes past a multiple of `align` and
must not straddle a multiple of `block`. A `block` of zero has no multiple to straddle. The first
such address from a given one on is found by rounding up to the phase once, and once more to the
next block if the range straddles its end.
-/

namespace Libumem.Lib.Place

/-- A multiple of `block` lies strictly inside `[addr, addr + size)`. -/
def Straddles (block addr size : Nat) : Prop := ∃ k, addr < k * block ∧ k * block < addr + size

/-- `size` bytes can be placed at `addr`. -/
structure Good (align phase block size addr : Nat) : Prop where
  phase : addr % align = phase
  whole : ¬ Straddles block addr size

/-- How far the first address with the right phase lies behind `start`. -/
def lead (align phase start : Nat) : Nat := (phase + (align - start % align)) % align

/-- The first address with the right phase in the block after the one of `addr`. -/
def nextBlock (block phase addr : Nat) : Nat := (addr / block + 1) * block + phase

variable {align phase block size start addr : Nat}

theorem not_straddles_zero : ¬ Straddles 0 addr size := by
  rintro ⟨k, hk, -⟩
  omega

theorem straddles_iff (hb : 0 < block) : Straddles block addr size ↔ block < addr % block+size := by
  have hsplit := Nat.div_add_mod addr block
  have hmod := Nat.mod_lt addr hb
  constructor
  · rintro ⟨k, hlo, hhi⟩
    have hk : addr/block+1 ≤ k := by
      rw [Nat.succ_le_iff, Nat.div_lt_iff_lt_mul hb]
      exact hlo
    have hle : (addr/block+1) * block ≤ k * block := Nat.mul_le_mul_right block hk
    rw [Nat.add_mul, Nat.one_mul, Nat.mul_comm] at hle
    omega
  · intro h
    refine ⟨addr/block+1, ?_, ?_⟩ <;> rw [Nat.add_mul, Nat.one_mul, Nat.mul_comm] <;> omega

theorem lead_lt (halign : 0 < align) (phase start : Nat) : lead align phase start < align :=
  Nat.mod_lt _ halign

theorem add_lead_mod (hphase : phase < align) (start : Nat) :
    (start+lead align phase start) % align = phase := by
  have hmod := Nat.mod_lt start (Nat.zero_lt_of_lt hphase)
  have hsum : start % align+(phase+(align-start % align)) = phase+align := by omega
  rw [lead, Nat.add_mod_mod, ← Nat.mod_add_mod, hsum, Nat.add_mod_right, Nat.mod_eq_of_lt hphase]

/-- No address with the right phase lies before the one that rounding up gives. -/
theorem add_lead_le (hphase : phase < align) (hle : start ≤ addr) (h : addr % align = phase) :
    start+lead align phase start ≤ addr := by
  have hlt := lead_lt (Nat.zero_lt_of_lt hphase) phase start
  have heq := (add_lead_mod hphase start).trans h.symm
  by_contra hgt
  have hdvd := (Nat.modEq_iff_dvd' (by omega)).mp (show addr ≡ start+lead align phase start
    [MOD align] from heq.symm)
  have := Nat.le_of_dvd (by omega) hdvd
  omega

theorem phase_le_mod (hdvd : align ∣ block) (h : addr % align = phase) : phase ≤ addr % block := by
  rw [← h, ← Nat.mod_mod_of_dvd addr hdvd]
  exact Nat.mod_le _ _

theorem nextBlock_mod (hphase : phase < block) : nextBlock block phase addr % block = phase := by
  rw [nextBlock, Nat.add_comm, Nat.add_mul_mod_self_right, Nat.mod_eq_of_lt hphase]

theorem good_nextBlock (hb : 0 < block) (hdvd : align ∣ block) (hphase : phase < align)
    (hroom : phase+size ≤ block) : Good align phase block size (nextBlock block phase addr) := by
  have hlt : phase < block := lt_of_lt_of_le hphase (Nat.le_of_dvd hb hdvd)
  constructor
  · rw [← Nat.mod_mod_of_dvd _ hdvd, nextBlock_mod hlt, Nat.mod_eq_of_lt hphase]
  · rw [straddles_iff hb, nextBlock_mod hlt]
    omega

/-- From an address that straddles the end of its block, no address in this block is better. -/
theorem nextBlock_le {bound : Nat} (hb : 0 < block) (hdvd : align ∣ block)
    (hbound : Straddles block bound size) (hle : bound ≤ addr)
    (h : Good align phase block size addr) : nextBlock block phase bound ≤ addr := by
  have hphase := phase_le_mod hdvd h.phase
  have hwhole := (straddles_iff hb).not.mp h.whole
  have hover := (straddles_iff hb).mp hbound
  have hsplit := Nat.div_add_mod addr block
  have hsplit' := Nat.div_add_mod bound block
  have hdiv : bound/block+1 ≤ addr/block := by
    have hmono : bound/block ≤ addr/block := Nat.div_le_div_right hle
    rcases hmono.lt_or_eq with hlt | heq
    · exact hlt
    · rw [heq] at hsplit'
      omega
  have hmul : (bound/block+1) * block ≤ addr/block * block := Nat.mul_le_mul_right block hdiv
  rw [Nat.mul_comm] at hsplit
  rw [nextBlock]
  omega

end Libumem.Lib.Place
