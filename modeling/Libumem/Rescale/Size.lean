import Libumem.Arith.P2

/-!
# The size of a hash table

`vmem_hash_rescale` and `umem_hash_rescale` compute the size of a table in the same way and rebuild
it only when it is off by more than a factor of two. For a table of `n` entries the computed size
is the largest power of two that is at most `(3 * n + 4) / 2`, but never less than the initial size.
-/

namespace Libumem.Rescale
open BitVec Arith

/-- `MAX (initial, 1 << (highbit (3 * n + 4) - 2))`, which is an `int`. -/
def hashSize (initial : BitVec 32) (n : Word) : Word :=
  let want := (1 : BitVec 32) <<< (highbit (3 * n + 4) - 2)
  (if want.slt initial then initial else want).signExtend 64

/-- Whether the table is left as it is. -/
def NearEnough (oldSize newSize : Word) : Prop :=
  oldSize >>> 1 ≤ newSize ∧ newSize ≤ oldSize <<< 1

instance (oldSize newSize : Word) : Decidable (NearEnough oldSize newSize) :=
  inferInstanceAs (Decidable (_ ∧ _))

/-- A table size: a power of two from the initial size `2 ^ j` on, as far as an `int` goes. -/
def TableSize (j : Nat) (size : Word) : Prop := ∃ i, j ≤ i ∧ i ≤ 30 ∧ size.toNat = 2 ^ i

variable {j : Nat} {initial : BitVec 32} {n size : Word}

theorem toNat_signExtend_of_two_pow {x : BitVec 32} {i : Nat} (hi : i≤30)
    (hx : x.toNat = 2^i) : (x.signExtend 64).toNat = 2^i ∧ x.toInt = 2^i := by
  have hlt : 2^i ≤ 2^30 := Nat.pow_le_pow_right (by decide) hi
  have hmsb : x.msb = false := by
    rw [msb_eq_false_iff_two_mul_lt, hx]
    omega
  constructor
  · rw [signExtend_eq_setWidth_of_msb_false hmsb, toNat_setWidth, hx]
    exact Nat.mod_eq_of_lt (by omega)
  · rw [toInt_eq_toNat_of_msb hmsb, hx]
    norm_cast

theorem exists_want (hn : n.toNat < 2^30) : ∃ k ≤ 30, 2^(k+1) ≤ 3 * n.toNat+4 ∧
    3 * n.toNat+4 < 2^(k+2) ∧ highbit (3 * n+4)-2 = k := by
  have hsum : (3 * n+4 : Word).toNat = 3 * n.toNat+4 := by bv_omega
  have hne : (3 * n+4 : Word) ≠ 0 := by bv_omega
  have hle := Nat.log2_self_le (n := 3 * n.toNat+4) (by omega)
  have hlt := Nat.lt_log2_self (n := 3 * n.toNat+4)
  have hlow : 2 ≤ (3 * n.toNat+4).log2 := (Nat.le_log2 (by omega)).mpr (by omega)
  have hhigh : (3 * n.toNat+4).log2 < 32 := (Nat.log2_lt (by omega)).mpr (by omega)
  refine ⟨(3 * n.toNat+4).log2-1, by omega, ?_, ?_, ?_⟩
  · rwa [Nat.sub_add_cancel (by omega)]
  · rwa [show (3 * n.toNat+4).log2-1+2 = (3 * n.toNat+4).log2+1 by omega]
  · rw [highbit_eq hne, hsum]
    omega

theorem toNat_hashSize (hj : j≤30) (hinit : initial.toNat = 2^j) (hn : n.toNat < 2^30) :
    ∃ k ≤ 30, 2^(k+1) ≤ 3 * n.toNat+4 ∧ 3 * n.toNat+4 < 2^(k+2) ∧
      (hashSize initial n).toNat = 2^max j k := by
  obtain ⟨k, hk, hlo, hhi, hbit⟩ := exists_want hn
  refine ⟨k, hk, hlo, hhi, ?_⟩
  have hwant : ((1 : BitVec 32) <<< k).toNat = 2^k := by
    have : 2^k ≤ 2^30 := Nat.pow_le_pow_right (by decide) hk
    have hone : (1 : BitVec 32).toNat = 1 := rfl
    rw [toNat_shiftLeft, Nat.shiftLeft_eq, hone, one_mul]
    exact Nat.mod_eq_of_lt (by omega)
  obtain ⟨hnat, hint⟩ := toNat_signExtend_of_two_pow hk hwant
  obtain ⟨hnat', hint'⟩ := toNat_signExtend_of_two_pow hj hinit
  unfold hashSize
  rw [hbit]
  dsimp only
  have hslt : ((1 : BitVec 32) <<< k).slt initial = true ↔ k < j := by
    rw [slt_iff_toInt_lt, hint, hint']
    exact pow_lt_pow_iff_right₀ (by norm_num)
  by_cases hkj : k < j
  · rw [if_pos (hslt.mpr hkj), hnat', max_eq_left hkj.le]
  · rw [if_neg (fun h => hkj (hslt.mp h)), hnat, max_eq_right (not_lt.mp hkj)]

theorem tableSize_hashSize (hj : j≤30) (hinit : initial.toNat = 2^j) (hn : n.toNat < 2^30) :
    TableSize j (hashSize initial n) := by
  obtain ⟨k, hk, -, -, hsize⟩ := toNat_hashSize hj hinit hn
  exact ⟨max j k, le_max_left j k, max_le hj hk, hsize⟩

theorem hashSize_near (hj : 2 ≤ j ∧ j ≤ 30) (hinit : initial.toNat = 2^j)
    (hn : n.toNat < 2^30) : (hashSize initial n).toNat = 2^j ∨
      n.toNat ≤ 2 * (hashSize initial n).toNat ∧ (hashSize initial n).toNat ≤ 2 * n.toNat := by
  obtain ⟨k, hk, hlo, hhi, hsize⟩ := toNat_hashSize hj.2 hinit hn
  rw [hsize]
  rcases le_or_gt k j with hkj | hkj
  · exact .inl (by rw [max_eq_left hkj])
  · right
    have hbig : 2^3 ≤ 2^k := Nat.pow_le_pow_right (by decide) (by omega)
    rw [max_eq_right hkj.le]
    rw [pow_succ] at hlo hhi
    rw [pow_succ] at hhi
    omega

theorem nearEnough_iff {i m : Nat} {oldSize newSize : Word} (hi : i≤30)
    (hold : oldSize.toNat = 2^i) (hnew : newSize.toNat = 2^m) :
    NearEnough oldSize newSize ↔ i ≤ m+1 ∧ m ≤ i+1 := by
  have hlt : 2^i ≤ 2^30 := Nat.pow_le_pow_right (by decide) hi
  have hhalf : (oldSize >>> 1).toNat = 2^i/2 := by
    rw [toNat_ushiftRight, hold, Nat.shiftRight_one]
  have hdouble : (oldSize <<< 1).toNat = 2^(i+1) := by
    rw [toNat_shiftLeft, hold, Nat.shiftLeft_eq, pow_one, pow_succ]
    exact Nat.mod_eq_of_lt (by omega)
  unfold NearEnough
  rw [le_def, le_def, hhalf, hdouble, hnew]
  refine and_congr ?_ (Nat.pow_le_pow_iff_right (by decide))
  cases i with
  | zero =>
    have := Nat.one_le_two_pow (n := m)
    simp only [pow_zero]
    omega
  | succ i =>
    rw [pow_succ, Nat.mul_div_cancel _ (by decide), Nat.pow_le_pow_iff_right (by decide)]
    omega

theorem within_four_of_nearEnough (hj : 2 ≤ j ∧ j ≤ 30) (hinit : initial.toNat = 2^j)
    (hn : n.toNat < 2^30) (hsize : TableSize j size)
    (hnear : NearEnough size (hashSize initial n)) :
    max (2^j) n.toNat ≤ 4 * size.toNat ∧ size.toNat ≤ 4 * max (2^j) n.toNat := by
  obtain ⟨k, hk, hlo, hhi, hnew⟩ := toNat_hashSize hj.2 hinit hn
  obtain ⟨i, hji, hi, hpow⟩ := hsize
  obtain ⟨hik, hki⟩ := (nearEnough_iff hi hpow hnew).mp hnear
  have hjpow : 2^j ≤ 2^i := Nat.pow_le_pow_right (by decide) hji
  have hkpow : 2^k ≤ 2^(i+1) := Nat.pow_le_pow_right (by decide) (by omega)
  have hipow : 2^i ≤ 2^(max j k+1) := Nat.pow_le_pow_right (by decide) hik
  have hjbig : 2^2 ≤ 2^j := Nat.pow_le_pow_right (by decide) hj.1
  rw [hpow]
  rw [pow_succ] at hkpow hipow hlo hhi
  rw [pow_succ] at hhi
  constructor
  · rw [max_le_iff]
    omega
  · rcases le_total k j with hkj | hkj
    · rw [max_eq_left hkj] at hipow
      have := le_max_left (2^j) n.toNat
      omega
    · rw [max_eq_right hkj] at hipow
      have hleft := le_max_left (2^j) n.toNat
      have hright := le_max_right (2^j) n.toNat
      omega

theorem nearEnough_self (hsize : TableSize j size) : NearEnough size size := by
  obtain ⟨i, -, hi, hpow⟩ := hsize
  exact (nearEnough_iff hi hpow hpow).mpr ⟨by omega, by omega⟩

end Libumem.Rescale
