import Mathlib

/-!
# Power-of-two arithmetic on machine words

Masks, alignment and bit positions of fixed-width words, read as natural numbers.
-/

namespace Libumem.Lib.Pow2
open BitVec
section
variable {w : Nat} {a : BitVec w} {k : Nat}

theorem toNat_sub_one (hk : k < w) (ha : a.toNat = 2^k) : (a-1).toNat = 2^k-1 := by
  have one : (1 : BitVec w).toNat = 1 := by
    simp [Nat.mod_eq_of_lt (Nat.one_lt_two_pow (by omega : w ≠ 0))]
  have pos : 0 < 2^k := Nat.two_pow_pos k
  rw [toNat_sub_of_le, ha, one]
  rw [le_def, ha, one]
  exact pos

theorem toNat_and_sub_one (x : BitVec w) (hk : k < w) (ha : a.toNat = 2^k) :
    (x &&& (a-1)).toNat = x.toNat % 2^k := by
  rw [toNat_and, toNat_sub_one hk ha, Nat.and_two_pow_sub_one_eq_mod]

theorem neg_eq_not_sub_one (a : BitVec w) : -a = ~~~(a-1) := by
  rw [not_eq_neg_add]
  simp [sub_eq_add_neg]

/-- Clearing the bits above a mask, for any word `a` and not only for powers of two. -/
theorem sub_and_neg (x a : BitVec w) : x-(x &&& -a) = x &&& (a-1) := by
  rw [neg_eq_not_sub_one]
  generalize a-1 = m
  have split : (x &&& m)+(x &&& ~~~m) = x := by
    rw [add_eq_or_of_and_eq_zero]
    · ext i hi
      simp
      cases x[i] <;> cases m[i] <;> rfl
    · ext i hi
      simp
      cases x[i] <;> cases m[i] <;> simp
  rw [sub_eq_iff_eq_add]
  exact split.symm

theorem toNat_and_neg (x : BitVec w) (hk : k < w) (ha : a.toNat = 2^k) :
    (x &&& -a).toNat = x.toNat-x.toNat % 2^k := by
  have le : x &&& -a ≤ x := by
    rw [le_def, toNat_and]
    exact Nat.and_le_left
  have low := toNat_and_sub_one x hk ha
  rw [← sub_and_neg x a, toNat_sub_of_le le] at low
  rw [le_def] at le
  omega

theorem dvd_toNat_and_of_dvd (x : BitVec w) {m : BitVec w} (hm : 2^k ∣ m.toNat) :
    2^k ∣ (x &&& m).toNat := by
  obtain ⟨c, hc⟩ := hm
  rw [toNat_and, hc]
  rw [Nat.dvd_iff_mod_eq_zero, ← Nat.and_two_pow_sub_one_eq_mod]
  apply Nat.eq_of_testBit_eq
  intro i
  simp only [Nat.testBit_and, Nat.testBit_two_pow_mul, Nat.testBit_two_pow_sub_one,
    Nat.zero_testBit]
  by_cases h : i < k
  · simp [Nat.not_le.mpr h]
  · simp [h]

/-- Two words that agree in where their low part begins are masked part by part. -/
theorem mul_add_and_mul_add (m n : Nat) {c d : Nat} (hc : c < 2^k) (hd : d < 2^k) :
    (2^k * m+c) &&& (2^k * n+d) = 2^k * (m &&& n)+(c &&& d) := by
  have hcd : c &&& d < 2^k := Nat.and_lt_two_pow c hd
  apply Nat.eq_of_testBit_eq
  intro i
  rw [Nat.testBit_and, Nat.testBit_two_pow_mul_add m hc, Nat.testBit_two_pow_mul_add n hd,
    Nat.testBit_two_pow_mul_add (m &&& n) hcd]
  split
  · rw [Nat.testBit_and]
  · rw [Nat.testBit_and]

theorem xor_lt_two_pow_iff {a b : Nat} : a ^^^ b < 2^k ↔ a/2^k = b/2^k := by
  have hshift : (a ^^^ b)/2^k = a/2^k ^^^ b/2^k := by
    rw [← Nat.shiftRight_eq_div_pow, Nat.shiftRight_xor_distrib, Nat.shiftRight_eq_div_pow,
      Nat.shiftRight_eq_div_pow]
  rw [← Nat.div_eq_zero_iff_lt (Nat.two_pow_pos k), hshift, Nat.xor_eq_zero_iff]

end

section

/-- The least multiple of `q` that is at least `n`. -/
def roundUp (n q : Nat) : Nat := (n + q - 1) / q * q

variable {n m q : Nat}

theorem dvd_roundUp (n q : Nat) : q ∣ roundUp n q := Nat.dvd_mul_left q _

theorem le_roundUp (hq : 0 < q) : n ≤ roundUp n q := by
  have h := Nat.div_add_mod (n+q-1) q
  have hlt := Nat.mod_lt (n+q-1) hq
  unfold roundUp
  rw [Nat.mul_comm]
  omega

theorem roundUp_lt (hq : 0 < q) : roundUp n q < n+q := by
  have h := Nat.div_mul_le_self (n+q-1) q
  unfold roundUp
  omega

theorem roundUp_le_of_dvd (hq : 0 < q) (hd : q ∣ m) (h : n ≤ m) : roundUp n q ≤ m := by
  obtain ⟨c, rfl⟩ := hd
  have hlt := roundUp_lt (n := n) hq
  obtain ⟨d, hd⟩ := dvd_roundUp n q
  rw [hd] at hlt ⊢
  apply Nat.mul_le_mul_left
  by_contra hcd
  have : q * (c+1) ≤ q * d := Nat.mul_le_mul_left _ (by omega)
  rw [Nat.mul_add] at this
  omega

theorem roundUp_eq (hq : 0 < q) (hd : q ∣ m) (hle : n ≤ m) (hlt : m < n+q) : roundUp n q = m := by
  have le := roundUp_le_of_dvd hq hd hle
  have dvd := Nat.dvd_sub hd (dvd_roundUp n q)
  have ge := le_roundUp (n := n) hq
  have zero := Nat.eq_zero_of_dvd_of_lt dvd (by omega)
  omega

theorem roundUp_of_dvd (hq : 0 < q) (hd : q ∣ n) : roundUp n q = n :=
  Nat.le_antisymm (roundUp_le_of_dvd hq hd le_rfl) (le_roundUp hq)

theorem roundUp_pos (hq : 0 < q) (hn : 0 < n) : 0 < roundUp n q :=
  Nat.lt_of_lt_of_le hn (le_roundUp hq)

theorem roundUp_add_of_dvd (hq : 0 < q) (hd : q ∣ m) : roundUp (m+n) q = m+roundUp n q := by
  obtain ⟨c, rfl⟩ := hd
  unfold roundUp
  rw [Nat.add_assoc, Nat.add_sub_assoc (by omega), Nat.mul_add_div hq, Nat.add_mul,
    Nat.mul_comm c q]

end

/-- Bit `j` is the lowest bit set in `n`. -/
def IsLow (n j : Nat) : Prop := n.testBit j = true ∧ ∀ i < j, n.testBit i = false

theorem exists_isLow {n : Nat} (h : n ≠ 0) : ∃ j, IsLow n j := by
  classical
  obtain hex := Nat.exists_testBit_of_ne_zero h
  refine ⟨Nat.find hex, Nat.find_spec hex, fun i hi => ?_⟩
  simpa using Nat.find_min hex hi

theorem and_high_eq_zero_iff {n k : Nat} (h : n < 2^(2 * k)) :
    n &&& (2^k * (2^k-1)) = 0 ↔ n < 2^k := by
  constructor
  · intro hz
    by_contra hge
    have hn : n ≠ 0 := by
      have := Nat.two_pow_pos k
      omega
    have hlo : k ≤ n.log2 := (Nat.le_log2 hn).mpr (by omega)
    have hhi : n.log2 < 2 * k := (Nat.log2_lt hn).mpr h
    have hbit : (n &&& (2^k * (2^k-1))).testBit n.log2 = true := by
      simp [Nat.testBit_and, Nat.testBit_two_pow_mul, Nat.testBit_two_pow_sub_one,
        Nat.testBit_log2 hn]
      omega
    rw [hz] at hbit
    simp at hbit
  · intro hlt
    apply Nat.eq_of_testBit_eq
    intro i
    simp only [Nat.testBit_and, Nat.testBit_two_pow_mul, Nat.zero_testBit]
    by_cases hi : k ≤ i
    · rw [Nat.testBit_lt_two_pow (Nat.lt_of_lt_of_le hlt (Nat.pow_le_pow_right (by omega) hi))]
      simp
    · simp [hi]

theorem log2_shiftRight {n k : Nat} (h : 2^k ≤ n) : (n >>> k).log2+k = n.log2 := by
  have hn : n ≠ 0 := by
    have := Nat.two_pow_pos k
    omega
  have hs : n >>> k ≠ 0 := by
    rw [Nat.shiftRight_eq_div_pow]
    exact (Nat.div_pos h (Nat.two_pow_pos k)).ne'
  have hk : k ≤ n.log2 := (Nat.le_log2 hn).mpr h
  have lo : n.log2-k ≤ (n >>> k).log2 := by
    rw [Nat.le_log2 hs, Nat.shiftRight_eq_div_pow, Nat.le_div_iff_mul_le (Nat.two_pow_pos k),
      ← Nat.pow_add, Nat.sub_add_cancel hk]
    exact Nat.log2_self_le hn
  have hi : (n >>> k).log2 < n.log2-k+1 := by
    rw [Nat.log2_lt hs, Nat.shiftRight_eq_div_pow, Nat.div_lt_iff_lt_mul (Nat.two_pow_pos k),
      ← Nat.pow_add]
    exact Nat.lt_of_lt_of_eq Nat.lt_log2_self (by congr 1; omega)
  omega

theorem and_lt_xor_of_log2_lt {x y : Nat} (hy : y ≠ 0) (h : x.log2 < y.log2) :
    x &&& y < x ^^^ y := by
  have meet : x &&& y < 2^y.log2 := by
    calc x &&& y ≤ x := Nat.and_le_left
      _ < 2^(x.log2+1) := Nat.lt_log2_self
      _ ≤ 2^y.log2 := Nat.pow_le_pow_right (by omega) h
  have top : (x ^^^ y).testBit y.log2 = true := by
    have hx : x.testBit y.log2 = false :=
      Nat.testBit_lt_two_pow (Nat.lt_of_lt_of_le Nat.lt_log2_self
        (Nat.pow_le_pow_right (by omega) h))
    simp [Nat.testBit_xor, hx, Nat.testBit_log2 hy]
  exact Nat.lt_of_lt_of_le meet (Nat.ge_two_pow_of_testBit top)

/-- Two numbers share their highest set bit exactly when their difference is below their meet. -/
theorem xor_lt_and_iff {x y : Nat} : x ^^^ y < x &&& y ↔ x ≠ 0 ∧ y ≠ 0 ∧ x.log2 = y.log2 := by
  constructor
  · intro h
    have hx : x ≠ 0 := by
      rintro rfl
      simp at h
    have hy : y ≠ 0 := by
      rintro rfl
      simp at h
    refine ⟨hx, hy, ?_⟩
    rcases Nat.lt_trichotomy x.log2 y.log2 with lt | eq | gt
    · exact absurd h (Nat.lt_asymm (and_lt_xor_of_log2_lt hy lt))
    · exact eq
    · rw [Nat.xor_comm, Nat.and_comm] at h
      exact absurd h (Nat.lt_asymm (and_lt_xor_of_log2_lt hx gt))
  · rintro ⟨hx, hy, heq⟩
    have xor_lt : x ^^^ y < 2^x.log2 := by
      apply Nat.lt_pow_two_of_testBit
      intro i hi
      rcases Nat.eq_or_lt_of_le hi with rfl | lt
      · rw [Nat.testBit_xor, Nat.testBit_log2 hx, heq, Nat.testBit_log2 hy, Bool.xor_self]
      · have hxi : x.testBit i = false :=
          Nat.testBit_lt_two_pow ((Nat.log2_lt hx).mp lt)
        have hyi : y.testBit i = false :=
          Nat.testBit_lt_two_pow ((Nat.log2_lt hy).mp (heq ▸ lt))
        simp [Nat.testBit_xor, hxi, hyi]
    have le_and : 2^x.log2 ≤ x &&& y := by
      apply Nat.ge_two_pow_of_testBit
      rw [Nat.testBit_and, Nat.testBit_log2 hx, heq, Nat.testBit_log2 hy, Bool.and_self]
    omega

theorem eq_two_pow_log2 {n : Nat} (hn : n ≠ 0) (h : n &&& (n-1) = 0) : n = 2^n.log2 := by
  by_contra hne
  have hle := Nat.log2_self_le hn
  have hlt := Nat.lt_log2_self (n := n)
  have hn1 : n-1 ≠ 0 := by
    have := Nat.two_pow_pos n.log2
    omega
  have hlog : (n-1).log2 = n.log2 := (Nat.log2_eq_iff hn1).mpr ⟨by omega, by omega⟩
  have hbit : (n &&& (n-1)).testBit n.log2 = true := by
    rw [Nat.testBit_and, Nat.testBit_log2 hn, ← hlog, Nat.testBit_log2 hn1]
    rfl
  rw [h, Nat.zero_testBit] at hbit
  exact absurd hbit (by simp)

theorem le_of_testBit {n k f : Nat} (hd : 2^k ∣ n) (h : n.testBit f = true) : k ≤ f := by
  obtain ⟨c, rfl⟩ := hd
  rw [Nat.testBit_two_pow_mul, Bool.and_eq_true, decide_eq_true_iff] at h
  exact h.1

end Libumem.Lib.Pow2
