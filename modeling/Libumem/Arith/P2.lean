import Libumem.Lib.Pow2

/-!
# Word arithmetic of the allocator

The alignment macros of `sol_compat.h` and the bit searches `highbit` and `lowbit` of `misc.c`,
on the 64-bit words of an LP64 build.
-/

namespace Libumem.Arith
open BitVec Lib.Pow2

abbrev Word := BitVec 64

instance : LawfulBEq Word := inferInstance

def p2phase (x align : Word) : Word := x &&& (align - 1)

def p2align (x align : Word) : Word := x &&& -align

def p2nphase (x align : Word) : Word := -x &&& (align - 1)

def p2roundup (x align : Word) : Word := -(-x &&& -align)

def p2phaseup (x align phase : Word) : Word := phase - ((phase - x) &&& -align)

def p2samehighbit (x y : Word) : Bool := (x ^^^ y) < (x &&& y)

def p2boundary (off len align : Word) : Bool := align - 1 < (off ^^^ (off + len - 1))

/-- One rung of the `highbit` ladder. -/
def highbitStep (mask : Word) (shift : Nat) (s : Nat × Word) : Nat × Word :=
  if s.2 &&& mask ≠ 0 then (s.1 + shift, s.2 >>> shift) else s

def highbit (i : Word) : Nat :=
  if i = 0 then 0 else
    let s := highbitStep 0xffffffff00000000 32 (1, i)
    let s := highbitStep 0xffff0000 16 s
    let s := highbitStep 0xff00 8 s
    let s := highbitStep 0xf0 4 s
    let s := highbitStep 0xc 2 s
    (highbitStep 0x2 1 s).1

/-- One rung of the `lowbit` ladder. -/
def lowbitStep (mask : Word) (shift : Nat) (s : Nat × Word) : Nat × Word :=
  if s.2 &&& mask = 0 then (s.1 + shift, s.2 >>> shift) else s

def lowbit (i : Word) : Nat :=
  if i = 0 then 0 else
    let s := lowbitStep 0xffffffff 32 (1, i)
    let s := lowbitStep 0xffff 16 s
    let s := lowbitStep 0xff 8 s
    let s := lowbitStep 0xf 4 s
    let s := lowbitStep 0x3 2 s
    (lowbitStep 0x1 1 s).1

/-- A word that is a power of two. -/
def IsPow2 (q : Word) : Prop := ∃ k < 64, q.toNat = 2 ^ k

theorem isPow2_eight : IsPow2 8 := ⟨3, by decide, rfl⟩

theorem isPow2_page : IsPow2 4096 := ⟨12, by decide, rfl⟩

namespace IsPow2
variable {q : Word}

theorem pos (h : IsPow2 q) : 0 < q.toNat := by
  obtain ⟨k, _, hk⟩ := h
  rw [hk]
  exact Nat.two_pow_pos k

theorem dvd_two_pow (h : IsPow2 q) : q.toNat ∣ 2^64 := by
  obtain ⟨k, hlt, hk⟩ := h
  rw [hk]
  exact Nat.pow_dvd_pow 2 hlt.le

theorem dvd_of_le {a : Word} (ha : IsPow2 a) (h : IsPow2 q) (hle : a.toNat ≤ q.toNat) :
    a.toNat ∣ q.toNat := by
  obtain ⟨j, -, hj⟩ := ha
  obtain ⟨k, -, hk⟩ := h
  rw [hj, hk] at hle ⊢
  exact Nat.pow_dvd_pow 2 ((Nat.pow_le_pow_iff_right (by decide)).mp hle)

theorem le_half (h : IsPow2 q) : q.toNat ≤ 2^63 := by
  obtain ⟨k, hlt, hk⟩ := h
  rw [hk]
  exact Nat.pow_le_pow_right (by decide) (by omega)

end IsPow2

section
variable {q : Word}

theorem toNat_p2phase (x : Word) (h : IsPow2 q) : (p2phase x q).toNat = x.toNat % q.toNat := by
  obtain ⟨k, hlt, hk⟩ := h
  rw [p2phase, toNat_and_sub_one x hlt hk, hk]

theorem toNat_p2align (x : Word) (h : IsPow2 q) :
    (p2align x q).toNat = x.toNat-x.toNat % q.toNat := by
  obtain ⟨k, hlt, hk⟩ := h
  rw [p2align, toNat_and_neg x hlt hk, hk]

theorem and_pred_eq_zero_iff (x : Word) (h : IsPow2 q) : x &&& (q-1) = 0 ↔ q.toNat ∣ x.toNat := by
  rw [Nat.dvd_iff_mod_eq_zero, ← toNat_p2phase x h, p2phase, ← toNat_inj]
  rfl

theorem or_and_eq_zero_iff (x y m : Word) : (x ||| y) &&& m = 0 ↔ x &&& m = 0 ∧ y &&& m = 0 := by
  constructor
  · intro h
    constructor <;> ext i hi <;> have := congrArg (fun w => w[i]) h <;> simp at this ⊢ <;> grind
  · rintro ⟨hx, hy⟩
    ext i hi
    have h1 := congrArg (fun w => w[i]) hx
    have h2 := congrArg (fun w => w[i]) hy
    simp at h1 h2 ⊢
    grind

section

variable (h : IsPow2 q)

include h

theorem dvd_toNat_neg {x : Word} (hx : q.toNat ∣ x.toNat) : q.toNat ∣ (-x).toNat := by
  rw [toNat_neg]
  exact (Nat.dvd_mod_iff h.dvd_two_pow).mpr (Nat.dvd_sub h.dvd_two_pow hx)

theorem dvd_toNat_add {x y : Word} (hx : q.toNat ∣ x.toNat) (hy : q.toNat ∣ y.toNat) :
    q.toNat ∣ (x+y).toNat := by
  rw [toNat_add]
  exact (Nat.dvd_mod_iff h.dvd_two_pow).mpr (Nat.dvd_add hx hy)

theorem dvd_toNat_sub {x y : Word} (hx : q.toNat ∣ x.toNat) (hy : q.toNat ∣ y.toNat) :
    q.toNat ∣ (x-y).toNat := by
  rw [sub_eq_add_neg]
  exact dvd_toNat_add h hx (dvd_toNat_neg h hy)

theorem toNat_sub_mod (x : Word) {y : Word} (hy : q.toNat ∣ y.toNat) :
    (x-y).toNat % q.toNat = x.toNat % q.toNat := by
  obtain ⟨c, hc⟩ := Nat.dvd_sub h.dvd_two_pow hy
  rw [toNat_sub, Nat.mod_mod_of_dvd _ h.dvd_two_pow, hc, Nat.add_comm, Nat.add_mul_mod_self_left]

theorem dvd_toNat_and (x : Word) {m : Word} (hm : q.toNat ∣ m.toNat) :
    q.toNat ∣ (x &&& m).toNat := by
  obtain ⟨k, _, hk⟩ := h
  rw [hk] at hm ⊢
  exact dvd_toNat_and_of_dvd x hm

theorem dvd_p2roundup (x : Word) {align : Word} (ha : q.toNat ∣ align.toNat) :
    q.toNat ∣ (p2roundup x align).toNat :=
  dvd_toNat_neg h (dvd_toNat_and h _ (dvd_toNat_neg h ha))

theorem dvd_p2phaseup (x : Word) {align phase : Word} (ha : q.toNat ∣ align.toNat)
    (hp : q.toNat ∣ phase.toNat) : q.toNat ∣ (p2phaseup x align phase).toNat :=
  dvd_toNat_sub h hp (dvd_toNat_and h _ (dvd_toNat_neg h ha))

end

theorem p2phaseup_eq_add (x align phase : Word) :
    p2phaseup x align phase = x+((phase-x) &&& (align-1)) := by
  rw [← sub_and_neg, p2phaseup]
  generalize (phase-x) &&& -align = m
  bv_omega

theorem toNat_p2roundup (x : Word) (h : IsPow2 q) :
    (p2roundup x q).toNat = roundUp x.toNat q.toNat % 2^64 := by
  have hy : (-x &&& -q).toNat = (-x).toNat-(-x).toNat % q.toNat := toNat_p2align (-x) h
  have hdvd : q.toNat ∣ (-x &&& -q).toNat := by
    rw [hy]
    exact Nat.dvd_sub_mod _
  have hmod := Nat.mod_lt (-x).toNat h.pos
  have hx := x.isLt
  rw [p2roundup, toNat_neg, hy]
  rw [hy] at hdvd
  by_cases hx0 : x = 0
  · subst hx0
    have zero : roundUp 0 q.toNat = 0 := roundUp_of_dvd h.pos (Nat.dvd_zero _)
    simp [zero]
  · have hpos : 0 < x.toNat := by bv_omega
    have hneg : (-x).toNat = 2^64-x.toNat := by
      rw [toNat_neg, Nat.mod_eq_of_lt (by omega)]
    rw [hneg] at hdvd hmod ⊢
    congr 1
    symm
    apply roundUp_eq h.pos (Nat.dvd_sub h.dvd_two_pow hdvd) <;> omega

theorem p2roundup_eq_add (x align : Word) : p2roundup x align = x+p2nphase x align := by
  rw [p2nphase, ← sub_and_neg, p2roundup]
  generalize -x &&& -align = m
  bv_omega

theorem p2roundup_add_of_dvd (h : IsPow2 q) {x : Word} (hx : q.toNat ∣ x.toNat) (y : Word) :
    p2roundup (x+y) q = x+p2roundup y q := by
  have hphase : p2nphase (x+y) q = p2nphase y q := by
    apply eq_of_toNat_eq
    have h1 := toNat_p2phase (-(x+y)) h
    have h2 := toNat_p2phase (-y) h
    rw [p2phase] at h1 h2
    rw [p2nphase, p2nphase, h1, h2]
    have hy : -y = x + -(x+y) := by bv_omega
    rw [hy, toNat_add, Nat.mod_mod_of_dvd _ h.dvd_two_pow, Nat.add_mod,
      Nat.dvd_iff_mod_eq_zero.mp hx, Nat.zero_add, Nat.mod_mod]
  rw [p2roundup_eq_add, hphase, p2roundup_eq_add]
  bv_omega

theorem toNat_p2roundup_of_lt {x : Word} (h : IsPow2 q) (hlt : roundUp x.toNat q.toNat < 2^64) :
    (p2roundup x q).toNat = roundUp x.toNat q.toNat := by
  rw [toNat_p2roundup x h, Nat.mod_eq_of_lt hlt]

end

/-- What each rung of `highbit` keeps: the count so far and the position left to find add up. -/
def HighLeft (total k : Nat) (s : Nat × Word) : Prop :=
  s.2 ≠ 0 ∧ s.2.toNat < 2 ^ k ∧ s.1 + s.2.toNat.log2 = total

theorem highLeft_step (mask : Word) {total k : Nat} {s : Nat × Word}
    (hmask : mask.toNat = 2^k * (2^k-1)) (h : HighLeft total (2 * k) s) :
    HighLeft total k (highbitStep mask k s) := by
  obtain ⟨hi, hlt, hsum⟩ := h
  have test : s.2 &&& mask = 0 ↔ s.2.toNat < 2^k := by
    rw [← and_high_eq_zero_iff hlt, ← hmask, ← toNat_and, toNat_eq]
    rfl
  unfold highbitStep
  by_cases hz : s.2.toNat < 2^k
  · rw [if_neg (not_not.mpr (test.mpr hz))]
    exact ⟨hi, hz, hsum⟩
  · rw [if_pos fun h => hz (test.mp h)]
    have hge : 2^k ≤ s.2.toNat := Nat.le_of_not_lt hz
    have hdiv : (s.2 >>> k).toNat = s.2.toNat/2^k := by
      rw [toNat_ushiftRight, Nat.shiftRight_eq_div_pow]
    refine ⟨?_, ?_, ?_⟩
    · intro (h0 : s.2 >>> k = 0)
      have hpos : 0 < s.2.toNat/2^k := Nat.div_pos hge (Nat.two_pow_pos k)
      rw [← hdiv, h0] at hpos
      simp at hpos
    · rw [hdiv, Nat.div_lt_iff_lt_mul (Nat.two_pow_pos k), ← Nat.pow_add, ← Nat.two_mul]
      exact hlt
    · have hlog := log2_shiftRight hge
      rw [← toNat_ushiftRight] at hlog
      change s.1+k+(s.2 >>> k).toNat.log2 = total
      omega

theorem highbit_eq {i : Word} (hi : i ≠ 0) : highbit i = i.toNat.log2+1 := by
  have h64 : HighLeft (1+i.toNat.log2) (2 * 32) (1, i) := ⟨hi, i.isLt, rfl⟩
  have h32 := highLeft_step 0xffffffff00000000 (k := 32) (by decide) h64
  have h16 := highLeft_step 0xffff0000 (k := 16) (by decide) h32
  have h8 := highLeft_step 0xff00 (k := 8) (by decide) h16
  have h4 := highLeft_step 0xf0 (k := 4) (by decide) h8
  have h2 := highLeft_step 0xc (k := 2) (by decide) h4
  obtain ⟨hn, hlt, hsum⟩ := highLeft_step 0x2 (k := 1) (by decide) h2
  have one : (highbitStep 0x2 1 (highbitStep 0xc 2 (highbitStep 0xf0 4 (highbitStep 0xff00 8
      (highbitStep 0xffff0000 16 (highbitStep 0xffffffff00000000 32 (1, i))))))).2.toNat = 1 := by
    have : ∀ j : Word, j ≠ 0 → j.toNat < 2^1 → j.toNat = 1 := by bv_omega
    exact this _ hn hlt
  rw [one, show Nat.log2 1 = 0 by decide] at hsum
  rw [highbit, if_neg hi]
  simpa [Nat.add_comm] using hsum

/-- What each rung of `lowbit` keeps. -/
def LowLeft (total k : Nat) (s : Nat × Word) : Prop :=
  ∃ j < k, IsLow s.2.toNat j ∧ s.1 + j = total

theorem lowLeft_step (mask : Word) {total k : Nat} {s : Nat × Word} (hmask : mask.toNat = 2^k-1)
    (h : LowLeft total (2 * k) s) : LowLeft total k (lowbitStep mask k s) := by
  obtain ⟨j, hlt, hlow, hsum⟩ := h
  have test : s.2 &&& mask = 0 ↔ k ≤ j := by
    rw [← toNat_inj, toNat_and, hmask]
    change s.2.toNat &&& (2^k-1) = 0 ↔ _
    constructor
    · intro hz
      by_contra hjk
      have hbit : (s.2.toNat &&& (2^k-1)).testBit j = true := by
        rw [Nat.testBit_and, hlow.1, Nat.testBit_two_pow_sub_one]
        simp
        omega
      rw [hz] at hbit
      simp at hbit
    · intro hkj
      apply Nat.eq_of_testBit_eq
      intro i
      rw [Nat.testBit_and, Nat.testBit_two_pow_sub_one, Nat.zero_testBit]
      by_cases hik : i < k
      · rw [hlow.2 i (by omega), Bool.false_and]
      · simp [hik]
  unfold lowbitStep
  by_cases hkj : k ≤ j
  · rw [if_pos (test.mpr hkj)]
    refine ⟨j-k, by omega, ⟨?_, fun i hi => ?_⟩, ?_⟩
    · rw [toNat_ushiftRight, Nat.testBit_shiftRight, Nat.add_sub_cancel' hkj]
      exact hlow.1
    · rw [toNat_ushiftRight, Nat.testBit_shiftRight]
      exact hlow.2 _ (by omega)
    · change s.1+k+(j-k) = total
      omega
  · rw [if_neg fun h => hkj (test.mp h)]
    exact ⟨j, by omega, hlow, hsum⟩

theorem lowbit_eq {i : Word} {j : Nat} (h : IsLow i.toNat j) : lowbit i = j+1 := by
  have hj : j<64 := by
    by_contra hge
    have := Nat.ge_two_pow_of_testBit h.1
    have : 2^64 ≤ 2^j := Nat.pow_le_pow_right (by decide) (by omega)
    have := i.isLt
    omega
  have hi : i ≠ 0 := by
    rintro rfl
    simpa using h.1
  have h64 : LowLeft (1+j) (2 * 32) (1, i) := ⟨j, hj, h, rfl⟩
  have h32 := lowLeft_step 0xffffffff (k := 32) (by decide) h64
  have h16 := lowLeft_step 0xffff (k := 16) (by decide) h32
  have h8 := lowLeft_step 0xff (k := 8) (by decide) h16
  have h4 := lowLeft_step 0xf (k := 4) (by decide) h8
  have h2 := lowLeft_step 0x3 (k := 2) (by decide) h4
  obtain ⟨l, hl, _, hsum⟩ := lowLeft_step 0x1 (k := 1) (by decide) h2
  obtain rfl : l = 0 := by omega
  rw [lowbit, if_neg hi]
  simpa [Nat.add_comm] using hsum

theorem highbit_zero : highbit 0 = 0 := rfl

theorem highbit_le (i : Word) : highbit i ≤ 64 := by
  by_cases hi : i = 0
  · subst hi
    decide
  · have hn : i.toNat ≠ 0 := by bv_omega
    have : i.toNat.log2<64 := (Nat.log2_lt hn).mpr i.isLt
    rw [highbit_eq hi]
    omega

theorem highbit_pos {i : Word} (hi : i ≠ 0) : 0 < highbit i := by
  rw [highbit_eq hi]
  omega

theorem lowbit_spec {i : Word} {f : Nat} (h : lowbit i = f+1) : f < 64 ∧ i.getLsbD f = true := by
  have hi : i ≠ 0 := by
    rintro rfl
    simp [lowbit] at h
  have hn : i.toNat ≠ 0 := by bv_omega
  obtain ⟨j, hj⟩ := exists_isLow hn
  have := lowbit_eq hj
  obtain rfl : j = f := by omega
  have hbit : i.getLsbD j = true := hj.1
  exact ⟨lt_of_getLsbD hbit, hbit⟩

theorem isPow2_of_isP2 {x : Word} (hx : x ≠ 0) (h : x &&& (x-1) = 0) : IsPow2 x := by
  have hn : x.toNat ≠ 0 := by bv_omega
  have hpred : (x-1).toNat = x.toNat-1 := by bv_omega
  have hand := congrArg BitVec.toNat h
  rw [toNat_and, hpred] at hand
  refine ⟨x.toNat.log2, (Nat.log2_lt hn).mpr x.isLt, eq_two_pow_log2 hn (by simpa using hand)⟩

theorem toNat_one_shiftLeft {k : Nat} (hk : k<64) : ((1 : Word) <<< k).toNat = 2^k := by
  have hlt : 2^k < 2^64 := Nat.pow_lt_pow_right (by decide) hk
  simpa [toNat_shiftLeft, Nat.shiftLeft_eq] using hlt

theorem isPow2_shiftLeft {k : Nat} (hk : k<64) : IsPow2 ((1 : Word) <<< k) :=
  ⟨k, hk, toNat_one_shiftLeft hk⟩

theorem lowbit_p2align {m a : Word} {f : Nat} (ha : IsPow2 a)
    (h : lowbit (p2align m a) = f+1) : f < 64 ∧ a.toNat ≤ 2^f ∧ m.getLsbD f = true := by
  obtain ⟨hf, hbit⟩ := lowbit_spec h
  obtain ⟨k, hk, hpow⟩ := id ha
  have hd : 2^k ∣ (m &&& -a).toNat := by
    rw [← hpow]
    exact dvd_toNat_and ha m (dvd_toNat_neg ha (dvd_refl _))
  refine ⟨hf, ?_, ?_⟩
  · rw [hpow]
    exact Nat.pow_le_pow_right (by decide) (le_of_testBit hd hbit)
  · rw [p2align, getLsbD_and, Bool.and_eq_true] at hbit
    exact hbit.1

theorem getLsbD_p2align_shiftLeft (m : Word) (k : Nat) {i : Nat} (hi : i<64) :
    (p2align m ((1 : Word) <<< k)).getLsbD i = (decide (k ≤ i) && m.getLsbD i) := by
  by_cases hk : k<64
  · have hval : (p2align m ((1 : Word) <<< k)).toNat = 2^k * (m.toNat/2^k) := by
      have hsplit := Nat.div_add_mod m.toNat (2^k)
      rw [toNat_p2align m (isPow2_shiftLeft hk), toNat_one_shiftLeft hk]
      omega
    rw [getLsbD, hval, Nat.testBit_two_pow_mul, Nat.testBit_div_two_pow, getLsbD]
    by_cases hle : k ≤ i
    · simp [hle]
    · simp [hle]
  · have hzero : (1 : Word) <<< k = 0 := shiftLeft_eq_zero (by omega)
    have hle : ¬ k ≤ i := by omega
    rw [hzero, p2align]
    simp [hle]

theorem lowbit_eq_zero_iff {i : Word} : lowbit i = 0 ↔ i = 0 := by
  constructor
  · intro h
    by_contra hi
    have hn : i.toNat ≠ 0 := by bv_omega
    obtain ⟨j, hj⟩ := exists_isLow hn
    have := lowbit_eq hj
    omega
  · rintro rfl
    rfl

theorem lowbit_p2align_eq_zero_iff {m : Word} {k : Nat} :
    lowbit (p2align m ((1 : Word) <<< k)) = 0 ↔ ∀ i < 64, k ≤ i → m.getLsbD i = false := by
  rw [lowbit_eq_zero_iff]
  constructor
  · intro hz i hi hk
    have hbit := getLsbD_p2align_shiftLeft m k hi
    rw [hz] at hbit
    simpa [hk] using hbit.symm
  · intro h
    apply eq_of_getLsbD_eq
    intro i hi
    rw [getLsbD_p2align_shiftLeft m k hi]
    by_cases hk : k ≤ i
    · simp [h i hi hk]
    · simp [hk]

theorem lowbit_p2align_eq_succ {m : Word} {k f : Nat}
    (h : lowbit (p2align m ((1 : Word) <<< k)) = f+1) :
    k ≤ f ∧ f < 64 ∧ m.getLsbD f = true ∧ ∀ j, k ≤ j → j < f → m.getLsbD j = false := by
  obtain ⟨hf, hset⟩ := lowbit_spec h
  rw [getLsbD_p2align_shiftLeft m k hf, Bool.and_eq_true, decide_eq_true_iff] at hset
  refine ⟨hset.1, hf, hset.2, fun j hk hj => ?_⟩
  have hn : (p2align m ((1 : Word) <<< k)).toNat ≠ 0 := by
    intro hz
    rw [lowbit_eq_zero_iff.mpr (eq_of_toNat_eq hz)] at h
    omega
  obtain ⟨l, hl⟩ := exists_isLow hn
  have hlf := lowbit_eq hl
  obtain rfl : l = f := by omega
  have hbit : (p2align m ((1 : Word) <<< k)).getLsbD j = false := hl.2 j hj
  rw [getLsbD_p2align_shiftLeft m k (by omega)] at hbit
  simpa [hk] using hbit

theorem two_pow_le_of_highbit {x : Word} {f : Nat} (h : highbit x = f+1) : 2^f ≤ x.toNat := by
  have hx : x ≠ 0 := by
    rintro rfl
    exact absurd h (by rw [highbit_zero]; omega)
  rw [highbit_eq hx] at h
  obtain rfl : f = x.toNat.log2 := by omega
  exact Nat.log2_self_le (by bv_omega)

theorem lt_two_pow_highbit (x : Word) : x.toNat < 2^highbit x := by
  by_cases hx : x = 0
  · subst hx
    decide
  · rw [highbit_eq hx]
    exact Nat.lt_log2_self

theorem p2samehighbit_iff (x y : Word) :
    p2samehighbit x y = true ↔ x ≠ 0 ∧ y ≠ 0 ∧ highbit x = highbit y := by
  have hz : ∀ z : Word, z ≠ 0 ↔ z.toNat ≠ 0 := fun z => by
    rw [ne_eq, ← toNat_inj]
    rfl
  rw [p2samehighbit, decide_eq_true_iff, lt_def, toNat_xor, toNat_and, xor_lt_and_iff, ← hz, ← hz]
  constructor
  · rintro ⟨hx, hy, h⟩
    exact ⟨hx, hy, by rw [highbit_eq hx, highbit_eq hy, h]⟩
  · rintro ⟨hx, hy, h⟩
    rw [highbit_eq hx, highbit_eq hy] at h
    exact ⟨hx, hy, by omega⟩

end Libumem.Arith
