import Libumem.Env.Items

/-!
# The texts of a size

`item_size_process` reads a numeral with `strtoul` and multiplies it by 1024 for each step of its
size character, with a comparison behind every multiplication in place of a test for an overflow.
The texts that denote a size are described here without the function, and both sets are compared.
-/

namespace Libumem.Env
open List Arith

/-- The number that a row of digits stands for. -/
def numeral (digits : CString) : Nat := digits.foldl (fun n d => 10 * n + (d.toNat - '0'.toNat)) 0

/-- The power of 1024 of a suffix: at most one size character. -/
def suffixPower : CString → Option Nat
  | [] => some 0
  | [c] => sizeCharacter c
  | _ => none

/-- The text is blanks, the sign, a numeral of value `n` and a suffix for the power `j`. -/
def Reads (sign arg : CString) (n j : Nat) : Prop :=
  ∃ blanks digits suffix, arg = blanks ++ (sign ++ (digits ++ suffix)) ∧
    (∀ c ∈ blanks, isspace c = true) ∧ digits ≠ [] ∧ (∀ c ∈ digits, c.isDigit = true) ∧
    numeral digits = n ∧ suffixPower suffix = some j

/-- The text is the numeral `n` with the power `j`, behind blanks and perhaps a plus sign. -/
def Denotes (arg : CString) (n j : Nat) : Prop := Reads [] arg n j ∨ Reads ['+'] arg n j

/-- Every product on the way to the power `j` is, modulo the width of a word, at least the
numeral. -/
def Passes (n j : Nat) : Prop := ∀ i ≤ j, n ≤ n * 1024 ^ i % 2 ^ 64

instance (n j : Nat) : Decidable (Passes n j) := inferInstanceAs (Decidable (∀ i ≤ j, _))

/-- What `strtoul` returns for a number behind a sign. -/
def signedValue (sign : CString) (n : Nat) : Word :=
  if sign = ['-'] then -BitVec.ofNat 64 n else BitVec.ofNat 64 n

theorem isspace_eq_false_of_isDigit {c : Char} (h : c.isDigit = true) : isspace c = false := by
  simp only [Char.isDigit, Bool.and_eq_true, decide_eq_true_eq, UInt32.le_iff_toNat_le] at h
  have hlow : 48 ≤ c.toNat := h.1
  have hblank : c ≠ ' ' := by
    intro hc
    rw [hc] at hlow
    exact absurd hlow (by decide)
  simp only [isspace, hblank, decide_false, Bool.false_or, Bool.and_eq_false_iff,
    decide_eq_false_iff_not]
  right
  omega

theorem sizeCharacter_cases {P : Char → Prop} {c : Char} {j : Nat} (h : sizeCharacter c = some j)
    (ht : P 't') (hT : P 'T') (hg : P 'g') (hG : P 'G') (hm : P 'm') (hM : P 'M') (hk : P 'k')
    (hK : P 'K') : P c := by
  unfold sizeCharacter at h
  split_ifs at h with h4 h3 h2 h1
  · rcases h4 with rfl | rfl <;> assumption
  · rcases h3 with rfl | rfl <;> assumption
  · rcases h2 with rfl | rfl <;> assumption
  · rcases h1 with rfl | rfl <;> assumption

theorem isDigit_eq_false_of_sizeCharacter {c : Char} {j : Nat} (h : sizeCharacter c = some j) :
    c.isDigit = false := by
  apply sizeCharacter_cases h
  all_goals decide

theorem dropWhile_append_of_all {p : Char → Bool} {front rest : CString}
    (h : ∀ c ∈ front, p c = true) : (front ++ rest).dropWhile p = rest.dropWhile p := by
  rw [dropWhile_append, dropWhile_eq_nil_iff.mpr h]
  rfl

theorem takeWhile_append_of_all {p : Char → Bool} {front rest : CString}
    (h : ∀ c ∈ front, p c = true) : (front ++ rest).takeWhile p = front ++ rest.takeWhile p := by
  rw [takeWhile_append, takeWhile_eq_self_iff.mpr h, if_pos rfl]

theorem suffix_stops {suffix : CString} {j : Nat} (h : suffixPower suffix = some j) :
    suffix.takeWhile Char.isDigit = [] ∧ suffix.dropWhile Char.isDigit = suffix := by
  cases suffix with
  | nil => exact ⟨rfl, rfl⟩
  | cons c rest =>
    cases rest with
    | nil =>
      have hc := isDigit_eq_false_of_sizeCharacter h
      simp [hc]
    | cons d rest => cases h

section
variable {sign digits blanks : CString} (hsign : sign = [] ∨ sign = ['+'] ∨ sign = ['-'])
  (hblanks : ∀ c ∈ blanks, isspace c = true) (hne : digits ≠ [])
  (hdigits : ∀ c ∈ digits, c.isDigit = true)
include hsign hblanks hne hdigits

theorem body_eq {suffix : CString} :
    (blanks ++ (sign ++ (digits ++ suffix))).dropWhile isspace = sign ++ (digits ++ suffix) := by
  rw [dropWhile_append_of_all hblanks]
  cases digits with
  | nil => exact absurd rfl hne
  | cons d digits =>
    have hspace := isspace_eq_false_of_isDigit (hdigits d mem_cons_self)
    rcases hsign with rfl | rfl | rfl
    · simp [hspace]
    · rfl
    · rfl

theorem strtoul_append {suffix : CString} {j : Nat} (hsuffix : suffixPower suffix = some j) :
    strtoul (blanks ++ (sign ++ (digits ++ suffix))) =
      if 2^64 ≤ numeral digits then (BitVec.allOnes 64, true, suffix)
      else (signedValue sign (numeral digits), false, suffix) := by
  cases digits with
  | nil => exact absurd rfl hne
  | cons d digits =>
    have hd : d.isDigit = true := hdigits d mem_cons_self
    have htake : (d :: digits ++ suffix).takeWhile Char.isDigit = d :: digits := by
      rw [takeWhile_append_of_all hdigits, (suffix_stops hsuffix).1, append_nil]
    have hdrop : (d :: digits ++ suffix).dropWhile Char.isDigit = suffix := by
      rw [dropWhile_append_of_all hdigits, (suffix_stops hsuffix).2]
    have hplus : d ≠ '+' := by
      rintro rfl
      exact absurd hd (by decide)
    have hminus : d ≠ '-' := by
      rintro rfl
      exact absurd hd (by decide)
    unfold strtoul
    rw [body_eq hsign hblanks hne hdigits]
    rcases hsign with rfl | rfl | rfl
    · have hhead : ((d :: digits) ++ suffix).head? = some d := rfl
      simp only [nil_append, hhead, Option.some.injEq, hminus, hplus, or_self, if_false,
        htake, hdrop, reduceCtorEq, signedValue]
      rfl
    · simp only [singleton_append, List.head?_cons, tail_cons, or_true, if_true, htake,
        hdrop, reduceCtorEq, if_false, signedValue]
      rfl
    · simp only [singleton_append, List.head?_cons, tail_cons, true_or, if_true, htake,
        hdrop, reduceCtorEq, if_false, signedValue]
      rfl

end

/-- A text with digits where `strtoul` looks for them is a number behind its sign. -/
theorem exists_sign (arg : CString) :
    (strtoul arg = (0, false, arg)) ∨
    ∃ blanks sign digits rest, arg = blanks ++ (sign ++ (digits ++ rest)) ∧
      (sign = [] ∨ sign = ['+'] ∨ sign = ['-']) ∧ (∀ c ∈ blanks, isspace c = true) ∧
      digits ≠ [] ∧ (∀ c ∈ digits, c.isDigit = true) ∧ (strtoul arg).2.2 = rest := by
  have hsplit := (takeWhile_append_dropWhile (p := isspace) (l := arg)).symm
  have hblanks : ∀ c ∈ arg.takeWhile isspace, isspace c = true :=
    fun c hc => mem_takeWhile_imp hc
  have hdigits : ∀ l : CString, ∀ c ∈ l.takeWhile Char.isDigit, c.isDigit = true :=
    fun l c hc => mem_takeWhile_imp hc
  have hnumber : ∀ l : CString, l = l.takeWhile Char.isDigit ++ l.dropWhile Char.isDigit :=
    fun l => takeWhile_append_dropWhile.symm
  unfold strtoul
  generalize arg.dropWhile isspace = body at hsplit ⊢
  -- the sign is the head of the body or there is none
  have hsign : ∃ sign unsigned, body = sign ++ unsigned ∧
      (sign = [] ∨ sign = ['+'] ∨ sign = ['-']) ∧
      (if body.head? = some '-' ∨ body.head? = some '+' then body.tail else body) = unsigned := by
    cases body with
    | nil => exact ⟨[], [], rfl, .inl rfl, rfl⟩
    | cons c rest =>
      simp only [List.head?_cons, Option.some.injEq, tail_cons]
      by_cases hminus : c = '-'
      · exact ⟨['-'], rest, by rw [hminus]; rfl, .inr (.inr rfl), if_pos (.inl hminus)⟩
      by_cases hplus : c = '+'
      · exact ⟨['+'], rest, by rw [hplus]; rfl, .inr (.inl rfl), if_pos (.inr hplus)⟩
      · exact ⟨[], c :: rest, rfl, .inl rfl, if_neg (not_or.mpr ⟨hminus, hplus⟩)⟩
  obtain ⟨sign, unsigned, hbody, hcases, heq⟩ := hsign
  simp only [heq]
  by_cases hnil : unsigned.takeWhile Char.isDigit = []
  · left
    rw [if_pos hnil]
  · right
    refine ⟨arg.takeWhile isspace, sign, unsigned.takeWhile Char.isDigit,
      unsigned.dropWhile Char.isDigit, ?_, hcases, hblanks, hnil, hdigits unsigned, ?_⟩
    · rw [← hnumber unsigned, ← hbody]
      exact hsplit
    · rw [if_neg hnil]
      split <;> rfl

theorem scaleArg_ofNat {n : Nat} (hn : n < 2^64) (j i : Nat) :
    scaleArg (BitVec.ofNat 64 n) j (BitVec.ofNat 64 (n * 1024^i)) =
      if ∀ k ≤ j, 0 < k → n ≤ n * 1024^(i+k) % 2^64 then
        .ok (BitVec.ofNat 64 (n * 1024^(i+j)))
      else .error .overflow := by
  induction j generalizing i with
  | zero =>
    rw [if_pos]
    · rfl
    · intro k hk hpos
      omega
  | succ j ih =>
    have hmul : BitVec.ofNat 64 (n * 1024^i) * 1024 = BitVec.ofNat 64 (n * 1024^(i+1)) := by
      apply BitVec.eq_of_toNat_eq
      simp [Nat.pow_succ, Nat.mul_assoc]
    have hless : BitVec.ofNat 64 (n * 1024^(i+1)) < BitVec.ofNat 64 n ↔
        n * 1024^(i+1) % 2^64 < n := by
      rw [BitVec.lt_def, BitVec.toNat_ofNat, BitVec.toNat_ofNat, Nat.mod_eq_of_lt hn]
    rw [scaleArg, hmul, ih (i+1)]
    by_cases hwrap : n * 1024^(i+1) % 2^64 < n
    · rw [if_pos (hless.mpr hwrap), if_neg]
      intro hall
      have := hall 1 (by omega) one_pos
      omega
    · rw [if_neg (mt hless.mp hwrap)]
      -- the first of the products has passed, the others are those of the recursive call
      have hiff : (∀ k ≤ j, 0 < k → n ≤ n * 1024^(i+1+k) % 2^64) ↔
          ∀ k ≤ j+1, 0 < k → n ≤ n * 1024^(i+k) % 2^64 := by
        constructor
        · intro hall k hk hpos
          by_cases hone : k = 1
          · rw [hone]
            omega
          · have := hall (k-1) (by omega) (by omega)
            rwa [show i+1+(k-1) = i+k from by omega] at this
        · intro hall k hk hpos
          have := hall (k+1) (by omega) (by omega)
          rwa [show i+(k+1) = i+1+k from by omega] at this
      simp only [hiff, show i+1+j = i+(j+1) from by omega]

theorem scaleArg_eq {n : Nat} (hn : n < 2^64) (j : Nat) :
    scaleArg (BitVec.ofNat 64 n) j (BitVec.ofNat 64 n) =
      if Passes n j then .ok (BitVec.ofNat 64 (n * 1024^j)) else .error .overflow := by
  have hscale := scaleArg_ofNat hn j 0
  rw [Nat.pow_zero, Nat.mul_one] at hscale
  rw [hscale]
  have hiff : (∀ k ≤ j, 0 < k → n ≤ n * 1024^(0+k) % 2^64) ↔ Passes n j := by
    constructor
    · intro hall i hi
      rcases Nat.eq_zero_or_pos i with rfl | hpos
      · rw [Nat.pow_zero, Nat.mul_one, Nat.mod_eq_of_lt hn]
      · simpa only [Nat.zero_add] using hall i hi hpos
    · intro hall k hk hpos
      simpa only [Nat.zero_add] using hall k hk
  simp only [hiff]
  rw [Nat.zero_add]

theorem passes_of_lt {n j : Nat} (h : n * 1024^j < 2^64) : Passes n j := by
  intro i hi
  have hle : n * 1024^i ≤ n * 1024^j :=
    Nat.mul_le_mul_left n (Nat.pow_le_pow_right (by norm_num) hi)
  rw [Nat.mod_eq_of_lt (lt_of_le_of_lt hle h)]
  exact Nat.le_mul_of_pos_right n (by positivity)

section
variable {sign arg : CString} {n j : Nat}

/-- The number that the multiplications start from. -/
def startValue (sign : CString) (n : Nat) : Nat :=
  if sign = ['-'] then (2 ^ 64 - n) % 2 ^ 64 else n

theorem signedValue_eq (sign : CString) (hn : n < 2^64) :
    signedValue sign n = BitVec.ofNat 64 (startValue sign n) ∧ startValue sign n < 2^64 := by
  unfold signedValue startValue
  split
  · refine ⟨?_, Nat.mod_lt _ (by norm_num)⟩
    apply BitVec.eq_of_toNat_eq
    rw [BitVec.toNat_neg, BitVec.toNat_ofNat, BitVec.toNat_ofNat, Nat.mod_eq_of_lt hn, Nat.mod_mod]
  · exact ⟨rfl, hn⟩

theorem empty_eq_false {blanks digits suffix : CString} (hne : digits ≠ [])
    (hdigits : ∀ c ∈ digits, c.isDigit = true) :
    empty (blanks ++ (sign ++ (digits ++ suffix))) = false := by
  cases digits with
  | nil => exact absurd rfl hne
  | cons d digits =>
    have hd := isspace_eq_false_of_isDigit (hdigits d mem_cons_self)
    simp [empty, hd]

theorem sizeArg_of_reads (hsign : sign = [] ∨ sign = ['+'] ∨ sign = ['-'])
    (h : Reads sign arg n j) :
    sizeArg arg =
      if n < 2^64 ∧ Passes (startValue sign n) j then
        .ok (BitVec.ofNat 64 (startValue sign n * 1024^j))
      else .error .overflow := by
  obtain ⟨blanks, digits, suffix, rfl, hblanks, hne, hdigits, rfl, hsuffix⟩ := h
  unfold sizeArg
  rw [empty_eq_false hne hdigits, strtoul_append hsign hblanks hne hdigits hsuffix]
  by_cases hlarge : 2^64 ≤ numeral digits
  · rw [if_pos hlarge, if_neg (by omega : ¬(numeral digits < 2^64 ∧ _))]
    rfl
  · have hn : numeral digits < 2^64 := Nat.lt_of_not_le hlarge
    obtain ⟨hvalue, hlt⟩ := signedValue_eq sign hn
    rw [if_neg hlarge]
    simp only [Bool.false_eq_true, if_false, and_false, hn, true_and]
    cases suffix with
    | nil =>
      obtain rfl : 0 = j := Option.some.inj hsuffix
      have hpasses : Passes (startValue sign (numeral digits)) 0 := by
        apply passes_of_lt
        rwa [Nat.pow_zero, Nat.mul_one]
      rw [if_pos hpasses, hvalue, Nat.pow_zero, Nat.mul_one]
      rfl
    | cons c rest =>
      cases rest with
      | nil =>
        have hc : sizeCharacter c = some j := hsuffix
        simp only [List.head?_cons, Option.bind_some, hc, hvalue, scaleArg_eq hlt, tail_cons]
        split <;> rfl
      | cons d rest => cases hsuffix

/-- The text is a size character and nothing else. -/
def LoneSuffix (arg : CString) : Prop := ∃ c, arg = [c] ∧ (sizeCharacter c).isSome = true

theorem sizeArg_of_loneSuffix (h : LoneSuffix arg) : sizeArg arg = .ok 0 := by
  obtain ⟨c, rfl, hc⟩ := h
  obtain ⟨j, hj⟩ := Option.isSome_iff_exists.mp hc
  have hread : empty [c] = false ∧ strtoul [c] = (0, false, [c]) := by
    apply sizeCharacter_cases hj
    all_goals decide
  unfold sizeArg
  rw [hread.1, hread.2]
  have hscale : scaleArg 0 j 0 = .ok 0 := by
    have hzero := scaleArg_eq (n := 0) (by norm_num) j
    rwa [if_pos (passes_of_lt (by norm_num)), Nat.zero_mul] at hzero
  simp only [List.head?_cons, Option.bind_some, hj, hscale, tail_cons]
  rfl

theorem suffix_of_sizeArg {w : Word} (h : sizeArg arg = .ok w) :
    ∃ j, suffixPower (strtoul arg).2.2 = some j := by
  unfold sizeArg at h
  split at h
  · cases h
  generalize strtoul arg = read at h
  obtain ⟨resultArg, erange, endptr⟩ := read
  dsimp only at h ⊢
  split at h
  · cases h
  cases endptr with
  | nil => exact ⟨0, rfl⟩
  | cons c rest =>
    cases hc : sizeCharacter c with
    | none =>
      simp only [List.head?_cons, Option.bind_some, hc, ne_eq, reduceCtorEq, not_false_eq_true,
        if_true] at h
    | some j =>
      cases rest with
      | nil => exact ⟨j, hc⟩
      | cons d rest =>
        simp only [List.head?_cons, Option.bind_some, hc, tail_cons, ne_eq, reduceCtorEq,
          not_false_eq_true, if_true] at h
        cases hscale : scaleArg resultArg j resultArg with
        | error e =>
          rw [hscale] at h
          cases h
        | ok result =>
          rw [hscale] at h
          cases h

theorem reads_of_sizeArg {w : Word} (h : sizeArg arg = .ok w) :
    LoneSuffix arg ∨ ∃ sign n j, (sign = [] ∨ sign = ['+'] ∨ sign = ['-']) ∧
      Reads sign arg n j := by
  obtain ⟨j, hj⟩ := suffix_of_sizeArg h
  cases exists_sign arg with
  | inl hnone =>
    left
    rw [hnone] at hj
    cases arg with
    | nil => simp [sizeArg, empty] at h
    | cons c rest =>
      cases rest with
      | nil => exact ⟨c, rfl, Option.isSome_of_eq_some hj⟩
      | cons d rest => cases hj
  | inr hread =>
    obtain ⟨blanks, sign, digits, rest, harg, hsign, hblanks, hne, hdigits, hrest⟩ := hread
    rw [hrest] at hj
    exact .inr ⟨sign, numeral digits, j, hsign, blanks, digits, rest, harg, hblanks, hne, hdigits,
      rfl, hj⟩

theorem Reads.unique {sign' : CString} {n' j' : Nat}
    (hsign : sign = [] ∨ sign = ['+'] ∨ sign = ['-'])
    (hsign' : sign' = [] ∨ sign' = ['+'] ∨ sign' = ['-'])
    (h : Reads sign arg n j) (h' : Reads sign' arg n' j') : sign = sign' ∧ n = n' ∧ j = j' := by
  obtain ⟨blanks, digits, suffix, rfl, hblanks, hne, hdigits, rfl, hsuffix⟩ := h
  obtain ⟨blanks', digits', suffix', heq, hblanks', hne', hdigits', rfl, hsuffix'⟩ := h'
  have hbody := congrArg (List.dropWhile isspace) heq
  rw [body_eq hsign hblanks hne hdigits, body_eq hsign' hblanks' hne' hdigits'] at hbody
  have hsame : sign = sign' := by
    cases digits with
    | nil => exact absurd rfl hne
    | cons d digits =>
      cases digits' with
      | nil => exact absurd rfl hne'
      | cons d' digits' =>
        have hd := hdigits d mem_cons_self
        have hd' := hdigits' d' mem_cons_self
        have hhead := congrArg List.head? hbody
        rcases hsign with rfl | rfl | rfl <;> rcases hsign' with rfl | rfl | rfl <;>
          simp only [nil_append, cons_append, List.head?_cons, Option.some.injEq] at hhead
        all_goals first
          | rfl
          | (subst hhead; exact absurd hd (by decide))
          | (subst hhead; exact absurd hd' (by decide))
          | exact absurd hhead (by decide)
  subst hsame
  have hrest := append_cancel_left hbody
  have htake := congrArg (List.takeWhile Char.isDigit) hrest
  rw [takeWhile_append_of_all hdigits, takeWhile_append_of_all hdigits',
    (suffix_stops hsuffix).1, (suffix_stops hsuffix').1, append_nil, append_nil] at htake
  subst htake
  have hend := append_cancel_left hrest
  subst hend
  exact ⟨rfl, rfl, Option.some.inj (hsuffix.symm.trans hsuffix')⟩

theorem Reads.not_loneSuffix (h : Reads sign arg n j) : ¬LoneSuffix arg := by
  obtain ⟨blanks, digits, suffix, rfl, -, hne, hdigits, -, -⟩ := h
  rintro ⟨c, heq, hc⟩
  obtain ⟨k, hk⟩ := Option.isSome_iff_exists.mp hc
  obtain ⟨d, hd⟩ := exists_mem_of_ne_nil digits hne
  have hmem : d ∈ [c] := by
    rw [← heq]
    simp [hd]
  rw [mem_singleton.mp hmem] at hd
  exact absurd (hdigits c hd) (by rw [isDigit_eq_false_of_sizeCharacter hk]; decide)

end

/-- The function agrees with the denotation of the text: a size that fits in a word is stored as it
is, and any other text leaves everything but the log as it was. -/
def Exact (arg : CString) : Prop :=
  ∀ (current : String) (item : Item) (target : SizeVar) (s : State), item.sizeTarget = some target →
    (∀ n j, Denotes arg n j → n * 1024 ^ j < 2 ^ 64 →
      itemSizeProcess current item (some arg) s = some (.argSuccess,
        { s with config := s.config.setSize target (BitVec.ofNat 64 (n * 1024 ^ j)) })) ∧
    ((¬∃ n j, Denotes arg n j ∧ n * 1024 ^ j < 2 ^ 64) →
      ∃ log, itemSizeProcess current item (some arg) s = some (.argBad, { s with log := log }))

/-- The texts that the function takes for sizes although they denote none. -/
inductive Mistaken : CString → Prop
  | lone {arg : CString} (h : LoneSuffix arg) : Mistaken arg
  | negative {arg : CString} {n j : Nat} (h : Reads ['-'] arg n j) (hn : n < 2 ^ 64)
      (hpasses : Passes ((2 ^ 64 - n) % 2 ^ 64) j) : Mistaken arg
  | wrapped {arg : CString} {n j : Nat} (h : Denotes arg n j) (hn : n < 2 ^ 64)
      (hlarge : 2 ^ 64 ≤ n * 1024 ^ j) (hpasses : Passes n j) : Mistaken arg

section
variable {arg : CString} {n j : Nat}

/-- The text denotes a size that fits in a word. -/
def Fits (arg : CString) : Prop := ∃ n j, Denotes arg n j ∧ n * 1024 ^ j < 2 ^ 64

theorem lt_of_fits (h : n * 1024^j < 2^64) : n < 2^64 :=
  lt_of_le_of_lt (Nat.le_mul_of_pos_right n (by positivity)) h

theorem Denotes.unique {n' j' : Nat} (h : Denotes arg n j) (h' : Denotes arg n' j') :
    n = n' ∧ j = j' := by
  rcases h with h | h <;> rcases h' with h' | h' <;>
    exact (h.unique (by simp) (by simp) h').2

theorem sizeArg_of_denotes (h : Denotes arg n j) :
    sizeArg arg = if n < 2^64 ∧ Passes n j then .ok (BitVec.ofNat 64 (n * 1024^j))
      else .error .overflow := by
  cases h with
  | inl h => exact sizeArg_of_reads (.inl rfl) h
  | inr h => exact sizeArg_of_reads (.inr (.inl rfl)) h

theorem Mistaken.accepted (h : Mistaken arg) : ∃ w, sizeArg arg = .ok w := by
  cases h with
  | lone h => exact ⟨_, sizeArg_of_loneSuffix h⟩
  | negative h hn hpasses =>
    rw [sizeArg_of_reads (.inr (.inr rfl)) h]
    exact ⟨_, if_pos ⟨hn, hpasses⟩⟩
  | wrapped h hn hlarge hpasses =>
    rw [sizeArg_of_denotes h]
    exact ⟨_, if_pos ⟨hn, hpasses⟩⟩

theorem Mistaken.not_fits (h : Mistaken arg) : ¬Fits arg := by
  rintro ⟨n', j', hdenotes, hfits⟩
  cases h with
  | lone h =>
    cases hdenotes with
    | inl hreads => exact hreads.not_loneSuffix h
    | inr hreads => exact hreads.not_loneSuffix h
  | negative h =>
    cases hdenotes with
    | inl hreads => exact absurd (hreads.unique (by simp) (by simp) h).1 (by simp)
    | inr hreads => exact absurd (hreads.unique (by simp) (by simp) h).1 (by decide)
  | wrapped h hn hlarge =>
    obtain ⟨rfl, rfl⟩ := h.unique hdenotes
    omega

theorem fits_or_mistaken {w : Word} (h : sizeArg arg = .ok w) : Fits arg ∨ Mistaken arg := by
  cases reads_of_sizeArg h with
  | inl hlone => exact .inr (.lone hlone)
  | inr hreads =>
    obtain ⟨sign, n, j, hsign, hreads⟩ := hreads
    rw [sizeArg_of_reads hsign hreads] at h
    split at h
    · rename_i hpasses
      have hdenotes (hplus : Denotes arg n j) (hstart : startValue sign n = n) :
          Fits arg ∨ Mistaken arg := by
        rw [hstart] at hpasses
        by_cases hlarge : 2^64 ≤ n * 1024^j
        · exact .inr (.wrapped hplus hpasses.1 hlarge hpasses.2)
        · exact .inl ⟨n, j, hplus, Nat.lt_of_not_le hlarge⟩
      rcases hsign with rfl | rfl | rfl
      · exact hdenotes (.inl hreads) rfl
      · exact hdenotes (.inr hreads) rfl
      · exact .inr (.negative hreads hpasses.1 hpasses.2)
    · cases h

end

section
variable (current : String) {item : Item} {target : SizeVar} {arg : CString} (s : State)

theorem itemSizeProcess_ok (h : item.sizeTarget = some target) {w : Word}
    (hok : sizeArg arg = .ok w) : itemSizeProcess current item (some arg) s =
      some (.argSuccess, { s with config := s.config.setSize target w }) := by
  simp [itemSizeProcess, numberArg, hok, storeSize, h, modifyConfig, bind, StateT.bind, pure,
    StateT.pure]

theorem itemSizeProcess_error {e : NumberError} (herror : sizeArg arg = .error e) :
    ∃ log, itemSizeProcess current item (some arg) s = some (.argBad, { s with log := log }) := by
  cases e <;>
    simp [itemSizeProcess, numberArg, herror, logNumberError, logItem, logMessage, bind,
      StateT.bind, pure, StateT.pure]

end

theorem Mistaken.not_exact {arg : CString} (h : Mistaken arg) : ¬Exact arg := by
  intro hexact
  obtain ⟨w, hw⟩ := h.accepted
  let item : Item := { name := "", type := .size, sizeTarget := some .umemMaxverify }
  let s : State := ⟨⟨fun _ => 0, fun _ => 0, SizeClass.umemAllocSizes, []⟩, 0, []⟩
  obtain ⟨log, hbad⟩ := (hexact "" item .umemMaxverify s rfl).2 h.not_fits
  rw [itemSizeProcess_ok "" s rfl hw] at hbad
  cases hbad

/-- `item_size_process` agrees with the denotation of a text unless the text is a lone size
character, a negative number that gets through the tests, or a size too large for a word whose
products modulo the width of a word all get through. -/
theorem itemSizeProcess_exact_iff (arg : CString) : Exact arg ↔ ¬Mistaken arg := by
  constructor
  · intro hexact hmistaken
    exact hmistaken.not_exact hexact
  · intro hsound current item target s htarget
    constructor
    · intro n j hdenotes hfits
      apply itemSizeProcess_ok current s htarget
      rw [sizeArg_of_denotes hdenotes]
      exact if_pos ⟨lt_of_fits hfits, passes_of_lt hfits⟩
    · intro hnone
      cases hw : sizeArg arg with
      | error e => exact itemSizeProcess_error current s hw
      | ok w => exact absurd (fits_or_mistaken hw) (not_or.mpr ⟨hnone, hsound⟩)

/-- A letter is taken for zero, a negative number for its residue, and `(2^54 + 2^46)k`, which is
`2^64 + 2^56`, for `2^56`. -/
theorem itemSizeProcess_mistaken :
    (sizeArg "k".toList = .ok 0 ∧ ¬Exact "k".toList) ∧
    (sizeArg "-1".toList = .ok (BitVec.allOnes 64) ∧ ¬Exact "-1".toList) ∧
    (sizeArg "18084767253659648k".toList = .ok 0x100000000000000 ∧
      ¬Exact "18084767253659648k".toList) := by
  refine ⟨⟨by decide, ?_⟩, ⟨by decide, ?_⟩, by decide +kernel, ?_⟩
  · apply Mistaken.not_exact
    exact .lone ⟨'k', rfl, rfl⟩
  · have hreads : Reads ['-'] "-1".toList 1 0 :=
      ⟨[], ['1'], [], by decide, by simp, by decide, all_eq_true.mp rfl, by decide, rfl⟩
    apply Mistaken.not_exact
    exact .negative hreads (by norm_num) (by decide +kernel)
  · have hreads : Reads [] "18084767253659648k".toList 18084767253659648 1 :=
      ⟨[], "18084767253659648".toList, ['k'], by decide, by simp, by decide,
        all_eq_true.mp (by decide), by decide +kernel, rfl⟩
    apply Mistaken.not_exact
    exact .wrapped (.inl hreads) (by norm_num) (by norm_num) (by decide +kernel)

end Libumem.Env
