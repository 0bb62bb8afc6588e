import Libumem.Env.Items

/-!
# The mapping of the stack

`umem_maps_find_sp` looks for the mapping of the stack pointer in `/proc/self/maps`. The text comes
in the pieces that `read` returns; a line is gathered in a buffer that keeps its first 255
characters, and its two addresses are read when its newline arrives. Where the pieces end makes no
difference, and the line that is found is the one of the mapping.
-/

namespace Libumem.Stack
open List Arith
open Libumem.Env (CString isspace)

def isHexDigit (c : Char) : Bool :=
  (48 ≤ c.toNat && c.toNat ≤ 57) || (65 ≤ c.toNat && c.toNat ≤ 70) ||
    (97 ≤ c.toNat && c.toNat ≤ 102)

def hexDigit (c : Char) : Nat :=
  if c.toNat ≤ 57 then c.toNat - 48 else if c.toNat ≤ 70 then c.toNat - 55 else c.toNat - 87

/-- The number that a row of hexadecimal digits stands for. -/
def hexValue (digits : CString) : Nat := digits.foldl (fun n d => 16 * n + hexDigit d) 0

/-- The digits in base sixteen may stand behind `0x`. -/
def skipHexMark : CString → CString
  | '0' :: x :: d :: rest =>
    if (x = 'x' ∨ x = 'X') ∧ isHexDigit d then d :: rest else '0' :: x :: d :: rest
  | str => str

/-- `strtoull` in base sixteen: the result, and the string from `endp` on. -/
def strtoull (str : CString) : Word × CString :=
  let body := str.dropWhile isspace
  let negative := body.head? = some '-'
  let unsigned := if negative ∨ body.head? = some '+' then body.tail else body
  let digits := (skipHexMark unsigned).takeWhile isHexDigit
  if digits = [] then (0, str)
  else
    (if 2 ^ 64 ≤ hexValue digits then BitVec.allOnes 64
      else if negative then -BitVec.ofNat 64 (hexValue digits)
      else BitVec.ofNat 64 (hexValue digits),
      (skipHexMark unsigned).dropWhile isHexDigit)

section
variable (sp : Word)

/-- What is done with a complete line. -/
def parseLine (line : CString) : Option (Word × Word) :=
  let (start, endp) := strtoull line
  if endp = line ∨ endp.head? ≠ some '-' then none
  else
    let p := endp.tail
    let (stop, endp) := strtoull p
    if endp = p then none
    else if start ≤ sp ∧ sp < stop then some (start, stop)
    else none

/-- `sizeof (line) - 1`. -/
def lineMax : Nat := 255

/-- The loop over one buffer: a hit, or the part of a line that is carried over. -/
def scanBuf : CString → CString → Option (Word × Word) × CString
  | line, [] => (none, line)
  | line, c :: buf =>
    if c ≠ '\n' then scanBuf (if line.length < lineMax then line ++ [c] else line) buf
    else
      match parseLine sp line with
      | some range => (some range, [])
      | none => scanBuf [] buf

/-- The loop over the results of `read`, which is empty at the end of the file. -/
def readLoop : CString → List CString → Option (Word × Word)
  | _, [] => none
  | line, buf :: reads =>
    if buf = [] then none
    else
      match scanBuf sp line buf with
      | (some range, _) => some range
      | (none, line) => readLoop line reads

/-- The range of the mapping, when the file could be opened and a line was found. -/
def umemMapsFindSp (reads : List CString) : Option (Word × Word) := readLoop sp [] reads

theorem scanBuf_append (line a b : CString) :
    scanBuf sp line (a ++ b) =
      match scanBuf sp line a with
      | (some range, line) => (some range, line)
      | (none, line) => scanBuf sp line b := by
  induction a generalizing line with
  | nil => rfl
  | cons c a ih =>
    rw [cons_append, scanBuf, scanBuf]
    split
    · exact ih _
    · cases parseLine sp line with
      | none => exact ih _
      | some range => rfl

theorem readLoop_eq {reads : List CString} (h : ∀ buf ∈ reads, buf ≠ []) (line : CString) :
    readLoop sp line reads = (scanBuf sp line reads.flatten).1 := by
  induction reads generalizing line with
  | nil => rfl
  | cons buf reads ih =>
    have ih := ih fun b hb => h b (mem_cons_of_mem buf hb)
    rw [readLoop, if_neg (h buf mem_cons_self), flatten_cons, scanBuf_append]
    cases scanBuf sp line buf with
    | mk hit rest =>
      cases hit with
      | some range => rfl
      | none => exact ih rest

theorem scanBuf_line {cs : CString} (h : '\n' ∉ cs) (line rest : CString)
    (hline : line.length ≤ lineMax) :
    scanBuf sp line (cs ++ rest) = scanBuf sp ((line ++ cs).take lineMax) rest := by
  induction cs generalizing line with
  | nil => rw [nil_append, append_nil, take_of_length_le hline]
  | cons c cs ih =>
    have hc : c ≠ '\n' := fun hc => h (hc ▸ mem_cons_self)
    have ih := ih fun hmem => h (mem_cons_of_mem c hmem)
    rw [cons_append, scanBuf, if_pos hc]
    split
    · rename_i hlt
      rw [ih _ (by rw [length_append, length_singleton]; omega), append_assoc, singleton_append]
    · rename_i hfull
      have hlen : line.length = lineMax := by omega
      rw [ih _ hline, take_append_of_le_length (by omega), take_append_of_le_length (by omega)]

end

/-- A line of the file: two addresses in hexadecimal with a hyphen between them, and more behind a
blank. -/
structure MapsLine where
  startDigits : CString
  endDigits : CString
  rest : CString
  start_ne : startDigits ≠ []
  end_ne : endDigits ≠ []
  start_hex : ∀ c ∈ startDigits, isHexDigit c = true
  end_hex : ∀ c ∈ endDigits, isHexDigit c = true
  start_length : startDigits.length ≤ 16
  end_length : endDigits.length ≤ 16
  rest_newline : '\n' ∉ rest

namespace MapsLine
variable (line : MapsLine)

def text : CString := line.startDigits ++ '-' :: (line.endDigits ++ ' ' :: line.rest)

def start : Word := BitVec.ofNat 64 (hexValue line.startDigits)

def stop : Word := BitVec.ofNat 64 (hexValue line.endDigits)

def Contains (sp : Word) : Prop := line.start ≤ sp ∧ sp < line.stop

instance (sp : Word) : Decidable (line.Contains sp) := inferInstanceAs (Decidable (_ ∧ _))

end MapsLine

section

theorem hexDigit_lt {c : Char} (h : isHexDigit c = true) : hexDigit c < 16 := by
  simp only [isHexDigit, Bool.or_eq_true, Bool.and_eq_true, decide_eq_true_eq] at h
  unfold hexDigit
  split
  · omega
  split
  · omega
  · omega

theorem foldl_hexDigit_lt {digits : CString} (h : ∀ c ∈ digits, isHexDigit c = true) (n : Nat) :
    digits.foldl (fun n d => 16 * n+hexDigit d) n < (n+1) * 16^digits.length := by
  induction digits generalizing n with
  | nil => simp
  | cons d digits ih =>
    have hd := hexDigit_lt (h d mem_cons_self)
    have hlt := ih (fun c hc => h c (mem_cons_of_mem d hc)) (16 * n+hexDigit d)
    rw [foldl_cons, length_cons, Nat.pow_succ]
    calc digits.foldl (fun n d => 16 * n+hexDigit d) (16 * n+hexDigit d)
        < (16 * n+hexDigit d+1) * 16^digits.length := hlt
      _ ≤ (16 * (n+1)) * 16^digits.length := Nat.mul_le_mul_right _ (by omega)
      _ = (n+1) * (16^digits.length * 16) := by ring

theorem hexValue_lt {digits : CString} (h : ∀ c ∈ digits, isHexDigit c = true)
    (hlength : digits.length≤16) : hexValue digits < 2^64 := by
  have hlt := foldl_hexDigit_lt h 0
  calc hexValue digits < (0+1) * 16^digits.length := hlt
    _ = 16^digits.length := by rw [Nat.zero_add, Nat.one_mul]
    _ ≤ 16^16 := Nat.pow_le_pow_right (by norm_num) hlength
    _ = 2^64 := by norm_num

theorem ne_of_isHexDigit {c d : Char} (h : isHexDigit c = true) (hd : isHexDigit d = false) :
    c ≠ d := by
  rintro rfl
  rw [h] at hd
  cases hd

theorem isspace_eq_false_of_isHexDigit {c : Char} (h : isHexDigit c = true) :
    isspace c = false := by
  have hblank := ne_of_isHexDigit h (d := ' ') (by decide)
  simp only [isHexDigit, Bool.or_eq_true, Bool.and_eq_true, decide_eq_true_eq] at h
  simp only [isspace, hblank, decide_false, Bool.false_or, Bool.and_eq_false_iff,
    decide_eq_false_iff_not]
  right
  omega

theorem skipHexMark_eq {a b : Char} {rest : CString} (h : b ≠ 'x' ∧ b ≠ 'X') :
    skipHexMark (a :: b :: rest) = a :: b :: rest := by
  unfold skipHexMark
  split
  · rename_i x d tail heq
    obtain ⟨rfl, rfl, rfl⟩ : a = '0' ∧ b = x ∧ rest = d :: tail := by simpa using heq
    rw [if_neg]
    rintro ⟨hx, -⟩
    exact hx.elim h.1 h.2
  · rfl

theorem strtoull_digits {digits rest : CString} {c : Char} (hne : digits ≠ [])
    (hdigits : ∀ d ∈ digits, isHexDigit d = true) (hlength : digits.length≤16)
    (hc : isHexDigit c = false) (hx : c ≠ 'x' ∧ c ≠ 'X') :
    strtoull (digits ++ c :: rest) = (BitVec.ofNat 64 (hexValue digits), c :: rest) := by
  have hmark : skipHexMark (digits ++ c :: rest) = digits ++ c :: rest := by
    match digits, hne, hdigits with
    | [d], _, _ => exact skipHexMark_eq hx
    | d :: d' :: digits, _, hdigits =>
      have hd' := hdigits d' (by simp)
      exact skipHexMark_eq ⟨ne_of_isHexDigit hd' (by decide), ne_of_isHexDigit hd' (by decide)⟩
  have htake : (digits ++ c :: rest).takeWhile isHexDigit = digits := by
    rw [takeWhile_append, takeWhile_eq_self_iff.mpr hdigits, if_pos rfl,
      takeWhile_cons_of_neg (by simp [hc]), append_nil]
  have hdrop : (digits ++ c :: rest).dropWhile isHexDigit = c :: rest := by
    rw [dropWhile_append, dropWhile_eq_nil_iff.mpr hdigits]
    simp [hc]
  cases digits with
  | nil => exact absurd rfl hne
  | cons d digits =>
    have hd := hdigits d mem_cons_self
    have hminus := ne_of_isHexDigit hd (d := '-') (by decide)
    have hplus := ne_of_isHexDigit hd (d := '+') (by decide)
    have hbody : (d :: digits ++ c :: rest).dropWhile isspace = d :: digits ++ c :: rest := by
      rw [cons_append, dropWhile_cons_of_neg]
      simp [isspace_eq_false_of_isHexDigit hd]
    have hhead : (d :: digits ++ c :: rest).head? = some d := rfl
    have hlt : ¬2^64 ≤ hexValue (d :: digits) := not_le.mpr (hexValue_lt hdigits hlength)
    unfold strtoull
    simp only [hbody, hhead, Option.some.injEq, hminus, hplus, or_self, if_false, hmark, htake,
      hdrop, reduceCtorEq, hlt]

variable (line : MapsLine) (sp : Word)

theorem text_newline : '\n' ∉ line.text := by
  have hdigits (digits : CString) (h : ∀ c ∈ digits, isHexDigit c = true) : '\n' ∉ digits :=
    fun hmem => absurd (h _ hmem) (by decide)
  simp only [MapsLine.text, mem_append, mem_cons, not_or]
  exact ⟨hdigits _ line.start_hex, by decide, hdigits _ line.end_hex, by decide, line.rest_newline⟩

theorem text_take : ∃ rest, line.text.take lineMax =
    line.startDigits ++ '-' :: (line.endDigits ++ ' ' :: rest) := by
  have hstart := line.start_length
  have hend := line.end_length
  let front := line.startDigits ++ '-' :: (line.endDigits ++ [' '])
  have htext : line.text = front ++ line.rest := by simp [MapsLine.text, front]
  have hfront : front.length ≤ lineMax := by
    simp only [front, lineMax, length_append, length_cons, length_nil]
    omega
  refine ⟨line.rest.take (lineMax-front.length), ?_⟩
  rw [htext, take_append, take_of_length_le hfront]
  simp [front]

theorem parseLine_text : parseLine sp (line.text.take lineMax) =
    if line.Contains sp then some (line.start, line.stop) else none := by
  obtain ⟨rest, hrest⟩ := text_take line
  rw [hrest]
  unfold parseLine
  rw [strtoull_digits line.start_ne line.start_hex line.start_length (by decide) (by decide)]
  have hstart := length_pos_iff.mpr line.start_ne
  have hend := length_pos_iff.mpr line.end_ne
  have hconverted : '-' :: (line.endDigits ++ ' ' :: rest) ≠
      line.startDigits ++ '-' :: (line.endDigits ++ ' ' :: rest) := by
    intro heq
    have hlength := congrArg length heq
    simp only [length_append, length_cons] at hlength
    omega
  have hconverted' : ' ' :: rest ≠ line.endDigits ++ ' ' :: rest := by
    intro heq
    have hlength := congrArg length heq
    simp only [length_append, length_cons] at hlength
    omega
  dsimp only
  rw [if_neg (by simp [hconverted]), tail_cons,
    strtoull_digits line.end_ne line.end_hex line.end_length (by decide) (by decide)]
  dsimp only
  rw [if_neg hconverted']
  rfl

theorem scanBuf_lines (lines : List MapsLine) {fragment : CString} (h : '\n' ∉ fragment) :
    (scanBuf sp [] (lines.flatMap (fun line => line.text ++ ['\n']) ++ fragment)).1 =
      (lines.find? (·.Contains sp)).map fun line => (line.start, line.stop) := by
  induction lines with
  | nil =>
    rw [flatMap_nil, nil_append, ← append_nil fragment, scanBuf_line sp h [] [] (Nat.zero_le _)]
    rfl
  | cons line lines ih =>
    rw [flatMap_cons, append_assoc, append_assoc,
      scanBuf_line sp (text_newline line) [] _ (Nat.zero_le _), nil_append,
      singleton_append, scanBuf, if_neg (by simp), parseLine_text, find?_cons]
    by_cases hcontains : line.Contains sp
    · simp only [if_pos hcontains, decide_eq_true hcontains, Option.map_some]
    · simp only [if_neg hcontains, decide_eq_false hcontains]
      exact ih

end

/-- The text of the file: complete lines, and a last one without a newline. -/
structure MapsText where
  lines : List MapsLine
  fragment : CString
  fragment_newline : '\n' ∉ fragment
  disjoint : lines.Pairwise fun line line' => line.stop ≤ line'.start ∨ line'.stop ≤ line.start

def MapsText.text (maps : MapsText) : CString :=
  maps.lines.flatMap (fun line => line.text ++ ['\n']) ++ maps.fragment

theorem MapsText.find?_eq_some_iff (maps : MapsText) (sp lo hi : Word) :
    (maps.lines.find? (·.Contains sp)).map (fun line => (line.start, line.stop)) = some (lo, hi) ↔
      ∃ line ∈ maps.lines, line.Contains sp ∧ line.start = lo ∧ line.stop = hi := by
  constructor
  · intro h
    obtain ⟨line, hfind, hrange⟩ := Option.map_eq_some_iff.mp h
    cases hrange
    exact ⟨line, mem_of_find?_eq_some hfind, by simpa using find?_some hfind, rfl, rfl⟩
  · rintro ⟨line, hmem, hcontains, rfl, rfl⟩
    cases hfind : maps.lines.find? (·.Contains sp) with
    | none => exact absurd (find?_eq_none.mp hfind line hmem) (by simpa using hcontains)
    | some line' =>
      have hmem' := mem_of_find?_eq_some hfind
      have hcontains' : line'.Contains sp := by simpa using find?_some hfind
      by_cases heq : line = line'
      · rw [heq]
        rfl
      · exfalso
        have : Std.Symm fun line line' : MapsLine =>
            line.stop ≤ line'.start ∨ line'.stop ≤ line.start := ⟨fun _ _ => Or.symm⟩
        have hapart := maps.disjoint.forall hmem hmem' heq
        unfold MapsLine.Contains at hcontains hcontains'
        bv_omega

theorem umemMapsFindSp_eq_some_iff (maps : MapsText) {reads : List CString}
    (htext : reads.flatten = maps.text) (hreads : ∀ buf ∈ reads, buf ≠ []) (sp lo hi : Word) :
    umemMapsFindSp sp reads = some (lo, hi) ↔
      ∃ line ∈ maps.lines, line.Contains sp ∧ line.start = lo ∧ line.stop = hi := by
  rw [umemMapsFindSp, readLoop_eq sp hreads, htext, MapsText.text,
    scanBuf_lines sp maps.lines maps.fragment_newline, maps.find?_eq_some_iff]

end Libumem.Stack
