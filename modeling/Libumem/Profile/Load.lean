import Mathlib

/-!
# Loading a profile

`umem_profile_load` reads each structure of the file straight into the place it has in
`profile_state`, so a structure is modelled by its bytes, with the numbers in it low byte first. A
read that comes up short has still overwritten the front of its buffer.
-/

namespace Libumem.Profile
open Function List

abbrev Bytes := List (BitVec 8)

def number : Bytes → Nat
  | [] => 0
  | b :: l => b.toNat + 256 * number l

/-- The number in the `n` bytes at an offset of a structure. -/
def field (offset n : Nat) (b : Bytes) : Nat := number ((b.drop offset).take n)

/-- A structure of `n` bytes. -/
abbrev Raw (n : Nat) := { b : Bytes // b.length = n }

def umpMagic : Nat := 0x554D5031
def umpVersion : Nat := 1
def umpMaxCaches : Nat := 256
def umpMaxPhases : Nat := 1024

/-- The fields of `ump_file_header_t` that are tested. -/
def magic (hdr : Bytes) : Nat := field 0 4 hdr
def version (hdr : Bytes) : Nat := field 4 4 hdr
def numCaches (hdr : Bytes) : Nat := field 20 4 hdr
def numPhases (hdr : Bytes) : Nat := field 24 4 hdr

structure Phase where
  startMs : Nat
  endMs : Nat
  numCaches : Nat
  snapshots : Raw (24 * umpMaxCaches)

inductive Mode
  | off
  | record
  | use
deriving DecidableEq

structure State where
  mode : Mode
  header : Raw 32
  caches : Nat → Raw 80
  phases : Nat → Phase

def overwrite {n : Nat} (buf : Raw n) (x : Bytes) : Raw n :=
  ⟨(x ++ buf.1.drop x.length).take n, by
    have := buf.2
    simp only [length_take, length_append, length_drop]
    omega⟩

/-- `read` of `m` bytes into a buffer: whether all came, the buffer, and what is left of the file. -/
def read {n : Nat} (m : Nat) (buf : Raw n) (file : Bytes) : Bool × Raw n × Bytes :=
  (m ≤ file.length, overwrite buf (file.take m), file.drop m)

/-- A loop that reads `k` records into the slots from `i` on. -/
def readAll {σ : Type} (item : σ → Bytes → Bool × σ × Bytes) :
    Nat → Nat → (Nat → σ) → Bytes → Bool × (Nat → σ) × Bytes
  | 0, _, slots, file => (true, slots, file)
  | k + 1, i, slots, file =>
    let r := item (slots i) file
    let slots := update slots i r.2.1
    if r.1 then readAll item k (i + 1) slots r.2.2 else (false, slots, r.2.2)

def readPhase (ph : Phase) (file : Bytes) : Bool × Phase × Bytes :=
  if file.length < 12 then (false, ph, [])
  else
    let ph := { ph with
      startMs := field 0 4 file, endMs := field 4 4 file, numCaches := field 8 4 file }
    if umpMaxCaches < ph.numCaches then (false, ph, file.drop 12)
    else
      let r := read (24 * ph.numCaches) ph.snapshots (file.drop 12)
      (r.1, { ph with snapshots := r.2.1 }, r.2.2)

def umemProfileLoad (s : State) (file : Bytes) : Bool × State :=
  let r := read 32 s.header file
  let s := { s with header := r.2.1 }
  if !r.1 then (false, s)
  else if magic s.header.1 ≠ umpMagic ∨ version s.header.1 ≠ umpVersion then (false, s)
  else if umpMaxCaches < numCaches s.header.1 ∨ umpMaxPhases < numPhases s.header.1 then (false, s)
  else
    let c := readAll (read 80) (numCaches s.header.1) 0 s.caches r.2.2
    let s := { s with caches := c.2.1 }
    if !c.1 then (false, s)
    else
      let p := readAll readPhase (numPhases s.header.1) 0 s.phases c.2.2
      (p.1, { s with phases := p.2.1 })

def zeros (n : Nat) : Raw n := ⟨List.replicate n 0, by simp⟩

def cleared : State := ⟨.use, zeros 32, fun _ => zeros 80, fun _ => ⟨0, 0, 0, zeros _⟩⟩

/-- `umem_profile_init` with `use:`, where the state is cleared and the mode set before the file is
loaded, and the mode goes back to off when that fails. -/
def umemProfileInit (file : Bytes) : Bool × State :=
  let r := umemProfileLoad cleared file
  if r.1 then r else (false, { r.2 with mode := .off })

/-- What `umem_profile_dump_text` prints from: the header, the records of the caches, and the phases
with as many snapshots as there are names for. -/
structure Printed where
  header : Bytes
  caches : List Bytes
  phases : List (Nat × Nat × Nat × Bytes)

def printPhase (numCaches : Nat) (ph : Phase) : Nat × Nat × Nat × Bytes :=
  (ph.startMs, ph.endMs, ph.numCaches, ph.snapshots.1.take (24 * min ph.numCaches numCaches))

def State.records (s : State) : List Bytes :=
  (List.range (numCaches s.header.1)).map fun i => (s.caches i).1

def umemProfileDumpText (s : State) : Option Printed :=
  if magic s.header.1 ≠ umpMagic then none
  else some ⟨s.header.1, s.records,
    (List.range (numPhases s.header.1)).map fun i =>
      printPhase (numCaches s.header.1) (s.phases i)⟩

/-- The record that is found for a cache. Which records have its name is a parameter. -/
def umemProfileApplyCache (s : State) (named : Bytes → Bool) (bufsize : Nat) :
    Option (Option Bytes) :=
  if s.mode ≠ .use then none
  else some ((s.records.find? named).or (s.records.find? fun r => field 32 8 r == bufsize))

/-- The phase that is found to be the present one, with the one that comes next. Which phases match
the rates is a parameter. -/
def umemProfileCheckPhase (s : State) (matching : Phase → Bool) :
    Option (Option (Nat × Option Phase)) :=
  if s.mode ≠ .use then none
  else some (((List.range (numPhases s.header.1)).find? fun i => matching (s.phases i)).map fun i =>
    (i, if i + 1 < numPhases s.header.1 then some (s.phases (i + 1)) else none))

/-- The operations cannot tell two states apart. -/
def Same (s t : State) : Prop :=
  umemProfileDumpText s = umemProfileDumpText t ∧
    (∀ named bufsize, umemProfileApplyCache s named bufsize = umemProfileApplyCache t named bufsize) ∧
    ∀ matching, umemProfileCheckPhase s matching = umemProfileCheckPhase t matching

/-- What a file encodes. A phase is its header of three numbers and then its snapshots. -/
structure Encoded where
  header : Bytes
  caches : List Bytes
  phases : List Bytes

namespace Encoded

def bytes (p : Encoded) : Bytes := p.header ++ p.caches.flatten ++ p.phases.flatten

def IsPhase (x : Bytes) : Prop := field 8 4 x ≤ umpMaxCaches ∧ x.length = 12 + 24 * field 8 4 x

structure WellFormed (p : Encoded) : Prop where
  header : p.header.length = 32
  magic : magic p.header = umpMagic
  version : version p.header = umpVersion
  caches : p.caches.length = numCaches p.header ∧ p.caches.length ≤ umpMaxCaches
  phases : p.phases.length = numPhases p.header ∧ p.phases.length ≤ umpMaxPhases
  records : ∀ x ∈ p.caches, x.length = 80
  snapshots : ∀ x ∈ p.phases, IsPhase x

/-- The profile has been loaded. -/
def Loaded (p : Encoded) (s : State) : Prop :=
  s.header.1 = p.header ∧ (∀ i x, p.caches[i]? = some x → (s.caches i).1 = x) ∧
    ∀ i x, p.phases[i]? = some x → (s.phases i).startMs = field 0 4 x ∧
      (s.phases i).endMs = field 4 4 x ∧ (s.phases i).numCaches = field 8 4 x ∧
      (s.phases i).snapshots.1.take (24 * field 8 4 x) = x.drop 12

end Encoded

theorem overwrite_full {n : Nat} (buf : Raw n) {x : Bytes} (hx : x.length = n) :
    overwrite buf x = ⟨x, hx⟩ := by
  apply Subtype.ext
  subst hx
  simp [overwrite]

theorem overwrite_nil {n : Nat} (buf : Raw n) : overwrite buf [] = buf := by
  apply Subtype.ext
  simp [overwrite, buf.2.le]

theorem read_append {n m : Nat} (buf : Raw n) {x : Bytes} (hx : x.length = m) (rest : Bytes) :
    read m buf (x ++ rest) = (true, overwrite buf x, rest) := by
  subst hx
  simp [read]

theorem field_append {offset n : Nat} {x : Bytes} (hx : offset+n ≤ x.length) (rest : Bytes) :
    field offset n (x ++ rest) = field offset n x := by
  rw [field, field, drop_append_of_le_length (by omega), take_append_of_le_length]
  simp only [length_drop]
  omega

section
variable {σ : Type} {item : σ → Bytes → Bool × σ × Bytes} (Good : Bytes → Prop)

theorem readAll_append (put : σ → Bytes → σ)
    (hitem : ∀ old x rest, Good x → item old (x ++ rest) = (true, put old x, rest)) (l : List Bytes)
    (hl : ∀ x ∈ l, Good x) (i : Nat) (slots : Nat → σ) (rest : Bytes) :
    ∃ slots', readAll item l.length i slots (l.flatten ++ rest) = (true, slots', rest) ∧
      (∀ j < i, slots' j = slots j) ∧
      ∀ j x, l[j]? = some x → ∃ old, slots' (i+j) = put old x := by
  induction l generalizing i slots with
  | nil => exact ⟨slots, rfl, fun _ _ => rfl, by simp⟩
  | cons x l ih =>
    obtain ⟨slots', hrun, hlow, hhigh⟩ := ih (fun y hy => hl y (by simp [hy])) (i+1)
      (update slots i (put (slots i) x))
    refine ⟨slots', ?_, fun j hj => ?_, fun j y hy => ?_⟩
    · simp only [length_cons, flatten_cons, append_assoc, readAll,
        hitem _ x _ (hl x (by simp)), if_true, hrun]
    · rw [hlow j (by omega), update_of_ne (by omega)]
    · cases j with
      | zero =>
        obtain rfl : x = y := by simpa using hy
        exact ⟨slots i, by rw [Nat.add_zero, hlow i (by omega), update_self]⟩
      | succ j =>
        rw [Nat.add_comm j, ← Nat.add_assoc]
        exact hhigh j y (by simpa using hy)

theorem readAll_split
    (hitem : ∀ old file, (item old file).1 = true → ∃ x, Good x ∧ x ++ (item old file).2.2 = file)
    {k i : Nat} {slots : Nat → σ} {file : Bytes} (h : (readAll item k i slots file).1 = true) :
    ∃ l : List Bytes, l.length = k ∧ (∀ x ∈ l, Good x) ∧
      l.flatten ++ (readAll item k i slots file).2.2 = file := by
  induction k generalizing i slots file with
  | zero => exact ⟨[], rfl, by simp, rfl⟩
  | succ k ih =>
    rw [readAll] at h ⊢
    split at h
    case isFalse => cases h
    case isTrue hr =>
      rw [if_pos hr]
      obtain ⟨x, hx, hfile⟩ := hitem _ _ hr
      obtain ⟨l, hlen, hl, hrest⟩ := ih h
      refine ⟨x :: l, by simp [hlen], by simpa using ⟨hx, hl⟩, ?_⟩
      rw [flatten_cons, append_assoc, hrest, hfile]

end

theorem read_split {n m : Nat} {buf : Raw n} {file : Bytes} (h : (read m buf file).1 = true) :
    ∃ x, x.length = m ∧ x ++ (read m buf file).2.2 = file := by
  have hle : m ≤ file.length := of_decide_eq_true h
  exact ⟨file.take m, by simp [hle], take_append_drop m file⟩

theorem readPhase_append (ph : Phase) {x : Bytes} (hx : Encoded.IsPhase x) (rest : Bytes) :
    readPhase ph (x ++ rest) = (true,
      ⟨field 0 4 x, field 4 4 x, field 8 4 x, overwrite ph.snapshots (x.drop 12)⟩, rest) := by
  obtain ⟨hn, hlen⟩ := hx
  have hread := read_append ph.snapshots (x := x.drop 12) (m := 24 * field 8 4 x)
    (by rw [length_drop]; omega) rest
  have hdrop : (x ++ rest).drop 12 = x.drop 12 ++ rest :=
    drop_append_of_le_length (by omega)
  have hlong : ¬(x ++ rest).length < 12 := by
    rw [length_append]
    omega
  simp only [readPhase, if_neg hlong, field_append (show 0+4 ≤ x.length by omega),
    field_append (show 4+4 ≤ x.length by omega), field_append (show 8+4 ≤ x.length by omega),
    if_neg (Nat.not_lt.mpr hn), hdrop, hread]

theorem readPhase_split {ph : Phase} {file : Bytes} (h : (readPhase ph file).1 = true) :
    ∃ x, Encoded.IsPhase x ∧ x ++ (readPhase ph file).2.2 = file := by
  unfold readPhase at h ⊢
  dsimp only at h ⊢
  split at h
  case isTrue => cases h
  case isFalse hlong =>
    rw [if_neg hlong]
    split at h
    case isTrue => cases h
    case isFalse hn =>
      rw [if_neg hn]
      obtain ⟨y, hy, hfile⟩ := read_split h
      have hx : (file.take 12).length = 12 := by
        rw [length_take]
        omega
      have hfield : field 8 4 (file.take 12 ++ y) = field 8 4 file := by
        rw [field_append (by omega)]
        nth_rewrite 2 [← take_append_drop 12 file]
        rw [field_append (by omega)]
      refine ⟨file.take 12 ++ y, ⟨by omega, ?_⟩, ?_⟩
      · rw [hfield, length_append, hx, hy]
      · rw [append_assoc, hfile, take_append_drop]

variable {s : State} {file : Bytes}

theorem umemProfileLoad_frame : (umemProfileLoad s file).2.mode = s.mode ∧
    (umemProfileLoad s file).2.header = overwrite s.header (file.take 32) := by
  unfold umemProfileLoad
  dsimp only
  split_ifs <;> exact ⟨rfl, rfl⟩

theorem umemProfileLoad_short (h : file.length < 32) :
    umemProfileLoad s file = (false, { s with header := overwrite s.header (file.take 32) }) := by
  have hread : (read 32 s.header file).1 = false := decide_eq_false (Nat.not_le.mpr h)
  simp only [umemProfileLoad, hread, Bool.not_false, if_true]
  rfl

theorem umemProfileLoad_encoded {p : Encoded} (hp : p.WellFormed) (h : p.bytes <+: file) :
    (umemProfileLoad s file).1 = true ∧ p.Loaded (umemProfileLoad s file).2 := by
  obtain ⟨rest, rfl⟩ := h
  obtain ⟨caches, hcaches, -, hc⟩ := readAll_append (·.length = 80) overwrite
    (fun old x rest hx => read_append old hx rest) p.caches hp.records 0 s.caches
    (p.phases.flatten ++ rest)
  obtain ⟨phases, hphases, -, hph⟩ := readAll_append Encoded.IsPhase _
    (fun ph x rest hx => readPhase_append ph hx rest) p.phases hp.snapshots 0 s.phases rest
  have hload : umemProfileLoad s (p.bytes ++ rest) =
      (true, ⟨s.mode, ⟨p.header, hp.header⟩, caches, phases⟩) := by
    simp only [umemProfileLoad, Encoded.bytes, append_assoc, read_append s.header hp.header,
      overwrite_full s.header hp.header, hp.magic, hp.version, ← hp.caches.1, ← hp.phases.1,
      Nat.not_lt.mpr hp.caches.2, Nat.not_lt.mpr hp.phases.2, hcaches, hphases]
    simp
  rw [hload]
  refine ⟨rfl, rfl, fun i x hx => ?_, fun i x hx => ?_⟩
  · obtain ⟨old, hold⟩ := hc i x hx
    rw [Nat.zero_add, overwrite_full old (hp.records x (mem_of_getElem? hx))] at hold
    exact congrArg Subtype.val hold
  · obtain ⟨old, hold⟩ := hph i x hx
    rw [Nat.zero_add] at hold
    obtain ⟨hn, hlen⟩ := hp.snapshots x (mem_of_getElem? hx)
    dsimp only
    rw [hold]
    refine ⟨rfl, rfl, rfl, ?_⟩
    have hdrop : (x.drop 12).length = 24 * field 8 4 x := by
      rw [length_drop]
      omega
    simp only [overwrite, take_take]
    rw [Nat.min_eq_left (by omega), ← hdrop, take_left]

theorem exists_encoded (h : (umemProfileLoad s file).1 = true) :
    ∃ p : Encoded, p.WellFormed ∧ p.bytes <+: file := by
  unfold umemProfileLoad at h
  dsimp only at h
  split_ifs at h with hread hmagic hbound hcaches
  obtain ⟨hdr, hlen, hfile⟩ := read_split (by simpa using hread)
  have hhdr : (read 32 s.header file).2.1.1 = hdr := by
    rw [← hfile, read_append _ hlen, overwrite_full _ hlen]
  rw [hhdr] at hmagic hbound hcaches h
  obtain ⟨caches, hclen, hrecords, hcfile⟩ := readAll_split _ (fun _ _ hr => read_split hr)
    (by simpa using hcaches)
  obtain ⟨phases, hplen, hphases, hpfile⟩ := readAll_split _ (fun _ _ hr => readPhase_split hr)
    h
  have hrest := (congrArg (caches.flatten ++ ·) hpfile).trans hcfile
  have hall := (congrArg (hdr ++ ·) hrest).trans hfile
  rw [← append_assoc, ← append_assoc] at hall
  push Not at hmagic hbound
  refine ⟨⟨hdr, caches, phases⟩, ⟨hlen, hmagic.1, hmagic.2, ⟨hclen, hclen.trans_le hbound.1⟩,
    ⟨hplen, hplen.trans_le hbound.2⟩, hrecords, hphases⟩, ⟨_, hall⟩⟩

/-- How a file comes to be loaded. -/
inductive Entry
  | load (s : State)
  | init

def Entry.before : Entry → State
  | .load s => s
  | .init => cleared

def Entry.run (e : Entry) (file : Bytes) : Bool × State :=
  match e with
  | .load s => umemProfileLoad s file
  | .init => umemProfileInit file

/-- The header that is in the state when the first read is done. -/
def Entry.headerRead (e : Entry) (file : Bytes) : Raw 32 := overwrite e.before.header (file.take 32)

/-- There is no profile to begin with. -/
def Entry.Vacant (e : Entry) : Prop :=
  magic e.before.header.1 ≠ umpMagic ∧ ∀ s, e = .load s → s.mode ≠ .use

/-- What comes later goes as if the file had been empty. -/
def Entry.Unused (e : Entry) (file : Bytes) : Prop := Same (e.run file).2 (e.run []).2

namespace Entry
variable {e : Entry}

theorem run_spec (e : Entry) (file : Bytes) :
    (e.run file).1 = (umemProfileLoad e.before file).1 ∧
    ((e.run file).1 = true → (e.run file).2 = (umemProfileLoad e.before file).2) ∧
    ((e.run file).1 = false → (e.run file).2.header = e.headerRead file ∧
      ((∀ s, e = .load s → s.mode ≠ .use) → (e.run file).2.mode ≠ .use)) := by
  obtain ⟨hmode, hheader⟩ := @umemProfileLoad_frame e.before file
  cases e with
  | load s =>
    rw [before] at hmode hheader
    simp [run, before, headerRead, hmode, hheader]
  | init =>
    by_cases hr : (umemProfileLoad cleared file).1 = true
    · simp [run, umemProfileInit, before, hr]
    · simpa [run, umemProfileInit, before, headerRead, hr] using hheader

theorem run_short (h : file.length < 32) (heq : e.headerRead file = e.before.header) :
    (e.run file).2 = (e.run []).2 := by
  have hnil (s : State) : umemProfileLoad s [] = _ := umemProfileLoad_short (by decide)
  rw [headerRead] at heq
  cases e with
  | load s =>
    rw [before] at heq
    simp [run, umemProfileLoad_short h, hnil, heq, overwrite_nil]
  | init =>
    rw [before] at heq
    simp [run, umemProfileInit, umemProfileLoad_short h, hnil, heq, overwrite_nil]

theorem run_nil (e : Entry) : (e.run []).1 = false ∧ e.headerRead [] = e.before.header := by
  have hshort : umemProfileLoad e.before [] = _ := umemProfileLoad_short (by decide)
  exact ⟨by rw [(e.run_spec []).1, hshort], overwrite_nil _⟩

theorem unused_iff (hv : e.Vacant) (hr : (e.run file).1 = false) :
    e.Unused file ↔ magic (e.headerRead file).1 ≠ umpMagic := by
  obtain ⟨hheader, hmode⟩ := (e.run_spec file).2.2 hr
  obtain ⟨hheader', hmode'⟩ := (e.run_spec []).2.2 e.run_nil.1
  rw [e.run_nil.2] at hheader'
  simp [Unused, Same, umemProfileDumpText, umemProfileApplyCache, umemProfileCheckPhase, hheader,
    hheader', hmode hv.2, hmode' hv.2, hv.1]

theorem headerRead_of_unused (hr : (e.run file).1 = false)
    (hmagic : magic e.before.header.1 = umpMagic) (h : e.Unused file) :
    e.headerRead file = e.before.header := by
  obtain ⟨hheader, -⟩ := (e.run_spec file).2.2 hr
  obtain ⟨hheader', -⟩ := (e.run_spec []).2.2 e.run_nil.1
  have hdump := h.1
  rw [e.run_nil.2] at hheader'
  rw [umemProfileDumpText, umemProfileDumpText, hheader, hheader',
    if_neg (not_not.mpr hmagic)] at hdump
  split at hdump
  · cases hdump
  · exact Subtype.ext (congrArg Printed.header (Option.some.inj hdump))

end Entry

/-- A file is accepted if it begins with a profile, which is loaded then. After one that is not, and
with no profile from before, the later operations use something of it exactly if the header that was
read has the magic number. With a profile from before they use no file that ends in the header and
agrees with the one that is there, and every file with another header. -/
theorem profile_left_behind (e : Entry) (file : Bytes) :
    ((e.run file).1 = true ↔ ∃ p : Encoded, p.WellFormed ∧ p.bytes <+: file) ∧
    (∀ p : Encoded, p.WellFormed → p.bytes <+: file → p.Loaded (e.run file).2) ∧
    ((e.run file).1 = false →
      (e.Vacant → (e.Unused file ↔ magic (e.headerRead file).1 ≠ umpMagic)) ∧
      (file.length < 32 → e.headerRead file = e.before.header → e.Unused file) ∧
      (magic e.before.header.1 = umpMagic → e.Unused file →
        e.headerRead file = e.before.header)) := by
  obtain ⟨hret, hsame, -⟩ := e.run_spec file
  have haccepted : (e.run file).1 = true ↔ ∃ p : Encoded, p.WellFormed ∧ p.bytes <+: file := by
    rw [hret]
    exact ⟨exists_encoded, fun ⟨_, hp, hfile⟩ => (umemProfileLoad_encoded hp hfile).1⟩
  refine ⟨haccepted, fun p hp hfile => ?_, fun hr => ⟨fun hv => Entry.unused_iff hv hr, ?_, ?_⟩⟩
  · rw [hsame (haccepted.mpr ⟨p, hp, hfile⟩)]
    exact (umemProfileLoad_encoded hp hfile).2
  · intro hshort heq
    rw [Entry.Unused, Entry.run_short hshort heq]
    exact ⟨rfl, fun _ _ => rfl, fun _ => rfl⟩
  · exact Entry.headerRead_of_unused hr

/-- A header with the right magic number and version, and more caches than there is room for. -/
def tooMany : Bytes :=
  [0x31, 0x50, 0x4D, 0x55, 1, 0, 0, 0] ++ List.replicate 12 0 ++ [0xff, 0xff, 0xff, 0xff] ++
    List.replicate 8 0

theorem tooMany_used : Entry.init.Vacant ∧ (umemProfileInit tooMany).1 = false ∧
    (umemProfileDumpText (umemProfileInit tooMany).2).map (·.caches.length) = some (2 ^ 32 - 1) ∧
    ¬Entry.init.Unused tooMany := by
  have hvacant : Entry.init.Vacant := ⟨by decide +kernel, by simp⟩
  have hret : (umemProfileInit tooMany).1 = false := by decide +kernel
  have hmagic : magic (umemProfileInit tooMany).2.header.1 = umpMagic := by decide +kernel
  have hcaches : numCaches (umemProfileInit tooMany).2.header.1 = 2 ^ 32-1 := by decide +kernel
  refine ⟨hvacant, hret, ?_, fun h => ?_⟩
  · simp [umemProfileDumpText, State.records, hmagic, hcaches]
  · exact absurd ((Entry.unused_iff hvacant hret).mp h) (by decide +kernel)

end Libumem.Profile
