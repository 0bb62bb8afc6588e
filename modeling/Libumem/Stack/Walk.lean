import Libumem.Stack.Maps

/-!
# The walk over the frames

`getpcstack` follows the chain of frame pointers on x86: a frame holds the pointer to the next one
and the return address behind it. Whatever memory holds, the walk ends, since the pointers have to
grow, and it reads inside the stack of the thread when its range is known.
-/

namespace Libumem.Stack
open List Arith
open Libumem.Env (CString)

/-- What a walk has done: the frames it has read, the return addresses it has stored, and the first
one of the library itself. -/
structure Trace where
  frames : List Word
  pcstack : List Word
  firstInternal : Word
  deriving DecidableEq, Repr

/-- `UMEM_NINTERNAL`. -/
def umemNinternal : Nat := 4

/-- Whether the address lies in a registered part of the library. -/
def umemPcInternal (umemInternal : List (Word × Word)) (pc : Word) : Bool :=
  ((umemInternal.take umemNinternal).takeWhile fun range => range.2 ≠ 0).any fun range =>
    range.1 ≤ pc && pc < range.2

def umemFrameReadable (bounds : Option (Word × Word)) (ceiling fp : Word) : Bool :=
  match bounds with
  | some (lo, hi) => 16 ≤ hi && lo ≤ fp && fp ≤ hi - 16
  | none => fp < ceiling

section
variable (mem : Word → Word) (internal readable : Word → Bool) (pcstackLimit : Int)

/-- The second word of a frame. -/
def returnAddress (fp : Word) : Word := mem (fp + 8)

/-- The tests in front of the reads of a frame. -/
def walkable (depth : Nat) (fp : Word) : Bool :=
  depth < pcstackLimit && fp ≠ 0 && fp &&& 7 = 0 && readable fp

/-- What one frame adds to the return addresses. -/
def record (pc : Word) (pcstack : List Word) : List Word :=
  if pcstack ≠ [] ∨ internal pc = false then pcstack ++ [pc] else pcstack

/-- The first return address of the library, after one frame. -/
def recordInternal (pc : Word) (pcstack : List Word) (firstInternal : Word) : Word :=
  if pcstack ≠ [] ∨ internal pc = false then firstInternal
  else if firstInternal = 0 then pc else firstInternal

/-- The loop of `getpcstack`. -/
def walk (fp : Word) (pcstack : List Word) (firstInternal : Word) : Trace :=
  if walkable readable pcstackLimit pcstack.length fp then
    let nextfp := mem fp
    let pcs := record internal (returnAddress mem fp) pcstack
    let first := recordInternal internal (returnAddress mem fp) pcstack firstInternal
    if _h : fp < nextfp then
      let rest := walk nextfp pcs first
      { rest with frames := fp :: rest.frames }
    else ⟨[fp], pcs, first⟩
  else ⟨[], pcstack, firstInternal⟩
termination_by 2 ^ 64 - fp.toNat
decreasing_by
  have hlt : fp.toNat < (mem fp).toNat := _h
  change 2 ^ 64 - (mem fp).toNat < 2 ^ 64 - fp.toNat
  omega

variable {mem internal readable pcstackLimit} {fp : Word} {pcstack : List Word}
  {firstInternal : Word}

theorem walk_stop (h : walkable readable pcstackLimit pcstack.length fp = false) :
    walk mem internal readable pcstackLimit fp pcstack firstInternal =
      ⟨[], pcstack, firstInternal⟩ := by
  rw [walk, if_neg (by simp [h])]

theorem walk_last (h : walkable readable pcstackLimit pcstack.length fp = true)
    (hle : ¬fp < mem fp) :
    walk mem internal readable pcstackLimit fp pcstack firstInternal =
      ⟨[fp], record internal (returnAddress mem fp) pcstack,
        recordInternal internal (returnAddress mem fp) pcstack firstInternal⟩ := by
  rw [walk, if_pos h]
  exact dif_neg hle

theorem walk_next (h : walkable readable pcstackLimit pcstack.length fp = true)
    (hlt : fp < mem fp) :
    walk mem internal readable pcstackLimit fp pcstack firstInternal =
      let rest := walk mem internal readable pcstackLimit (mem fp)
        (record internal (returnAddress mem fp) pcstack)
        (recordInternal internal (returnAddress mem fp) pcstack firstInternal)
      { rest with frames := fp :: rest.frames } := by
  rw [walk, if_pos h]
  exact dif_pos hlt

def Trace.pcs (mem : Word → Word) (t : Trace) : List Word := t.frames.map (returnAddress mem)

/-- The frame that a walk from `fp` would have to read next, unless the pointers stop to grow. -/
def Trace.next (mem : Word → Word) (t : Trace) (fp : Word) : Option Word :=
  match t.frames.getLast? with
  | none => some fp
  | some f => if f < mem f then some (mem f) else none

/-- The return addresses and the first one of the library, after a number of frames. -/
def recordAll (internal : Word → Bool) (pcs : List Word) (r : List Word × Word) : List Word × Word :=
  pcs.foldl (fun r pc => (record internal pc r.1, recordInternal internal pc r.1 r.2)) r

theorem recordAll_of_ne_nil (pcs : List Word) {r : List Word × Word} (h : r.1 ≠ []) :
    recordAll internal pcs r = (r.1 ++ pcs, r.2) := by
  induction pcs generalizing r with
  | nil => exact Prod.ext (append_nil _).symm rfl
  | cons pc pcs ih =>
    have hrecord : record internal pc r.1 = r.1 ++ [pc] := if_pos (.inl h)
    have hkept : recordInternal internal pc r.1 r.2 = r.2 := if_pos (.inl h)
    rw [recordAll, foldl_cons, hrecord, hkept]
    exact (ih (by simp)).trans (by simp)

/-- The leading addresses of the library are left out; when there are no others, the first one that is
not null is remembered. -/
theorem recordAll_nil (pcs : List Word) (first : Word) :
    (recordAll internal pcs ([], first)).1 = pcs.dropWhile internal ∧
      (pcs.dropWhile internal = [] → (recordAll internal pcs ([], first)).2 =
        if first = 0 then (pcs.find? (· ≠ 0)).getD 0 else first) := by
  induction pcs generalizing first with
  | nil => simp [recordAll]
  | cons pc pcs ih =>
    rw [recordAll, foldl_cons]
    cases hinternal : internal pc with
    | true =>
      have hrecord : record internal pc [] = [] := by simp [record, hinternal]
      have hfirst : recordInternal internal pc [] first = if first = 0 then pc else first := by
        simp [recordInternal, hinternal]
      rw [hrecord, hfirst, dropWhile_cons_of_pos hinternal]
      refine ⟨(ih _).1, fun hnil => ((ih _).2 hnil).trans ?_⟩
      by_cases hzero : first = 0
      · rw [if_pos hzero, if_pos hzero, find?_cons]
        by_cases hpc : pc = 0
        · rw [if_pos hpc, decide_eq_false (not_not.mpr hpc)]
        · rw [if_neg hpc, decide_eq_true hpc, Option.getD_some]
      · rw [if_neg hzero, if_neg hzero, if_neg hzero]
    | false =>
      have hrecord : record internal pc [] = [pc] := by simp [record, hinternal]
      rw [hrecord, dropWhile_cons_of_neg (by simp [hinternal])]
      exact ⟨congrArg Prod.fst (recordAll_of_ne_nil pcs (by simp)), by simp⟩

/-- What a walk from `fp` has done. -/
structure Walked (mem : Word → Word) (internal readable : Word → Bool) (pcstackLimit : Int)
    (fp : Word) (r : List Word × Word) (t : Trace) : Prop where
  chain : t.frames.IsChain fun f g => mem f = g ∧ f < g
  start : ∀ f ∈ t.frames.head?, f = fp
  inside : ∀ f ∈ t.frames, readable f = true
  recorded : (t.pcstack, t.firstInternal) = recordAll internal (t.pcs mem) r
  room : r.1.length ≤ pcstackLimit.toNat → t.pcstack.length ≤ pcstackLimit.toNat
  stops : ∀ f ∈ t.next mem fp, walkable readable pcstackLimit t.pcstack.length f = false

theorem next_cons {fp : Word} (hlt : fp < mem fp) (t : Trace) :
    Trace.next mem { t with frames := fp :: t.frames } fp = t.next mem (mem fp) := by
  cases hframes : t.frames with
  | nil => simp [Trace.next, hframes, hlt]
  | cons f rest => simp [Trace.next, hframes, getLast?_cons]

theorem record_room {fp : Word} (h : walkable readable pcstackLimit pcstack.length fp = true)
    (pc : Word) : (record internal pc pcstack).length ≤ pcstackLimit.toNat := by
  simp only [walkable, Bool.and_eq_true, decide_eq_true_eq] at h
  unfold record
  split
  · rw [length_append, length_singleton]
    omega
  · omega

theorem walkable_readable {depth : Nat} {fp : Word}
    (h : walkable readable pcstackLimit depth fp = true) : readable fp = true := by
  simp only [walkable, Bool.and_eq_true] at h
  exact h.2

theorem walk_spec (fp : Word) (pcstack : List Word) (firstInternal : Word) :
    Walked mem internal readable pcstackLimit fp (pcstack, firstInternal)
      (walk mem internal readable pcstackLimit fp pcstack firstInternal) := by
  induction fp, pcstack, firstInternal using
    walk.induct mem internal readable pcstackLimit with
  | case1 fp pcstack firstInternal hwalk nextfp pcs first hlt ih =>
    rw [walk_next hwalk hlt]
    refine ⟨isChain_cons.mpr ⟨fun g hg => ?_, ih.chain⟩, by simp, ?_, ih.recorded, ?_, ?_⟩
    · rw [ih.start g hg]
      exact ⟨rfl, hlt⟩
    · exact forall_mem_cons.mpr ⟨walkable_readable hwalk, ih.inside⟩
    · exact fun _ => ih.room (record_room hwalk _)
    · rw [next_cons hlt]
      exact ih.stops
  | case2 fp pcstack firstInternal hwalk nextfp hle =>
    rw [walk_last hwalk hle]
    refine ⟨isChain_singleton fp, by simp, ?_, rfl, fun _ => record_room hwalk _, ?_⟩
    · exact forall_mem_cons.mpr ⟨walkable_readable hwalk, by simp⟩
    · simpa [Trace.next] using fun hlt => absurd hlt hle
  | case3 fp pcstack firstInternal hwalk =>
    rw [walk_stop (by simpa using hwalk)]
    exact ⟨isChain_nil, by simp, by simp, rfl, id, by simpa [Trace.next] using hwalk⟩

end

/-- The range of the stack that a thread has stored, which is unknown while its end is zero. -/
structure StackCache where
  cachedLo : Word
  cachedHi : Word
  deriving DecidableEq, Repr

def umemStackBounds (sp : Word) (reads : List CString) (cache : StackCache) :
    Option (Word × Word) × StackCache :=
  if cache.cachedHi = 0 then
    match umemMapsFindSp sp reads with
    | some (lo, hi) => if lo < hi then (some (lo, hi), ⟨lo, hi⟩) else (none, cache)
    | none => (none, cache)
  else (some (cache.cachedLo, cache.cachedHi), cache)

/-- One call by a thread: the text of the mappings and the reads that deliver it, the stack pointer
of the lookup, the frame register, the contents of memory and the arguments. -/
structure Call where
  maps : MapsText
  reads : List CString
  reads_text : reads.flatten = maps.text
  reads_ne : ∀ buf ∈ reads, buf ≠ []
  sp : Word
  fp : Word
  mem : Word → Word
  pcstackLimit : Int
  checkSigthread : Bool

/-- The bounds of a call, its trace, and what the thread has stored behind it. -/
structure Outcome where
  bounds : Option (Word × Word)
  trace : Trace
  cache : StackCache

/-- The entry that is kept when the walk never left the library. -/
def keepInternal (pcstackLimit : Int) (t : Trace) : Trace :=
  if t.pcstack = [] ∧ t.firstInternal ≠ 0 ∧ 0 < pcstackLimit then
    { t with pcstack := [t.firstInternal] }
  else t

def getpcstack (umemInternal : List (Word × Word)) (cache : StackCache) (call : Call) : Outcome :=
  if call.checkSigthread then ⟨none, ⟨[], [], 0⟩, cache⟩
  else
    let (bounds, cache) := umemStackBounds call.sp call.reads cache
    let fpCeiling := call.fp + 16 * 1024 * 1024
    ⟨bounds, keepInternal call.pcstackLimit (walk call.mem (umemPcInternal umemInternal)
      (umemFrameReadable bounds fpCeiling) call.pcstackLimit call.fp [] 0), cache⟩

/-- What a thread has stored after a number of calls. -/
def cacheAfter (umemInternal : List (Word × Word)) (calls : List Call) : StackCache :=
  calls.foldl (fun cache call => (getpcstack umemInternal cache call).cache) ⟨0, 0⟩

/-- The range is the one of the mapping that contains the stack pointer of the call. -/
def Call.Located (call : Call) (lo hi : Word) : Prop :=
  ∃ line ∈ call.maps.lines, line.Contains call.sp ∧ line.start = lo ∧ line.stop = hi

/-- What the first call finds that looks for the stack and finds it. -/
def firstRange (calls : List Call) : Option (Word × Word) :=
  calls.findSome? fun call =>
    if call.checkSigthread then none else umemMapsFindSp call.sp call.reads

/-- Why a walk does not read a frame. -/
def Outcome.Barred (umemInternal : List (Word × Word)) (call : Call) (o : Outcome) (f : Word) :
    Prop :=
  call.pcstackLimit ≤ ((o.trace.pcs call.mem).dropWhile (umemPcInternal umemInternal)).length ∨
    f = 0 ∨ f &&& 7 ≠ 0 ∨ umemFrameReadable o.bounds (call.fp + 16 * 1024 * 1024) f = false

/-- What a call promises: the frames it reads form a growing chain from the frame register on that
goes on until something bars the next frame, both words of each lie in the range of the stack or at
least below the ceiling, and the return addresses of the frames are stored without the leading ones
of the library. When there are no others, the first one that is not null is kept. -/
structure Outcome.Sound (umemInternal : List (Word × Word)) (call : Call) (o : Outcome) : Prop where
  growing : o.trace.frames.Pairwise (· < ·)
  chain : o.trace.frames.IsChain fun f g => call.mem f = g
  start : ∀ f ∈ o.trace.frames.head?, f = call.fp
  stops : ∀ f ∈ o.trace.next call.mem call.fp, o.Barred umemInternal call f
  inside : ∀ lo hi, o.bounds = some (lo, hi) → ∀ f ∈ o.trace.frames,
    lo.toNat ≤ f.toNat ∧ f.toNat + 16 ≤ hi.toNat
  below : o.bounds = none → ∀ f ∈ o.trace.frames, f.toNat < call.fp.toNat + 16 * 1024 * 1024
  room : o.trace.pcstack.length ≤ call.pcstackLimit.toNat
  output : o.trace.pcstack =
    if (o.trace.pcs call.mem).dropWhile (umemPcInternal umemInternal) ≠ [] then
      (o.trace.pcs call.mem).dropWhile (umemPcInternal umemInternal)
    else ((o.trace.pcs call.mem).find? (· ≠ 0)).toList

section
variable {umemInternal : List (Word × Word)} {cache : StackCache} {call : Call}
  {bounds : Option (Word × Word)}

theorem Call.located_iff (call : Call) (lo hi : Word) :
    umemMapsFindSp call.sp call.reads = some (lo, hi) ↔ call.Located lo hi :=
  umemMapsFindSp_eq_some_iff call.maps call.reads_text call.reads_ne call.sp lo hi

theorem Call.Located.lt {lo hi : Word} (h : call.Located lo hi) : lo < hi := by
  obtain ⟨line, -, hcontains, rfl, rfl⟩ := h
  unfold MapsLine.Contains at hcontains
  bv_omega

/-- The thread has stored what its first successful lookup found, and the bounds of a call are that
range, or what the call finds itself. -/
theorem umemStackBounds_eq {seen : Option (Word × Word)} (hseen : ∀ r ∈ seen, r.2 ≠ 0) :
    let r := umemStackBounds call.sp call.reads ((seen.map fun r => ⟨r.1, r.2⟩).getD ⟨0, 0⟩)
    let found := seen.or (umemMapsFindSp call.sp call.reads)
    r.1 = found ∧ r.2 = (found.map fun r => ⟨r.1, r.2⟩).getD ⟨0, 0⟩ := by
  unfold umemStackBounds
  cases seen with
  | some range =>
    have hstored : range.2 ≠ 0 := hseen range rfl
    dsimp only [Option.map_some, Option.getD_some, Option.some_or]
    rw [if_neg hstored]
    exact ⟨rfl, rfl⟩
  | none =>
    cases hfind : umemMapsFindSp call.sp call.reads with
    | none => simp
    | some range =>
      have hlt := ((call.located_iff range.1 range.2).mp hfind).lt
      simp [hlt]

theorem firstRange_ne_zero {calls : List Call} : ∀ r ∈ firstRange calls, r.2 ≠ 0 := by
  intro r hr
  obtain ⟨call, -, hfind⟩ := exists_of_findSome?_eq_some hr
  split at hfind
  · cases hfind
  · have hlt := ((call.located_iff r.1 r.2).mp hfind).lt
    intro hzero
    rw [hzero] at hlt
    exact BitVec.not_lt_zero hlt

theorem firstRange_concat (history : List Call) (hsig : call.checkSigthread = false) :
    firstRange (history ++ [call]) =
      (firstRange history).or (umemMapsFindSp call.sp call.reads) := by
  simp [firstRange, findSome?_append, hsig]

theorem cacheAfter_eq (history : List Call) : cacheAfter umemInternal history =
    ((firstRange history).map fun r => ⟨r.1, r.2⟩).getD ⟨0, 0⟩ := by
  induction history using reverseRecOn with
  | nil => rfl
  | append_singleton history call ih =>
    have hlast : cacheAfter umemInternal (history ++ [call]) =
        (getpcstack umemInternal (cacheAfter umemInternal history) call).cache :=
      foldl_concat ..
    rw [hlast, ih, getpcstack]
    cases hsig : call.checkSigthread with
    | true => simp [firstRange, findSome?_append, hsig]
    | false =>
      rw [firstRange_concat history hsig]
      exact (umemStackBounds_eq firstRange_ne_zero).2

theorem keepInternal_frames (pcstackLimit : Int) (t : Trace) :
    (keepInternal pcstackLimit t).frames = t.frames := by
  unfold keepInternal
  split <;> rfl

theorem readable_inside {lo hi ceiling f : Word}
    (h : umemFrameReadable (some (lo, hi)) ceiling f = true) :
    lo.toNat ≤ f.toNat ∧ f.toNat+16 ≤ hi.toNat := by
  simp only [umemFrameReadable, Bool.and_eq_true, decide_eq_true_eq] at h
  bv_omega

theorem readable_below {ceiling f : Word} (h : umemFrameReadable none ceiling f = true) :
    f < ceiling := of_decide_eq_true h

theorem keepInternal_pcstack {mem : Word → Word} {internal readable : Word → Bool}
    {pcstackLimit : Int} (fp : Word) : let t := walk mem internal readable pcstackLimit fp [] 0
    t.pcstack = (t.pcs mem).dropWhile internal ∧
    (keepInternal pcstackLimit t).pcstack.length ≤ pcstackLimit.toNat ∧
    (keepInternal pcstackLimit t).pcstack =
      if (t.pcs mem).dropWhile internal ≠ [] then (t.pcs mem).dropWhile internal
      else ((t.pcs mem).find? (· ≠ 0)).toList := by
  intro t
  have hwalked : Walked mem internal readable pcstackLimit fp ([], 0) t := walk_spec fp [] 0
  have hlength := hwalked.room (Nat.zero_le _)
  have hpcstack : t.pcstack = _ := congrArg Prod.fst hwalked.recorded
  have hfirst : t.firstInternal = _ := congrArg Prod.snd hwalked.recorded
  obtain ⟨hdrop, hnone⟩ := @recordAll_nil internal (t.pcs mem) 0
  rw [← hpcstack] at hdrop
  rw [← hfirst, ← hdrop] at hnone
  refine ⟨hdrop, ?_⟩
  rw [← hdrop]
  by_cases hnil : t.pcstack = []
  · have hfirst := hnone hnil
    rw [if_pos rfl] at hfirst
    rw [if_neg (not_not.mpr hnil)]
    by_cases hlimit : 0 < pcstackLimit
    · cases hfind : (t.pcs mem).find? (· ≠ 0) with
      | none =>
        rw [hfind] at hfirst
        have hkept : keepInternal pcstackLimit t = t := if_neg fun h => h.2.1 hfirst
        rw [hkept, hnil]
        exact ⟨Nat.zero_le _, rfl⟩
      | some pc =>
        have hpc : pc ≠ 0 := of_decide_eq_true (find?_some (p := fun pc => decide (pc ≠ 0)) hfind)
        rw [hfind] at hfirst
        have hkept : keepInternal pcstackLimit t = { t with pcstack := [t.firstInternal] } :=
          if_pos ⟨hnil, by rw [hfirst]; exact hpc, hlimit⟩
        rw [hkept, hfirst]
        exact ⟨by simp; omega, rfl⟩
    · -- without room the loop does not even start
      have hstop : t = ⟨[], [], 0⟩ := walk_stop (by simp [walkable, hlimit])
      have hkept : keepInternal pcstackLimit t = t := if_neg fun h => hlimit h.2.2
      rw [hkept, hnil, hstop]
      exact ⟨Nat.zero_le _, rfl⟩
  · have hkept : keepInternal pcstackLimit t = t := if_neg fun h => hnil h.1
    rw [hkept, if_pos hnil]
    exact ⟨hlength, rfl⟩

theorem walk_sound (cache : StackCache) :
    Outcome.Sound umemInternal call ⟨bounds, keepInternal call.pcstackLimit
      (walk call.mem (umemPcInternal umemInternal)
        (umemFrameReadable bounds (call.fp+16 * 1024 * 1024)) call.pcstackLimit call.fp [] 0),
      cache⟩ := by
  have hwalked := @walk_spec call.mem (umemPcInternal umemInternal)
    (umemFrameReadable bounds (call.fp+16 * 1024 * 1024)) call.pcstackLimit call.fp [] 0
  obtain ⟨hdrop, hroom, houtput⟩ := @keepInternal_pcstack call.mem (umemPcInternal umemInternal)
    (umemFrameReadable bounds (call.fp+16 * 1024 * 1024)) call.pcstackLimit call.fp
  have hframes := keepInternal_frames call.pcstackLimit
    (walk call.mem (umemPcInternal umemInternal)
      (umemFrameReadable bounds (call.fp+16 * 1024 * 1024)) call.pcstackLimit call.fp [] 0)
  generalize walk call.mem (umemPcInternal umemInternal)
    (umemFrameReadable bounds (call.fp+16 * 1024 * 1024)) call.pcstackLimit call.fp [] 0 = t
    at hwalked hdrop hroom houtput hframes ⊢
  constructor
  · rw [hframes]
    have : IsTrans Word (· < ·) := ⟨fun _ _ _ => BitVec.lt_trans⟩
    exact (hwalked.chain.imp fun _ _ h => h.2).pairwise
  · rw [hframes]
    exact hwalked.chain.imp fun _ _ h => h.1
  · rw [hframes]
    exact hwalked.start
  · intro f hf
    have hnext : f ∈ t.next call.mem call.fp := by simpa only [Trace.next, hframes] using hf
    have hstop := hwalked.stops f hnext
    rw [hdrop] at hstop
    rw [Outcome.Barred, Trace.pcs, hframes]
    simp only [walkable, Bool.and_eq_false_iff, decide_eq_false_iff_not, not_lt, ne_eq, not_not,
      or_assoc] at hstop
    exact hstop
  · rw [hframes]
    intro lo hi hbounds f hf
    have hreadable := hwalked.inside f hf
    rw [show bounds = some (lo, hi) from hbounds] at hreadable
    exact readable_inside hreadable
  · rw [hframes]
    intro hbounds f hf
    have hreadable := hwalked.inside f hf
    rw [show bounds = none from hbounds] at hreadable
    have hlt := readable_below hreadable
    bv_omega
  · exact hroom
  · unfold Trace.pcs
    rw [hframes]
    exact houtput

theorem getpcstack_eq (history : List Call) (hsig : call.checkSigthread = false) :
    ∃ cache, getpcstack umemInternal (cacheAfter umemInternal history) call =
      ⟨firstRange (history ++ [call]), keepInternal call.pcstackLimit
        (walk call.mem (umemPcInternal umemInternal)
          (umemFrameReadable (firstRange (history ++ [call])) (call.fp+16 * 1024 * 1024))
          call.pcstackLimit call.fp [] 0), cache⟩ := by
  rw [getpcstack, if_neg (by simp [hsig]), firstRange_concat history hsig, cacheAfter_eq,
    ← (umemStackBounds_eq firstRange_ne_zero).1]
  exact ⟨_, rfl⟩

end

/-- For every thread, whatever it has called before: a lookup finds the range of the mapping that
contains the stack pointer, wherever the reads cut the text; the bounds of a call are what the first
successful lookup of the thread found; and the walk is sound, whatever memory, the frame register
and the limit are. A call from a signal handler reads and stores nothing. -/
theorem getpcstack_sound (umemInternal : List (Word × Word)) (history : List Call) (call : Call) :
    let o := getpcstack umemInternal (cacheAfter umemInternal history) call
    (∀ call' : Call, ∀ lo hi,
      umemMapsFindSp call'.sp call'.reads = some (lo, hi) ↔ call'.Located lo hi) ∧
    if call.checkSigthread then o.trace = ⟨[], [], 0⟩
    else o.bounds = firstRange (history ++ [call]) ∧ o.Sound umemInternal call := by
  intro o
  refine ⟨Call.located_iff, ?_⟩
  cases hsig : call.checkSigthread with
  | true =>
    have ho : o = ⟨none, ⟨[], [], 0⟩, cacheAfter umemInternal history⟩ := if_pos hsig
    rw [ho, if_pos rfl]
  | false =>
    obtain ⟨cache, ho⟩ := @getpcstack_eq umemInternal call history hsig
    rw [if_neg (by decide), show o = _ from ho]
    exact ⟨rfl, walk_sound cache⟩

/-! ### A mapping that gets shorter -/

theorem isHexDigit_zero : ∀ c ∈ ['1', '0', '0', '0'], isHexDigit c = true := by
  simp [isHexDigit]

/-- The stack is mapped from `0x1000` to an address of four digits. -/
def stackMaps (digit : Char) (hdigit : ∀ c ∈ [digit, '0', '0', '0'], isHexDigit c = true) :
    MapsText where
  lines := [⟨['1', '0', '0', '0'], [digit, '0', '0', '0'], [], cons_ne_nil _ _, cons_ne_nil _ _,
    isHexDigit_zero, hdigit, Nat.le_of_ble_eq_true rfl, Nat.le_of_ble_eq_true rfl, not_mem_nil⟩]
  fragment := []
  fragment_newline := not_mem_nil
  disjoint := pairwise_singleton _ _

/-- A frame at `0x2040`, called from one at `0x6000`. -/
def twoFrames (a : Word) : Word :=
  if a = 0x2040 then 0x6000 else if a = 0x2048 then 0x401136 else if a = 0x6008 then 0x401200 else 0

def callAt (digit : Char) (hdigit : ∀ c ∈ [digit, '0', '0', '0'], isHexDigit c = true) : Call where
  maps := stackMaps digit hdigit
  reads := [(stackMaps digit hdigit).text]
  reads_text := flatten_singleton
  reads_ne := fun _ hbuf => mem_singleton.mp hbuf ▸ cons_ne_nil _ _
  sp := 0x2000
  fp := 0x2040
  mem := twoFrames
  pcstackLimit := 15
  checkSigthread := false

theorem walk_twoFrames (ceiling : Word) :
    walk twoFrames (umemPcInternal []) (umemFrameReadable (some (0x1000, 0x9000)) ceiling) 15 0x2040
      [] 0 = ⟨[0x2040, 0x6000], [0x401136, 0x401200], 0⟩ := by
  rw [walk_next (by rfl) (by decide), walk_last (by rfl) (by decide)]
  rfl

theorem isHexDigit_nine : ∀ c ∈ ['9', '0', '0', '0'], isHexDigit c = true := by
  simp [isHexDigit]

theorem isHexDigit_five : ∀ c ∈ ['5', '0', '0', '0'], isHexDigit c = true := by
  simp [isHexDigit]

theorem getpcstack_sound_twoFrames :
    let o := getpcstack [] (cacheAfter [] []) (callAt '9' isHexDigit_nine)
    o.bounds = some (0x1000, 0x9000) ∧ o.trace.frames = [0x2040, 0x6000] ∧
      o.trace.pcstack = [0x401136, 0x401200] ∧ o.Sound [] (callAt '9' isHexDigit_nine) := by
  intro o
  obtain ⟨hbounds, hsound⟩ := (getpcstack_sound [] [] (callAt '9' isHexDigit_nine)).2
  have hrange : firstRange ([] ++ [callAt '9' isHexDigit_nine]) = some (0x1000, 0x9000) := by
    decide +kernel
  obtain ⟨cache, ho⟩ := @getpcstack_eq [] (callAt '9' isHexDigit_nine) [] rfl
  rw [hrange] at hbounds ho
  have htrace : o.trace = ⟨[0x2040, 0x6000], [0x401136, 0x401200], 0⟩ :=
    (congrArg Outcome.trace ho).trans (congrArg (keepInternal 15) (walk_twoFrames _))
  rw [htrace]
  exact ⟨hbounds, rfl, rfl, hsound⟩

/-- The mapping of the stack was longer at the first call of the thread, and the walk leaves the one
that contains the stack pointer now. -/
theorem getpcstack_outside :
    let call := callAt '5' isHexDigit_five
    let o := getpcstack [] (cacheAfter [] [callAt '9' isHexDigit_nine]) call
    call.Located 0x1000 0x5000 ∧ ∃ f ∈ o.trace.frames, (0x5000 : Word) ≤ f := by
  intro call o
  have hrange : firstRange ([callAt '9' isHexDigit_nine] ++ [call]) = some (0x1000, 0x9000) := by
    decide +kernel
  obtain ⟨cache, ho⟩ := @getpcstack_eq [] call [callAt '9' isHexDigit_nine] rfl
  rw [hrange] at ho
  have htrace : o.trace = ⟨[0x2040, 0x6000], [0x401136, 0x401200], 0⟩ :=
    (congrArg Outcome.trace ho).trans (congrArg (keepInternal 15) (walk_twoFrames _))
  refine ⟨⟨_, mem_cons_self, by decide +kernel, by decide +kernel, by decide +kernel⟩, 0x6000, ?_,
    by decide⟩
  rw [htrace]
  decide

end Libumem.Stack
