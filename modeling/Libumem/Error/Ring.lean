import Mathlib

/-!
# The ring of error messages

`umem_log_enter` of misc.c appends each message to a circular buffer. When the text no longer fits,
the oldest bytes are given up and three dots stand in front of what is left.
-/

namespace Libumem.Error
open Function List

abbrev Bytes := List (BitVec 8)

/-- A C string, without its NUL. -/
abbrev Message := { b : Bytes // 0 ∉ b }

def errSize : Nat := 8192

def dot : BitVec 8 := BitVec.ofNat 8 '.'.toNat

/-- `P2PHASE(var, ERR_SIZE)`. -/
def phase (var : Nat) : Nat := var &&& (errSize - 1)

structure Ring where
  umemErrorBuffer : Nat → BitVec 8
  umemErrorBegin : Nat
  umemErrorEnd : Nat
  /-- The messages that came while the lock was held. -/
  umemErrorDropped : Nat

def Ring.init : Ring := ⟨fun _ => 0, 0, 0, 0⟩

/-- `WRITE_AND_INC`. -/
def writeAndInc (buffer : Nat → BitVec 8) (var : Nat) (value : BitVec 8) :
    (Nat → BitVec 8) × Nat :=
  (update buffer var value, phase (var + 1))

/-- The loop over the bytes of a message, and whether it met the begin of the text. -/
def writeAll (r : Ring) (looped : Bool) : Bytes → Ring × Bool
  | [] => (r, looped)
  | c :: errorStr =>
    let (buffer, stop) := writeAndInc r.umemErrorBuffer r.umemErrorEnd c
    writeAll { r with umemErrorBuffer := buffer, umemErrorEnd := stop }
      (looped || stop == r.umemErrorBegin) errorStr

/-- `umem_log_enter`, where `locked` says whether somebody else has `umem_error_lock`. -/
def umemLogEnter (r : Ring) (locked : Bool) (errorStr : Message) : Ring :=
  if locked then { r with umemErrorDropped := r.umemErrorDropped + 1 }
  else
    let (r, looped) := writeAll r false errorStr.1
    let r := { r with umemErrorBuffer := update r.umemErrorBuffer r.umemErrorEnd 0 }
    if looped then
      let first := phase (r.umemErrorEnd + 1)
      let (buffer, idx) := writeAndInc r.umemErrorBuffer first dot
      let (buffer, idx) := writeAndInc buffer idx dot
      let (buffer, _) := writeAndInc buffer idx dot
      { r with umemErrorBuffer := buffer, umemErrorBegin := first }
    else r

def enterAll (calls : List (Bool × Message)) : Ring :=
  calls.foldl (fun r call => umemLogEnter r call.1 call.2) Ring.init

/-- What a reader finds from an index on, up to a NUL or for `n` bytes. -/
def readFrom (buffer : Nat → BitVec 8) : Nat → Nat → Bytes
  | 0, _ => []
  | n + 1, idx =>
    if buffer idx = 0 then [] else buffer idx :: readFrom buffer n (phase (idx + 1))

def Ring.text (r : Ring) : Bytes := readFrom r.umemErrorBuffer errSize r.umemErrorBegin

def recorded (calls : List (Bool × Message)) : Bytes :=
  calls.flatMap fun call => if call.1 then [] else call.2.1

/-- What is to be left of a text. -/
def shown (w : Bytes) : Bytes :=
  if w.length ≤ errSize - 1 then w
  else [dot, dot, dot] ++ w.drop (w.length - (errSize - 4))

theorem phase_eq (var : Nat) : phase var = var % errSize := Nat.and_two_pow_sub_one_eq_mod var 13

/-! ### The loop -/

/-- The last `k` bytes of a text stand where they were written. -/
def Tail (buffer : Nat → BitVec 8) (w : Bytes) (k : Nat) : Prop :=
  ∀ i < w.length, w.length ≤ i + k → w[i]? = some (buffer (i % errSize))

variable {buffer : Nat → BitVec 8} {w l : Bytes} {c : BitVec 8} {k n b d : Nat} {r : Ring}

theorem Tail.mono (h : Tail buffer w k) (hd : d ≤ k) : Tail buffer w d :=
  fun i hi hlast => h i hi (by omega)

theorem Tail.write (h : Tail buffer w k) :
    Tail (update buffer (w.length % errSize) c) (w ++ [c]) (min (k+1) errSize) := by
  intro i hi hlast
  simp only [length_append, length_singleton, errSize] at hi hlast ⊢
  by_cases heq : i = w.length
  · subst heq
    simp
  · have hne : i % 8192 ≠ w.length % 8192 := by omega
    rw [update_of_ne hne, getElem?_append_left (by omega)]
    exact h i (by omega) (by omega)

theorem Tail.before (h : Tail buffer w k) (hk : k < d) (hd : d ≤ errSize) {idx : Nat}
    (hidx : (idx+d) % errSize = w.length % errSize) : Tail (update buffer idx c) w k := by
  intro i hi hlast
  simp only [errSize] at hd hidx
  have hne : i % errSize ≠ idx := by
    simp only [errSize]
    omega
  rw [update_of_ne hne]
  exact h i hi hlast

theorem writeAll_tail (h : Tail r.umemErrorBuffer w k) (hk : k ≤ errSize)
    (hend : r.umemErrorEnd = w.length % errSize) (looped : Bool) (errorStr : Bytes) :
    Tail (writeAll r looped errorStr).1.umemErrorBuffer (w ++ errorStr)
      (min (k+errorStr.length) errSize) ∧
    (writeAll r looped errorStr).1.umemErrorEnd = (w ++ errorStr).length % errSize ∧
    (writeAll r looped errorStr).1.umemErrorBegin = r.umemErrorBegin := by
  induction errorStr generalizing r w k looped with
  | nil => simpa [writeAll, hk] using ⟨h, hend⟩
  | cons c errorStr ih =>
    have hnext : phase (r.umemErrorEnd+1) = (w ++ [c]).length % errSize := by
      simp [phase_eq, hend, Nat.add_mod]
    have hmin : min (min (k+1) errSize+errorStr.length) errSize =
        min (k+(errorStr.length+1)) errSize := by
      omega
    have hw : w ++ c :: errorStr = w ++ [c] ++ errorStr := by simp
    rw [hw, length_cons, ← hmin]
    exact ih (by simpa [writeAndInc, hend] using h.write) (Nat.min_le_right _ _) hnext _

/-- The loop meets the begin of the text exactly when the message reaches it. -/
theorem writeAll_looped (hend : r.umemErrorEnd = n % errSize)
    (hbegin : r.umemErrorBegin = (n+d) % errSize) (hpos : 1 ≤ d) (hd : d ≤ errSize)
    (looped : Bool) (errorStr : Bytes) :
    (writeAll r looped errorStr).2 = (looped || decide (d ≤ errorStr.length)) := by
  induction errorStr generalizing r n d looped with
  | nil =>
    have hnot : ¬ d ≤ 0 := by omega
    simp [writeAll, hnot]
  | cons c errorStr ih =>
    have hnext : phase (r.umemErrorEnd+1) = (n+1) % errSize := by
      simp [phase_eq, hend, Nat.add_mod]
    by_cases hone : d = 1
    · subst hone
      have hmeet : (phase (r.umemErrorEnd+1) == r.umemErrorBegin) = true := by
        simp [hnext, hbegin]
      have hback : r.umemErrorBegin = (n+1+errSize) % errSize := by
        simp [hbegin]
      simp only [writeAll, writeAndInc, hmeet]
      rw [ih (n := n+1) (d := errSize)]
      · simp
      · exact hnext
      · exact hback
      · simp [errSize]
      · exact le_rfl
    · have hmiss : (phase (r.umemErrorEnd+1) == r.umemErrorBegin) = false := by
        simp only [hnext, hbegin, beq_eq_false_iff_ne, errSize] at hd ⊢
        omega
      have hcloser : r.umemErrorBegin = (n+1+(d-1)) % errSize := by
        rw [hbegin]
        congr 1
        omega
      simp only [writeAll, writeAndInc, hmiss]
      rw [ih (n := n+1) (d := d-1)]
      · simp
      · exact hnext
      · exact hcloser
      · omega
      · omega

/-! ### The ring -/

/-- How far the begin of the text `w` is ahead of its end. -/
def room (w : Bytes) : Nat := if w.length < errSize then errSize - w.length else 1

def kept (w : Bytes) : Nat := if w.length < errSize then errSize - 1 else errSize - 4

structure Records (r : Ring) (w : Bytes) : Prop where
  nonzero : 0 ∉ w
  end_eq : r.umemErrorEnd = w.length % errSize
  nul : r.umemErrorBuffer r.umemErrorEnd = 0
  begin_eq : r.umemErrorBegin = (w.length + room w) % errSize
  tail : Tail r.umemErrorBuffer w (kept w)
  dots : errSize ≤ w.length → ∀ j < 3, r.umemErrorBuffer ((w.length + 1 + j) % errSize) = dot

theorem Records.init : Records Ring.init [] where
  nonzero := by simp
  end_eq := rfl
  nul := rfl
  begin_eq := rfl
  tail i hi := by simp at hi
  dots h := by simp [errSize] at h

theorem Records.of_whole (hnonzero : 0 ∉ w) (hlt : w.length < errSize)
    (hend : r.umemErrorEnd = w.length % errSize) (hbegin : r.umemErrorBegin = 0)
    (h : Tail r.umemErrorBuffer w (errSize-1)) :
    Records { r with umemErrorBuffer := update r.umemErrorBuffer r.umemErrorEnd 0 } w where
  nonzero := hnonzero
  end_eq := hend
  nul := update_self ..
  begin_eq := by simp [hbegin, room, hlt, Nat.add_sub_cancel' hlt.le]
  tail := by
    rw [kept, if_pos hlt]
    exact h.before (by simp [errSize]) le_rfl (by simp [hend])
  dots hle := by omega

/-- Bytes were given up: the terminator and the three dots are written. -/
theorem Records.of_lost (hnonzero : 0 ∉ w) (hle : errSize ≤ w.length)
    (hend : r.umemErrorEnd = w.length % errSize) (h : Tail r.umemErrorBuffer w (errSize-4)) :
    Records { r with
      umemErrorBuffer := update (update (update (update r.umemErrorBuffer r.umemErrorEnd 0)
        ((w.length+1) % errSize) dot) ((w.length+2) % errSize) dot)
        ((w.length+3) % errSize) dot
      umemErrorBegin := (w.length+1) % errSize } w where
  nonzero := hnonzero
  end_eq := hend
  nul := by
    simp only [update_apply, hend, errSize]
    split_ifs <;> first | rfl | omega
  begin_eq := by rw [room, if_neg (by omega)]
  tail := by
    rw [kept, if_neg (by omega)]
    -- the four bytes stand before the last `errSize - 4` ones
    refine (((h.before (d := errSize) ?_ le_rfl ?_).before (d := errSize-1) ?_ ?_ ?_).before
      (d := errSize-2) ?_ ?_ ?_).before (d := errSize-3) ?_ ?_ ?_
    all_goals simp only [hend, errSize]
    all_goals omega
  dots _ j hj := by
    simp only [update_apply, errSize]
    interval_cases j <;> split_ifs <;> first | rfl | omega

theorem umemLogEnter_unlocked {errorStr : Message}
    (hend : (writeAll r false errorStr.1).1.umemErrorEnd = n % errSize) :
    umemLogEnter r false errorStr = let (r, looped) := writeAll r false errorStr.1
      if looped then { r with
        umemErrorBuffer := update (update (update (update r.umemErrorBuffer r.umemErrorEnd 0)
          ((n+1) % errSize) dot) ((n+2) % errSize) dot) ((n+3) % errSize) dot
        umemErrorBegin := (n+1) % errSize }
      else { r with umemErrorBuffer := update r.umemErrorBuffer r.umemErrorEnd 0 } := by
  simp only [umemLogEnter, writeAndInc, phase_eq, hend, Nat.mod_add_mod, Nat.add_assoc,
    Nat.reduceAdd, Bool.false_eq_true, if_false]

theorem Records.enter (h : Records r w) (locked : Bool) (errorStr : Message) :
    Records (umemLogEnter r locked errorStr) (w ++ if locked then [] else errorStr.1) := by
  cases locked with
  | true =>
    simp only [umemLogEnter, if_true, append_nil]
    exact ⟨h.nonzero, h.end_eq, h.nul, h.begin_eq, h.tail, h.dots⟩
  | false =>
    have hsize : errSize = 8192 := rfl
    have hnonzero : 0 ∉ w ++ errorStr.1 := by
      simpa using ⟨h.nonzero, errorStr.2⟩
    have hlen : (w ++ errorStr.1).length = w.length+errorStr.1.length := length_append
    have hroom : 1 ≤ room w ∧ room w ≤ errSize ∧ kept w ≤ errSize := by grind [room, kept]
    obtain ⟨htail, hend, hbegin⟩ := writeAll_tail h.tail hroom.2.2 h.end_eq false errorStr.1
    have hloop := writeAll_looped h.end_eq h.begin_eq hroom.1 hroom.2.1 false errorStr.1
    rw [Bool.false_or] at hloop
    rw [if_neg Bool.false_ne_true, umemLogEnter_unlocked hend]
    dsimp only
    rw [hloop]
    by_cases hreach : room w ≤ errorStr.1.length
    · rw [if_pos (decide_eq_true hreach)]
      exact .of_lost hnonzero (by grind [room]) hend (htail.mono (by grind [room, kept]))
    rw [if_neg (by simpa using hreach)]
    by_cases hlt : w.length < errSize
    · have hfits : (w ++ errorStr.1).length < errSize := by grind [room]
      refine .of_whole hnonzero hfits hend ?_ (htail.mono (by grind [kept]))
      rw [hbegin, h.begin_eq, room, if_pos hlt, Nat.add_sub_cancel' hlt.le, Nat.mod_self]
    · have hnil : errorStr.1 = [] := length_eq_zero_iff.mp (by grind [room])
      rw [hnil, append_nil, writeAll, ← h.nul, update_eq_self]
      exact h

theorem readFrom_eq (hl : ∀ j < l.length, l[j]? = some (buffer ((b+j) % errSize)))
    (hnonzero : 0 ∉ l) (hnul : buffer ((b+l.length) % errSize) = 0) (hn : l.length < n) :
    readFrom buffer n (b % errSize) = l := by
  induction l generalizing b n with
  | nil =>
    cases n with
    | zero => simp at hn
    | succ n => simpa [readFrom] using hnul
  | cons c l ih =>
    cases n with
    | zero => simp at hn
    | succ n =>
      have hfirst : buffer (b % errSize) = c := by
        simpa using (hl 0 (by simp)).symm
      have hne : c ≠ 0 := by
        rintro rfl
        simp at hnonzero
      have hnext : phase (b % errSize+1) = (b+1) % errSize := by
        simp [phase_eq, Nat.add_mod]
      rw [readFrom, hfirst, if_neg hne, hnext, ih]
      · intro j hj
        have := hl (j+1) (by simpa using hj)
        rwa [getElem?_cons_succ, ← Nat.add_assoc, Nat.add_right_comm] at this
      · exact fun hmem => hnonzero (mem_cons_of_mem _ hmem)
      · rwa [length_cons, ← Nat.add_assoc, Nat.add_right_comm] at hnul
      · simpa using hn

theorem Records.text_of_whole (h : Records r w) (hlt : w.length < errSize) : r.text = w := by
  have hbegin : r.umemErrorBegin = 0 % errSize := by
    rw [h.begin_eq, room, if_pos hlt, Nat.add_sub_cancel' hlt.le, Nat.mod_self, Nat.zero_mod]
  have htail := h.tail
  rw [kept, if_pos hlt] at htail
  rw [Ring.text, hbegin]
  apply readFrom_eq _ h.nonzero _ hlt
  · intro j hj
    rw [Nat.zero_add]
    exact htail j hj (by omega)
  · rw [Nat.zero_add, ← h.end_eq]
    exact h.nul

theorem Records.text_of_lost (h : Records r w) (hle : errSize ≤ w.length) :
    r.text = [dot, dot, dot] ++ w.drop (w.length-(errSize-4)) := by
  have hsize : errSize = 8192 := rfl
  have hnot : ¬ w.length < errSize := by omega
  have hlen : ([dot, dot, dot] ++ w.drop (w.length-(errSize-4))).length = errSize-1 := by
    simp only [length_append, length_cons, length_nil, length_drop]
    omega
  have htail := h.tail
  rw [kept, if_neg hnot] at htail
  rw [Ring.text, h.begin_eq, room, if_neg hnot]
  apply readFrom_eq
  · intro j hj
    rw [hlen] at hj
    by_cases hdots : j<3
    · rw [h.dots hle j hdots, getElem?_append_left hdots]
      interval_cases j <;> rfl
    · have hold := htail (w.length-(errSize-4)+(j-3)) (by omega) (by omega)
      rw [getElem?_append_right (by simpa using hdots), getElem?_drop]
      have hplace : (w.length-(errSize-4)+(j-3)) % errSize =
          (w.length+1+j) % errSize := by
        simp only [hsize]
        omega
      rw [hplace] at hold
      exact hold
  · have hdot : (0 : BitVec 8) ∉ [dot, dot, dot] := by decide
    rw [mem_append, not_or]
    exact ⟨hdot, fun hmem => h.nonzero (mem_of_mem_drop hmem)⟩
  · have hround : (w.length+1+(errSize-1)) % errSize = r.umemErrorEnd := by
      rw [h.end_eq]
      simp only [errSize]
      omega
    rw [hlen, hround]
    exact h.nul
  · omega

theorem Records.enterAll (calls : List (Bool × Message)) :
    Records (enterAll calls) (recorded calls) := by
  induction calls using reverseRecOn with
  | nil => exact .init
  | append_singleton calls call ih =>
    have hnext := ih.enter call.1 call.2
    simpa only [Error.enterAll, recorded, foldl_append, foldl_cons, foldl_nil, flatMap_append,
      flatMap_singleton] using hnext

/-- However many messages of whatever lengths are recorded, the ring shows their text, or three
dots and the end of it. -/
theorem error_ring_text (calls : List (Bool × Message)) :
    (enterAll calls).text = shown (recorded calls) := by
  have h := Records.enterAll calls
  have hsize : errSize = 8192 := rfl
  unfold shown
  split
  · exact h.text_of_whole (by omega)
  · exact h.text_of_lost (by omega)

end Libumem.Error
