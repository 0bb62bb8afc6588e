import Mathlib

/-!
# Steps that fail and say why

A call runs steps that may fail, and a step may write the error cell of the thread whether it fails
or not. The call may write the cell back. `Cell.blame` is what the cell held right after the last
step that failed; no call reads it.
-/

namespace Libumem.Lib.Errno
variable {α β : Type}

/-- How a step ends, and what it writes to the cell. -/
structure Outcome (α : Type) where
  result : Option α
  sets : Option Int
  deriving DecidableEq

structure Cell where
  errno : Int
  blame : Int
  deriving DecidableEq

abbrev Call (α : Type) := StateM Cell α

namespace Outcome

/-- The cell after the step. -/
def after (o : Outcome α) (e : Int) : Int := o.sets.getD e

def Failed (o : Outcome α) : Prop := o.result = none

instance (o : Outcome α) : Decidable o.Failed :=
  match h : o.result with
  | none => .isTrue h
  | some _ => .isFalse fun h' => by rw [Failed, h] at h'; cases h'

theorem not_failed {o : Outcome α} {a : α} (h : o.result = some a) : ¬ o.Failed := by
  intro hf
  rw [hf] at h
  cases h

end Outcome

def attempt (o : Outcome α) : Call (Option α) := fun c =>
  let e := o.after c.errno
  (o.result, ⟨e, if o.result.isSome then c.blame else e⟩)

/-- A step without a result. -/
def touch (sets : Option Int) : Call Unit := fun c => ((), { c with errno := sets.getD c.errno })

def getErrno : Call Int := fun c => (c.errno, c)

def setErrno (e : Int) : Call Unit := fun c => ((), { c with errno := e })

/-- A step without a result that leaves the cell, when it holds `e`, as it is. -/
def Quiet (sets : Option Int) (e : Int) : Prop := sets.getD e = e

/-- A call that succeeds leaves the cell as it found it, and one that fails leaves what the step that
failed wrote. -/
def Disciplined (call : Call (Option α)) (e : Int) : Prop :=
  let r := call ⟨e, e⟩
  if r.1.isSome then r.2.errno = e else r.2.errno = r.2.blame

instance (call : Call (Option α)) (e : Int) : Decidable (Disciplined call e) :=
  inferInstanceAs (Decidable (ite _ _ _))

variable {call : Call (Option α)} {e x b : Int} {a : α}

theorem disciplined_some (h : call ⟨e, e⟩ = (some a, ⟨x, b⟩)) : Disciplined call e ↔ x = e := by
  simp [Disciplined, h]

theorem disciplined_none (h : call ⟨e, e⟩ = (none, ⟨x, b⟩)) : Disciplined call e ↔ x = b := by
  simp [Disciplined, h]

theorem bind_run (f : Call α) (k : α → Call β) (c : Cell) : (f >>= k) c = k (f c).1 (f c).2 := rfl

theorem attempt_some {o : Outcome α} (h : o.result = some a) (c : Cell) :
    attempt o c = (some a, ⟨o.after c.errno, c.blame⟩) := by
  simp [attempt, h]

theorem attempt_none {o : Outcome α} (h : o.result = none) (c : Cell) :
    attempt o c = (none, ⟨o.after c.errno, o.after c.errno⟩) := by
  simp [attempt, h]

theorem getErrno_run (c : Cell) : getErrno c = (c.errno, c) := rfl

end Libumem.Lib.Errno
