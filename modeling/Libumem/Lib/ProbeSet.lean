import Mathlib

/-!
# Open-addressed sets that only grow

A member is stored in the first empty slot of its probe sequence and is never moved or cleared. A
lookup follows the same sequence and stops at the member, at an empty slot, or after as many turns
as there are slots; in the last case it cannot tell, and says yes.
-/

namespace Libumem.Lib.ProbeSet
variable {α : Type*} {next : Nat → Nat}

def add [DecidableEq α] (next : Nat → Nat) (x : α) : Nat → Nat → (Nat → Option α) → Nat → Option α
  | 0, _, slots => slots
  | turns + 1, i, slots =>
    match slots i with
    | none => Function.update slots i (some x)
    | some y => if y = x then slots else add next x turns (next i) slots

def mayContain [DecidableEq α] (next : Nat → Nat) (x : α) : Nat → Nat → (Nat → Option α) → Bool
  | 0, _, _ => true
  | turns + 1, i, slots =>
    match slots i with
    | none => false
    | some y => if y = x then true else mayContain next x turns (next i) slots

/-- Slots are filled once and keep what they hold. -/
def Grows (slots slots' : Nat → Option α) : Prop := ∀ i y, slots i = some y → slots' i = some y

theorem Grows.refl (slots : Nat → Option α) : Grows slots slots := fun _ _ h => h

variable [DecidableEq α]

theorem grows_add (x : α) (turns i : Nat) (slots : Nat → Option α) :
    Grows slots (add next x turns i slots) := by
  induction turns generalizing i with
  | zero => exact Grows.refl _
  | succ turns ih =>
    intro j y hy
    rw [add]
    cases hi : slots i with
    | none =>
      have hji : j ≠ i := by
        rintro rfl
        simp [hi] at hy
      simpa [hji] using hy
    | some z =>
      by_cases hz : z = x
      · simpa [hz] using hy
      · simpa [hz] using ih (next i) j y hy

theorem mayContain_of_grows {x : α} {slots slots' : Nat → Option α} (hg : Grows slots slots')
    {turns i : Nat} (h : mayContain next x turns i slots = true) :
    mayContain next x turns i slots' = true := by
  induction turns generalizing i with
  | zero => rfl
  | succ turns ih =>
    rw [mayContain] at h ⊢
    cases hi : slots i with
    | none => simp [hi] at h
    | some y =>
      simp only [hi] at h
      simp only [hg i y hi]
      split
      · rfl
      · rename_i hy
        rw [if_neg hy] at h
        exact ih h

theorem mayContain_add (x : α) (turns i : Nat) (slots : Nat → Option α) :
    mayContain next x turns i (add next x turns i slots) = true := by
  induction turns generalizing i with
  | zero => rfl
  | succ turns ih =>
    rw [mayContain, add]
    cases hi : slots i with
    | none => simp
    | some y =>
      by_cases hy : y = x
      · simp [hi, hy]
      · have hkeep : add next x turns (next i) slots i = some y := grows_add x turns _ slots i y hi
        simpa [hy, hkeep] using ih (next i)

end Libumem.Lib.ProbeSet
