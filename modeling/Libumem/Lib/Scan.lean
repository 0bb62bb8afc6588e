import Mathlib

/-!
# Scans of a list

A step relation that reads one element at a time, run along a list. The state after a front part
is all that the rest of the list depends on, so a part of the list can be replaced by any other
part that leads to the same state.
-/

namespace Libumem.Lib
open Option
variable {σ α : Type*}

def Runs (step : σ → α → σ → Prop) : σ → List α → σ → Prop
  | s, [], t => t = s
  | s, a :: l, t => ∃ m, step s a m ∧ Runs step m l t

namespace Runs
variable {step : σ → α → σ → Prop} {s t : σ} {a b c : α} {l l' : List α}

theorem append : Runs step s (l ++ l') t ↔ ∃ m, Runs step s l m ∧ Runs step m l' t := by
  induction l generalizing s with
  | nil => simp [Runs]
  | cons a l ih =>
    simp only [List.cons_append, Runs, ih]
    constructor
    · rintro ⟨m, hs, n, hl, hl'⟩
      exact ⟨n, ⟨m, hs, hl⟩, hl'⟩
    · rintro ⟨n, ⟨m, hs, hl⟩, hl'⟩
      exact ⟨m, hs, n, hl, hl'⟩

theorem invariant {P : σ → Prop} (hstep : ∀ s a t, P s → step s a t → P t)
    (h : Runs step s l t) (hs : P s) : P t := by
  induction l generalizing s with
  | nil =>
    obtain rfl := h
    exact hs
  | cons a l ih =>
    obtain ⟨m, hm, hl⟩ := h
    exact ih hl (hstep s a m hs hm)

theorem mono {step' : σ → α → σ → Prop} (himp : ∀ s a t, step s a t → step' s a t)
    (h : Runs step s l t) : Runs step' s l t := by
  induction l generalizing s with
  | nil => exact h
  | cons a l ih =>
    obtain ⟨m, hm, hl⟩ := h
    exact ⟨m, himp s a m hm, ih hl⟩

theorem singleton : Runs step s [a] t ↔ step s a t := by
  simp [Runs]

end Runs

/-- Run a function that may fail along a list, as long as a condition holds. -/
def replay (P : σ → α → Prop) [∀ s a, Decidable (P s a)] (f : σ → α → Option σ) :
    σ → List α → Option σ
  | s, [] => some s
  | s, a :: l => if P s a then (f s a).bind fun t => replay P f t l else none

theorem runs_of_replay {P : σ → α → Prop} [∀ s a, Decidable (P s a)] {f : σ → α → Option σ}
    {s t : σ} {l : List α} (h : replay P f s l = some t) :
    Runs (fun s a t => P s a ∧ f s a = some t) s l t := by
  induction l generalizing s with
  | nil => exact (some.inj h).symm
  | cons a l ih =>
    rw [replay, ite_none_right_eq_some, bind_eq_some_iff] at h
    obtain ⟨hp, m, hm, hl⟩ := h
    exact ⟨m, ⟨hp, hm⟩, ih hl⟩

theorem exists_runs {β : Type*} {P : σ → α → Prop} [∀ s a, Decidable (P s a)]
    {f : σ → α → Option σ} (s : σ) (l : List α) (g : σ → β) (b : β)
    (h : (replay P f s l).map g = some b) :
    ∃ t, Runs (fun s a t => P s a ∧ f s a = some t) s l t ∧ g t = b := by
  obtain ⟨t, ht, hb⟩ := map_eq_some_iff.mp h
  exact ⟨t, runs_of_replay ht, hb⟩

end Libumem.Lib
