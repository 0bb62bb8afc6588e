import Mathlib

/-!
# Partial correctness with a ghost state

A program changes a state and may fail. An assertion speaks about the state and about a ghost
state that no program reads, so that each part of a program may choose it anew.
-/

namespace Libumem.Lib

universe u

variable {σ α β : Type u} {γ : Type*}

/-- From a state with `P`, the program fails or leads to a state with `Q`. -/
def Triple (P : σ → γ → Prop) (f : StateT σ Option α) (Q : α → σ → γ → Prop) : Prop :=
  ∀ s g a t, P s g → f s = some (a, t) → ∃ g', Q a t g'

def reads (r : σ → α) : StateT σ Option α := fun s => some (r s, s)

def alter (f : σ → σ) : StateT σ Option PUnit := fun s => some (⟨⟩, f s)

/-- Fail unless the condition holds. -/
def require (p : Prop) [Decidable p] : StateT σ Option PUnit :=
  fun s => if p then some (⟨⟩, s) else none

namespace Triple
variable {P P' : σ → γ → Prop} {Q Q' : α → σ → γ → Prop} {R : β → σ → γ → Prop}
variable {f f' : StateT σ Option α} {k : α → StateT σ Option β} {p : Prop}

theorem bind (hf : Triple P f Q) (hk : ∀ a, Triple (Q a) (k a) R) : Triple P (f >>= k) R := by
  intro s g b t hs hrun
  obtain ⟨⟨a, m⟩, hm, hb⟩ := Option.bind_eq_some_iff.mp hrun
  obtain ⟨g', ha⟩ := hf s g a m hs hm
  exact hk a m g' b t ha hb

theorem pure {a : α} (h : ∀ s g, P s g → ∃ g', Q a s g') :
    Triple P (Pure.pure a : StateT σ Option α) Q := by
  intro s g b t hs hrun
  cases hrun
  exact h s g hs

theorem ite [Decidable p] (hf : p → Triple P f Q) (hf' : ¬ p → Triple P f' Q) :
    Triple P (if p then f else f') Q := by
  split
  · exact hf ‹_›
  · exact hf' ‹_›

theorem reads_bind {r : σ → α} (h : ∀ x, Triple (fun s g => r s = x ∧ P s g) (k x) R) :
    Triple P (reads r >>= k) R :=
  fun s g b t hs hrun => h (r s) s g b t ⟨rfl, hs⟩ hrun

theorem alter {f : σ → σ} {Q : PUnit → σ → γ → Prop}
    (h : ∀ s g, P s g → ∃ g', Q ⟨⟩ (f s) g') : Triple P (Lib.alter f) Q := by
  intro s g a t hs hrun
  cases hrun
  exact h s g hs

theorem require_bind [Decidable p] {f : PUnit → StateT σ Option α} (h : p → Triple P (f ⟨⟩) Q) :
    Triple P (require p >>= f) Q := by
  intro s g a t hs hrun
  obtain ⟨⟨u, m⟩, hm, hb⟩ := Option.bind_eq_some_iff.mp hrun
  obtain ⟨hp, heq⟩ := Option.ite_none_right_eq_some.mp hm
  cases heq
  exact h hp s g a t hs hb

end Triple
end Libumem.Lib
