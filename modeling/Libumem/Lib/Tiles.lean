import Mathlib

/-!
# Tilings by a list

The intervals of a list, each with its start and its size, cover a range one after the other.
-/

namespace Libumem.Lib
open List
variable {α : Type*} (start size : α → ℕ)

/-- The intervals of the list lie side by side from `a` to `b`, and none is empty. -/
def Tiles : ℕ → List α → ℕ → Prop
  | a, [], b => a = b
  | a, x :: l, b => start x = a ∧ 0 < size x ∧ Tiles (a + size x) l b

namespace Tiles
variable {start size} {a b c n : ℕ} {l : List α} {x y : α} {i j : ℕ}

theorem snoc (h : Tiles start size a l b) (hx : start x = b) (hpos : 0 < size x) :
    Tiles start size a (l ++ [x]) (b+size x) := by
  induction l generalizing a with
  | nil =>
    cases h
    exact ⟨hx, hpos, rfl⟩
  | cons y l ih => exact ⟨h.1, h.2.1, ih h.2.2⟩

theorem grow_last (h : Tiles start size a (l ++ [x]) b) (hstart : start y = start x)
    (hsize : size y = size x+c) : Tiles start size a (l ++ [y]) (b+c) := by
  induction l generalizing a with
  | nil =>
    obtain ⟨hx, hpos, heq⟩ := h
    refine ⟨hstart.trans hx, by omega, ?_⟩
    change a+size y = b+c
    change a+size x = b at heq
    omega
  | cons z l ih => exact ⟨h.1, h.2.1, ih h.2.2⟩

section
variable (h : Tiles start size a l b)
include h

theorem sum : a+(l.map size).sum = b := by
  induction l generalizing a with
  | nil => exact h
  | cons x l ih =>
    have := ih h.2.2
    rw [map_cons, sum_cons]
    omega

theorem le : a ≤ b := h.sum ▸ Nat.le_add_right _ _

theorem start_ge : ∀ x ∈ l, a ≤ start x := by
  induction l generalizing a with
  | nil => simp
  | cons y l ih =>
    intro x hx
    rcases mem_cons.mp hx with rfl | hx
    · exact h.1.ge
    · have := ih h.2.2 x hx
      omega

theorem start_lt : l.Pairwise fun x y => start x < start y := by
  induction l generalizing a with
  | nil => exact Pairwise.nil
  | cons x l ih =>
    refine pairwise_cons.mpr ⟨fun y hy => ?_, ih h.2.2⟩
    have := h.2.2.start_ge y hy
    have := h.1
    have := h.2.1
    omega

theorem adjacent (hx : l[i]? = some x) (hy : l[i+1]? = some y) : start y = start x+size x := by
  induction l generalizing a i with
  | nil => cases hx
  | cons z l ih =>
    cases i with
    | zero =>
      cases l with
      | nil => cases hy
      | cons y' l =>
        cases hx
        cases hy
        rw [h.2.2.1, h.1]
    | succ i => exact ih h.2.2 hx hy

theorem end_le : ∀ x ∈ l, start x+size x ≤ b := by
  induction l generalizing a with
  | nil => simp
  | cons y l ih =>
    intro x hx
    rcases mem_cons.mp hx with rfl | hx
    · rw [h.1]
      exact h.2.2.le
    · exact ih h.2.2 x hx

theorem exists_mem (ha : a ≤ n) (hb : n < b) :
    ∃ (i : ℕ) (x : α), l[i]? = some x ∧ start x ≤ n ∧ n < start x+size x := by
  induction l generalizing a with
  | nil =>
    cases h
    omega
  | cons y l ih =>
    by_cases hn : n < a+size y
    · exact ⟨0, y, rfl, by rw [h.1]; exact ha, by rw [h.1]; exact hn⟩
    · obtain ⟨i, x, hi, hx⟩ := ih h.2.2 (Nat.le_of_not_lt hn)
      exact ⟨i+1, x, hi, hx⟩

theorem start_le_iff (hi : l[i]? = some x) (hx : start x ≤ n) (hx' : n < start x+size x)
    (hj : l[j]? = some y) : start y ≤ n ↔ j ≤ i := by
  induction l generalizing a i j with
  | nil => cases hi
  | cons z l ih =>
    cases j with
    | zero =>
      cases hj
      refine iff_of_true ?_ (Nat.zero_le i)
      have := Tiles.start_ge h x (mem_of_getElem? hi)
      have := h.1
      omega
    | succ j =>
      have hy := h.2.2.start_ge y (mem_of_getElem? hj)
      cases i with
      | zero =>
        cases hi
        have := h.1
        refine iff_of_false (by omega) (by omega)
      | succ i => exact (ih h.2.2 hi hj).trans Nat.succ_le_succ_iff.symm

end
end Tiles
end Libumem.Lib
