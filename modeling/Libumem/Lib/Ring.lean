import Mathlib

/-!
# Rings of linked nodes

A circular doubly linked list with an anchor node `z` is the list of its other nodes in order.
The anchor follows the last node and precedes the first one.
-/

namespace Libumem.Lib.Ring
open Function List
variable {α β : Type*} [DecidableEq α]

/-- The node after the first occurrence of `x`. -/
def succ? (x : α) : List α → Option α
  | [] => none
  | y :: ys => if y = x then ys.head? else succ? x ys

/-- The node before the first later occurrence of `x`, where `y` is the node just passed. -/
def predFrom? (x : α) : α → List α → Option α
  | _, [] => none
  | y, z :: zs => if z = x then some y else predFrom? x z zs

/-- The node that follows `x` on the ring. -/
def next (z : α) (l : List α) (x : α) : α := (succ? x (z :: l)).getD z

/-- The node that precedes `x` on the ring. -/
def prev (z : α) (l : List α) (x : α) : α := (predFrom? x z l).getD ((z :: l).getLastD z)

/-- Link `x` in behind the first occurrence of `p`. -/
def linkAfter (p x : α) : List α → List α
  | [] => []
  | y :: ys => if y = p then y :: x :: ys else y :: linkAfter p x ys

/-- Link `x` into the ring behind `p`. -/
def insert (z : α) (l : List α) (p x : α) : List α := (linkAfter p x (z :: l)).tail

/-- The nodes met when going once around the ring from the node after `x`. -/
def around (l : List α) (x : α) : List α :=
  (l.dropWhile (· ≠ x)).tail ++ l.takeWhile (· ≠ x)

theorem succ?_split {x : α} {pre post : List α} (h : x ∉ pre) :
    succ? x (pre ++ x :: post) = post.head? := by
  induction pre with
  | nil => simp [succ?]
  | cons y ys ih =>
    simp only [mem_cons, not_or] at h
    simp [succ?, Ne.symm h.1, ih h.2]

theorem predFrom?_split {x y : α} {pre post : List α} (h : x ∉ pre) :
    predFrom? x y (pre ++ x :: post) = some (pre.getLastD y) := by
  induction pre generalizing y with
  | nil => simp [predFrom?]
  | cons p ps ih =>
    simp only [mem_cons, not_or] at h
    simp only [cons_append, predFrom?, if_neg (Ne.symm h.1), ih h.2, getLastD_cons]

theorem predFrom?_of_not_mem {x y : α} {l : List α} (h : x ∉ l) : predFrom? x y l = none := by
  induction l generalizing y with
  | nil => rfl
  | cons p ps ih =>
    simp only [mem_cons, not_or] at h
    simp [predFrom?, Ne.symm h.1, ih h.2]

theorem linkAfter_split {p x : α} {pre post : List α} (h : p ∉ pre) :
    linkAfter p x (pre ++ p :: post) = pre ++ p :: x :: post := by
  induction pre with
  | nil => simp [linkAfter]
  | cons y ys ih =>
    simp only [mem_cons, not_or] at h
    simp [linkAfter, Ne.symm h.1, ih h.2]

section
variable {z v x : α} {pre post : List α}

omit [DecidableEq α] in
theorem nodup_split (h : (z :: (pre ++ v :: post)).Nodup) :
    v ∉ pre ∧ v ∉ post ∧ v ≠ z ∧ ∀ y ∈ pre, y ∉ post := by
  simp only [nodup_cons, nodup_append, mem_append, mem_cons] at h
  grind

theorem next_split (h : (z :: (pre ++ v :: post)).Nodup) :
    next z (pre ++ v :: post) v = post.headD z := by
  have hv : v ∉ z :: pre := by
    simpa using ⟨(nodup_split h).2.2.1, (nodup_split h).1⟩
  have : succ? v ((z :: pre) ++ v :: post) = post.head? := succ?_split hv
  rw [next, ← cons_append, this]
  cases post <;> rfl

theorem prev_split (h : (z :: (pre ++ v :: post)).Nodup) :
    prev z (pre ++ v :: post) v = pre.getLastD z := by
  have hv := (nodup_split h).1
  rw [prev, predFrom?_split hv]
  rfl

theorem next_anchor (l : List α) : next z l z = l.headD z := by
  cases l <;> simp [next, succ?]

theorem prev_anchor {l : List α} (h : z ∉ l) : prev z l z = l.getLastD z := by
  rw [prev, predFrom?_of_not_mem h]
  cases l <;> simp

theorem insert_anchor (l : List α) : insert z l z x = x :: l := by
  simp [insert, linkAfter]

theorem insert_split (h : (z :: (pre ++ v :: post)).Nodup) :
    insert z (pre ++ v :: post) v x = pre ++ v :: x :: post := by
  have hv : v ∉ z :: pre := by
    simpa using ⟨(nodup_split h).2.2.1, (nodup_split h).1⟩
  rw [insert, ← cons_append, linkAfter_split hv]
  rfl

theorem insert_getLastD (h : (z :: (pre ++ post)).Nodup) :
    insert z (pre ++ post) (pre.getLastD z) x = pre ++ x :: post := by
  rcases eq_nil_or_concat pre with rfl | ⟨init, last, rfl⟩
  · exact insert_anchor post
  · have h' : (z :: (init ++ last :: post)).Nodup := by simpa using h
    have := insert_split (x := x) h'
    simpa using this

theorem insert_prev_split (h : (z :: (pre ++ v :: post)).Nodup) :
    insert z (pre ++ v :: post) (prev z (pre ++ v :: post) v) x = pre ++ x :: v :: post := by
  rw [prev_split h, insert_getLastD h]

theorem erase_split (h : (z :: (pre ++ v :: post)).Nodup) :
    (pre ++ v :: post).erase v = pre ++ post := by
  have hv := (nodup_split h).1
  rw [erase_append_right _ hv, erase_cons_head]

theorem mem_of_mem_around {l : List α} {x y : α} (h : y ∈ around l x) : y ∈ l := by
  rcases mem_append.mp h with h | h
  · exact (dropWhile_sublist _).subset (mem_of_mem_tail h)
  · exact (takeWhile_sublist _).subset h

theorem around_split (h : (z :: (pre ++ v :: post)).Nodup) :
    around (pre ++ v :: post) v = post ++ pre := by
  have hv : ∀ y ∈ pre, decide (y ≠ v) = true := fun y hy => by
    have := (nodup_split h).1
    simpa using fun he : y = v => this (he ▸ hy)
  rw [around, dropWhile_append_of_pos hv, takeWhile_append_of_pos hv]
  simp

end

theorem linkAfter_perm {p x : α} {l : List α} (h : p ∈ l) : (linkAfter p x l).Perm (x :: l) := by
  induction l with
  | nil => simp at h
  | cons y ys ih =>
    by_cases hy : y = p
    · simp only [linkAfter, if_pos hy]
      exact Perm.swap x y ys
    · have hp : p ∈ ys := by simpa [Ne.symm hy] using h
      simp only [linkAfter, if_neg hy]
      exact ((ih hp).cons y).trans (Perm.swap x y ys)

theorem insert_perm {z p x : α} {l : List α} (h : p ∈ z :: l) : (insert z l p x).Perm (x :: l) := by
  by_cases hz : z = p
  · simp [insert, linkAfter, hz]
  · have hp : p ∈ l := by simpa [Ne.symm hz] using h
    simpa [insert, linkAfter, hz] using linkAfter_perm hp

theorem linkAfter_erase {p x y : α} (hp : p ≠ y) (hx : x ≠ y) (l : List α) :
    (linkAfter p x l).erase y = linkAfter p x (l.erase y) := by
  induction l with
  | nil => rfl
  | cons a as ih =>
    by_cases hap : a = p
    · subst hap
      simp [linkAfter, erase_cons_tail, hp, hx]
    · by_cases hay : a = y
      · subst hay
        simp [linkAfter, hap]
      · simp [linkAfter, hap, erase_cons_tail, hay, ih]

/-- Unlinking a node commutes with linking in another one behind a third. -/
theorem insert_erase {z p x y : α} (hp : p ≠ y) (hx : x ≠ y) (l : List α) :
    (insert z l p x).erase y = insert z (l.erase y) p x := by
  by_cases hz : z = p
  · simp [insert, linkAfter, hz, erase_cons_tail, hx]
  · simp [insert, linkAfter, hz, linkAfter_erase hp hx]

theorem mem_insert {z p x y : α} {l : List α} (h : p ∈ z :: l) :
    y ∈ insert z l p x ↔ y = x ∨ y ∈ l := by
  rw [(insert_perm h).mem_iff, mem_cons]

theorem prev_mem {z x : α} (l : List α) : prev z l x ∈ z :: l := by
  have aux : ∀ (l : List α) (y w : α), predFrom? x y l = some w → w ∈ y :: l := by
    intro l
    induction l with
    | nil => simp [predFrom?]
    | cons p ps ih =>
      intro y w hw
      by_cases hp : p = x
      · simp [predFrom?, hp] at hw
        simp [hw]
      · simp only [predFrom?, if_neg hp] at hw
        exact mem_cons_of_mem _ (ih p w hw)
  unfold prev
  cases h : predFrom? x z l with
  | none =>
    rw [getLastD_cons]
    exact getLastD_mem_cons
  | some w => exact aux l z w h

theorem next_mem {z x : α} (l : List α) : next z l x ∈ z :: l := by
  have aux : ∀ l : List α, ∀ w ∈ succ? x l, w ∈ l := by
    intro l
    induction l with
    | nil => simp [succ?]
    | cons y ys ih =>
      intro w hw
      by_cases hy : y = x
      · simp only [succ?, if_pos hy, Option.mem_def] at hw
        exact mem_cons_of_mem _ (mem_of_head? hw)
      · simp only [succ?, if_neg hy] at hw
        exact mem_cons_of_mem _ (ih w hw)
  unfold next
  cases h : succ? x (z :: l) with
  | none => exact mem_cons_self
  | some w => exact aux _ w h

theorem prev_next {z x : α} {l : List α} (h : (z :: l).Nodup) (hx : x ∈ z :: l) :
    prev z l (next z l x) = x := by
  rcases mem_cons.mp hx with rfl | hx
  · rw [next_anchor]
    cases l with
    | nil => rfl
    | cons a l => exact @prev_split _ _ _ _ [] l h
  · obtain ⟨pre, post, rfl⟩ := append_of_mem hx
    rw [next_split h]
    cases post with
    | nil =>
      rw [headD_nil, prev_anchor (nodup_cons.mp h).1]
      exact getLastD_concat
    | cons a post =>
      have hsplit : pre ++ x :: a :: post = (pre ++ [x]) ++ a :: post := by simp
      rw [hsplit] at h ⊢
      rw [headD_cons, prev_split h, getLastD_concat]

omit [DecidableEq α] in
theorem getLastD_mem_front {z : α} (pre post : List α) : pre.getLastD z ∈ z :: (pre ++ post) := by
  rcases mem_cons.mp (getLastD_mem_cons (l := pre) (a := z)) with h | h
  · rw [h]
    exact mem_cons_self
  · exact mem_cons_of_mem _ (mem_append_left _ h)

theorem map_update_of_not_mem {f : α → β} {x : α} {b : β} {l : List α} (h : x ∉ l) :
    l.map (update f x b) = l.map f := by
  apply map_congr_left
  intro y hy
  rw [update_of_ne]
  rintro rfl
  exact h hy

theorem map_update_split {f : α → β} {x : α} {b : β} {pre post : List α}
    (h : (pre ++ x :: post).Nodup) :
    (pre ++ x :: post).map (update f x b) = pre.map f ++ b :: post.map f := by
  have hx : x ∉ pre ++ post := (nodup_middle.mp h |> nodup_cons.mp).1
  rw [mem_append, not_or] at hx
  rw [map_append, map_cons, map_update_of_not_mem hx.1, map_update_of_not_mem hx.2, update_self]

end Libumem.Lib.Ring
