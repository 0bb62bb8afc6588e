import Mathlib

/-!
# Chains of pointers

A pointer that leads through the nodes of a list to a null pointer, where `link` is what a node
points to. The list is determined by the pointer and has no node twice.
-/

namespace Libumem.Lib
open Function List
variable {α : Type*}

def Chain (link : α → Option α) : Option α → List α → Prop
  | p, [] => p = none
  | p, a :: l => p = some a ∧ Chain link (link a) l

/-- The nodes from a pointer on, at most `n` of them. -/
def chainList (link : α → Option α) : Nat → Option α → List α
  | 0, _ => []
  | _ + 1, none => []
  | n + 1, some a => a :: chainList link n (link a)

/-- The first node that passes the test, and the node in front of it, among at most `n` nodes. -/
def chainFind (test : α → Bool) (link : α → Option α) : Nat → Option α → Option α →
    Option (α × Option α)
  | 0, _, _ => none
  | _ + 1, _, none => none
  | n + 1, prev, some a =>
    if test a then some (a, prev) else chainFind test link n (some a) (link a)

instance decidableChain {α : Type*} [DecidableEq α] (link : α → Option α) :
    (p : Option α) → (l : List α) → Decidable (Chain link p l)
  | p, [] => inferInstanceAs (Decidable (p = none))
  | p, a :: l => by
    have := decidableChain link (link a) l
    exact inferInstanceAs (Decidable (p = some a ∧ Chain link (link a) l))

namespace Chain
variable {link link' : α → Option α} {p : Option α} {l m : List α} {a b : α}

theorem congr (h : Chain link p l) (hlink : ∀ a ∈ l, link' a = link a) : Chain link' p l := by
  induction l generalizing p with
  | nil => exact h
  | cons a l ih =>
    refine ⟨h.1, ?_⟩
    rw [hlink a mem_cons_self]
    exact ih h.2 fun b hb => hlink b (mem_cons_of_mem a hb)

theorem unique (h : Chain link p l) (h' : Chain link p m) : l = m := by
  induction l generalizing p m with
  | nil =>
    cases m with
    | nil => rfl
    | cons b m =>
      have hnone : p = none := h
      have hsome := h'.1
      simp [hnone] at hsome
  | cons a l ih =>
    cases m with
    | nil =>
      have hnone : p = none := h'
      have hsome := h.1
      simp [hnone] at hsome
    | cons b m =>
      obtain rfl : a = b := Option.some.inj (h.1.symm.trans h'.1)
      rw [ih h.2 h'.2]

theorem behind (h : Chain link p (l ++ a :: m)) : Chain link (link a) m := by
  induction l generalizing p with
  | nil => exact h.2
  | cons b l ih => exact ih h.2

theorem nodup (h : Chain link p l) : l.Nodup := by
  induction l generalizing p with
  | nil => exact nodup_nil
  | cons a l ih =>
    refine nodup_cons.mpr ⟨?_, ih h.2⟩
    intro ha
    obtain ⟨front, back, rfl⟩ := append_of_mem ha
    -- behind its second place the chain would go on as behind its first
    have heq := h.2.unique h.2.behind
    have hlen := congrArg length heq
    simp only [length_append, length_cons] at hlen
    omega

theorem link_ne_self (h : Chain link (some a) l) : link a ≠ some a := by
  intro hself
  cases l with
  | nil => simp [Chain] at h
  | cons b l =>
    obtain rfl := Option.some.inj h.1
    have hrest := h.2
    rw [hself] at hrest
    have hlen := congrArg length (h.unique hrest)
    simp at hlen

theorem chainList_eq {n : Nat} (h : Chain link p l) (hn : l.length ≤ n) :
    chainList link n p = l := by
  induction l generalizing p n with
  | nil =>
    obtain rfl : p = none := h
    cases n <;> rfl
  | cons a l ih =>
    obtain ⟨rfl, hrest⟩ := h
    cases n with
    | zero => simp at hn
    | succ n =>
      rw [chainList, ih hrest (by simpa using hn)]

section
variable {test : α → Bool} {n : Nat} {prev : Option α}

theorem chainFind_eq_none (h : Chain link p l) (htest : ∀ a ∈ l, test a = false) :
    chainFind test link n prev p = none := by
  induction l generalizing p n prev with
  | nil =>
    obtain rfl : p = none := h
    cases n <;> rfl
  | cons a l ih =>
    obtain ⟨rfl, hrest⟩ := h
    cases n with
    | zero => rfl
    | succ n =>
      rw [chainFind, if_neg (by simp [htest a mem_cons_self])]
      exact ih hrest fun b hb => htest b (mem_cons_of_mem a hb)

theorem chainFind_eq_some (h : Chain link p (l ++ a :: m)) (hn : l.length < n)
    (htest : ∀ b ∈ l, test b = false) (ha : test a = true) :
    chainFind test link n prev p = some (a, l.getLast?.or prev) := by
  induction l generalizing p n prev with
  | nil =>
    obtain ⟨rfl, -⟩ := h
    cases n with
    | zero => simp at hn
    | succ n => rw [chainFind, if_pos ha, getLast?_nil, Option.none_or]
  | cons b l ih =>
    obtain ⟨rfl, hrest⟩ := h
    cases n with
    | zero => simp at hn
    | succ n =>
      have hlast : (b :: l).getLast?.or prev = l.getLast?.or (some b) := by
        cases l with
        | nil => rfl
        | cons c l => simp [getLast?_cons]
      rw [chainFind, if_neg (by simp [htest b mem_cons_self]), hlast]
      apply ih hrest (by simpa using hn)
      intro c hc
      exact htest c (mem_cons_of_mem b hc)

end

theorem unlink [DecidableEq α] (h : Chain link p (l ++ b :: a :: m)) :
    Chain (update link b (link a)) p (l ++ b :: m) := by
  have hnd := h.nodup
  induction l generalizing p with
  | nil =>
    obtain ⟨rfl, -, hm⟩ := h
    refine ⟨rfl, ?_⟩
    rw [update_self]
    apply hm.congr
    intro c hc
    apply update_of_ne
    rintro rfl
    simp [hc] at hnd
  | cons c l ih =>
    obtain ⟨rfl, hrest⟩ := h
    refine ⟨rfl, ?_⟩
    have hcb : c ≠ b := by
      rintro rfl
      simp at hnd
    rw [update_of_ne hcb]
    exact ih hrest (nodup_cons.mp hnd).2

end Chain
end Libumem.Lib
