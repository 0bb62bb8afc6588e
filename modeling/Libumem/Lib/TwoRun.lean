import Mathlib

/-!
# Two runs of one program

Programs over a state that may fault, and a view of the state. Two programs are alike when their
runs from states with one view give one result and end with one view. A program that is alike to
itself is blind: nothing outside the view can flow into it. It is silent when it leaves the view as
it is. A program yields a function when it never faults and the function gives its result and its
next view.
-/

namespace Libumem.Lib
open List Option
variable {σ ν α β : Type}

/-- What a run shows: its result and the view of its last state. -/
def shown (view : σ → ν) (x : Option (α × σ)) : Option (α × ν) := x.map fun r => (r.1, view r.2)

def Alike (view : σ → ν) (m n : StateT σ Option α) : Prop :=
  ∀ s t, view s = view t → shown view (m s) = shown view (n t)

def Blind (view : σ → ν) (m : StateT σ Option α) : Prop := Alike view m m

def Silent (view : σ → ν) (m : StateT σ Option Unit) : Prop :=
  ∀ s, shown view (m s) = some ((), view s)

variable {view : σ → ν}

theorem shown_eq_some {x : Option (α × σ)} {a : α} {v : ν} (h : shown view x = some (a, v)) :
    ∃ s, x = some (a, s) ∧ view s = v := by
  cases x with
  | none => simp [shown] at h
  | some r =>
    simp only [shown, map_some, some.injEq, Prod.mk.injEq] at h
    exact ⟨r.2, by rw [← h.1], h.2⟩

/-- A program followed by programs that show the same. -/
theorem shown_bind_congr {m : StateT σ Option α} {k k' : α → StateT σ Option β} {s : σ}
    (h : ∀ a t, shown view (k a t) = shown view (k' a t)) :
    shown view ((m >>= k) s) = shown view ((m >>= k') s) := by
  change shown view ((m s).bind fun r => k r.1 r.2) = shown view ((m s).bind fun r => k' r.1 r.2)
  cases m s with
  | none => rfl
  | some r => exact h r.1 r.2

namespace Alike

theorem bind {m n : StateT σ Option α} {k l : α → StateT σ Option β} (h : Alike view m n)
    (hnext : ∀ a, Alike view (k a) (l a)) : Alike view (m >>= k) (n >>= l) := by
  intro s t hst
  change shown view ((m s).bind fun r => k r.1 r.2) = shown view ((n t).bind fun r => l r.1 r.2)
  have h := h s t hst
  cases hs : m s with
  | none =>
    cases ht : n t with
    | none => rfl
    | some r => simp [hs, ht, shown] at h
  | some q =>
    cases ht : n t with
    | none => simp [hs, ht, shown] at h
    | some r =>
      simp only [hs, ht, shown, map_some, some.injEq, Prod.mk.injEq] at h
      have hnext := hnext q.1 q.2 r.2 h.2
      rw [h.1] at hnext
      simp only [bind_some, h.1]
      exact hnext

theorem forM {l : List β} {f g : β → StateT σ Option Unit} (h : ∀ b ∈ l, Alike view (f b) (g b)) :
    Alike view (l.forM f) (l.forM g) := by
  induction l with
  | nil =>
    intro s t hst
    change some ((), view s) = some ((), view t)
    rw [hst]
  | cons b l ih =>
    apply bind (h b mem_cons_self)
    intro _
    exact ih fun c hc => h c (mem_cons_of_mem b hc)

end Alike

namespace Blind

theorem pure (a : α) : Blind view (pure a : StateT σ Option α) := by
  intro s t h
  change some (a, view s) = some (a, view t)
  rw [h]

theorem fault : Blind view (fun _ => none : StateT σ Option α) := fun _ _ _ => rfl

theorem bind {m : StateT σ Option α} {k : α → StateT σ Option β} (hm : Blind view m)
    (hk : ∀ a, Blind view (k a)) : Blind view (m >>= k) :=
  Alike.bind hm hk

/-- A program that computes its result and its next view from the view. -/
theorem of_view {m : StateT σ Option α} (f : ν → α × ν)
    (h : ∀ s, shown view (m s) = some (f (view s))) : Blind view m := by
  intro s t hst
  rw [h, h, hst]

theorem ite {c : Prop} [Decidable c] {m n : StateT σ Option α} (hm : Blind view m)
    (hn : Blind view n) : Blind view (if c then m else n) := by
  split
  · exact hm
  · exact hn

theorem forM {l : List β} {f : β → StateT σ Option Unit} (h : ∀ b, Blind view (f b)) :
    Blind view (l.forM f) :=
  Alike.forM fun b _ => h b

end Blind

namespace Silent

theorem blind {m : StateT σ Option Unit} (h : Silent view m) : Blind view m :=
  Blind.of_view (fun v => ((), v)) h

theorem forM_filter {f : β → StateT σ Option Unit} (keep : β → Bool) (hblind : ∀ b, Blind view (f b))
    {l : List β} (hsilent : ∀ b ∈ l, keep b = false → Silent view (f b)) (s : σ) :
    shown view (l.forM f s) = shown view ((l.filter keep).forM f s) := by
  induction l generalizing s with
  | nil => rfl
  | cons b l ih =>
    have ih := ih fun c hc => hsilent c (mem_cons_of_mem b hc)
    cases hb : keep b with
    | true =>
      rw [filter_cons_of_pos hb]
      exact shown_bind_congr fun _ t => ih t
    | false =>
      rw [filter_cons_of_neg (by simp [hb])]
      obtain ⟨t, ht, hview⟩ := shown_eq_some (hsilent b mem_cons_self hb s)
      have hrun : (b :: l).forM f s = l.forM f t := by
        change ((f b s).bind fun r => l.forM f r.2) = l.forM f t
        rw [ht]
        rfl
      rw [hrun, ih t]
      exact Blind.forM hblind t s hview

/-- Two runs whose steps differ only in silent ones show the same. -/
theorem forM_congr {f : β → StateT σ Option Unit} {keep : β → Bool} (hblind : ∀ b, Blind view (f b))
    (hsilent : ∀ b, keep b = false → Silent view (f b)) {l l' : List β}
    (hkeep : l.filter keep = l'.filter keep) : Alike view (l.forM f) (l'.forM f) := by
  intro s t hst
  calc shown view (l.forM f s)
      = shown view ((l.filter keep).forM f s) := forM_filter keep hblind (fun b _ => hsilent b) s
    _ = shown view ((l'.filter keep).forM f t) := hkeep ▸ Blind.forM hblind s t hst
    _ = shown view (l'.forM f t) := (forM_filter keep hblind (fun b _ => hsilent b) t).symm

end Silent

/-- The program does not fault, and the view determines its result and its next view. -/
def Yields (view : σ → ν) (m : StateT σ Option α) (f : ν → α × ν) : Prop :=
  ∀ s, shown view (m s) = some (f (view s))

namespace Yields

theorem pure (a : α) : Yields view (pure a : StateT σ Option α) fun v => (a, v) := fun _ => rfl

theorem bind {m : StateT σ Option α} {k : α → StateT σ Option β} {f : ν → α × ν}
    {g : α → ν → β × ν} (hm : Yields view m f) (hk : ∀ a, Yields view (k a) (g a)) :
    Yields view (m >>= k) fun v => g (f v).1 (f v).2 := by
  intro s
  obtain ⟨t, ht, hview⟩ := shown_eq_some (hm s)
  change shown view ((m s).bind fun r => k r.1 r.2) = _
  rw [ht, bind_some, hk, hview]

/-- A program with one result, and what comes behind it. -/
theorem next {m : StateT σ Option α} {k : α → StateT σ Option β} {a : α} {f : ν → ν}
    {g : ν → β × ν} (hm : Yields view m fun v => (a, f v)) (hk : Yields view (k a) g) :
    Yields view (m >>= k) fun v => g (f v) := by
  intro s
  obtain ⟨t, ht, hview⟩ := shown_eq_some (hm s)
  change shown view ((m s).bind fun r => k r.1 r.2) = _
  rw [ht, bind_some, hk, hview]

theorem congr {m : StateT σ Option α} {f g : ν → α × ν} (h : Yields view m f)
    (hfg : ∀ v, f v = g v) : Yields view m g := by
  intro s
  rw [h, hfg]

theorem forM {l : List β} {f : β → StateT σ Option Unit} {g : ν → β → ν}
    (h : ∀ b ∈ l, Yields view (f b) fun v => ((), g v b)) :
    Yields view (l.forM f) fun v => ((), l.foldl g v) := by
  induction l with
  | nil => exact pure ()
  | cons b l ih =>
    exact bind (h b mem_cons_self) fun _ => ih fun c hc => h c (mem_cons_of_mem b hc)

end Yields

theorem forM_eq_none {l : List β} {f : β → StateT σ Option Unit} {b : β} (hb : b ∈ l)
    (h : ∀ s, f b s = none) (s : σ) : l.forM f s = none := by
  induction l generalizing s with
  | nil => cases hb
  | cons c l ih =>
    change ((f c s).bind fun r => l.forM f r.2) = none
    cases mem_cons.mp hb with
    | inl hc =>
      rw [← hc, h]
      rfl
    | inr hmem =>
      cases f c s with
      | none => rfl
      | some r => exact ih hmem r.2

end Libumem.Lib
