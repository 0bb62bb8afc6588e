import Mathlib

/-!
# Doubly linked rings

Nodes with a pointer each way, where a null pointer is `none`. A cycle runs from an anchor through
the nodes of a list and back to the anchor. It is a ring when every other node has two null pointers.
-/

namespace Libumem.Lib
open Function List

/-- The pointers of all nodes. -/
structure Links (α : Type*) where
  next : α → Option α
  prev : α → Option α

namespace Links
variable {α : Type*}
section
variable [DecidableEq α]

/-- Write a pointer of the node that `p` points to. -/
def through (p : Option α) (f : α → Option α) (v : Option α) : α → Option α :=
  match p with
  | none => f
  | some a => update f a v

/-- Link `x` in before `z`. -/
def pushBack (L : Links α) (z x : α) : Links α :=
  let cprev := L.prev z
  let L : Links α := ⟨update L.next x (some z), update L.prev x cprev⟩
  let L : Links α := ⟨L.next, update L.prev z (some x)⟩
  ⟨through cprev L.next (some x), L.prev⟩

/-- Let the neighbours of `x` point to each other. -/
def bypass (L : Links α) (x : α) : Links α :=
  let L : Links α := ⟨L.next, through (L.next x) L.prev (L.prev x)⟩
  ⟨through (L.prev x) L.next (L.next x), L.prev⟩

/-- Take `x` out and clear its pointers. -/
def unlink (L : Links α) (x : α) : Links α :=
  let L : Links α := ⟨through (L.prev x) L.next (L.next x), L.prev⟩
  let L : Links α := ⟨L.next, through (L.next x) L.prev (L.prev x)⟩
  ⟨update L.next x none, update L.prev x none⟩

end

/-- The pointers lead from `a` through `l` to `b`, and back. -/
def Path (L : Links α) : α → List α → α → Prop
  | a, [], b => L.next a = some b ∧ L.prev b = some a
  | a, x :: l, b => (L.next a = some x ∧ L.prev x = some a) ∧ L.Path x l b

structure Cycle (L : Links α) (z : α) (l : List α) : Prop where
  nodup : (z :: l).Nodup
  path : L.Path z l z

structure Ring (L : Links α) (z : α) (l : List α) : Prop where
  nodup : (z :: l).Nodup
  path : L.Path z l z
  outside : ∀ x, x ∉ z :: l → L.next x = none ∧ L.prev x = none

variable {L L' : Links α} {a b c x z : α} {l m pre post : List α}

theorem path_append : L.Path a (l ++ x :: m) b ↔ L.Path a l x ∧ L.Path x m b := by
  induction l generalizing a with
  | nil => exact Iff.rfl
  | cons y l ih =>
    simp only [cons_append, Path, ih]
    exact and_assoc.symm

theorem Path.congr (h : L.Path a l b) (hnext : ∀ x ∈ a :: l, L'.next x = L.next x)
    (hprev : ∀ x ∈ l ++ [b], L'.prev x = L.prev x) : L'.Path a l b := by
  induction l generalizing a with
  | nil =>
    refine ⟨?_, ?_⟩
    · rw [hnext a (by simp)]
      exact h.1
    · rw [hprev b (by simp)]
      exact h.2
  | cons y l ih =>
    refine ⟨⟨?_, ?_⟩, ?_⟩
    · rw [hnext a (by simp)]
      exact h.1.1
    · rw [hprev y (by simp)]
      exact h.1.2
    · apply ih h.2
      · intro x hx
        exact hnext x (mem_cons_of_mem a hx)
      · intro x hx
        exact hprev x (mem_cons_of_mem y hx)

theorem Path.next_start (h : L.Path a l b) : L.next a = some (l.headD b) := by
  cases l with
  | nil => exact h.1
  | cons y l => exact h.1.1

theorem Path.prev_end (h : L.Path a l b) : L.prev b = some (l.getLastD a) := by
  induction l generalizing a with
  | nil => exact h.2
  | cons y l ih =>
    rw [ih h.2, getLastD_cons]

theorem getLastD_mem (a : α) (l : List α) : l.getLastD a ∈ a :: l := by
  induction l generalizing a with
  | nil => exact mem_cons_self
  | cons y l ih =>
    rw [getLastD_cons]
    exact mem_cons_of_mem a (ih y)

/-- A path whose last pointer pair is set to lead to another node. -/
theorem Path.redirect (h : L.Path a l b) (hnd : (a :: l).Nodup)
    (hnext : ∀ y ∈ a :: l, y ≠ l.getLastD a → L'.next y = L.next y)
    (hprev : ∀ y ∈ l, L'.prev y = L.prev y) (hlast : L'.next (l.getLastD a) = some c)
    (hc : L'.prev c = some (l.getLastD a)) : L'.Path a l c := by
  induction l generalizing a with
  | nil => exact ⟨hlast, hc⟩
  | cons y l ih =>
    rw [getLastD_cons] at hnext hlast hc
    have hay : a ∉ y :: l := (nodup_cons.mp hnd).1
    have hne : a ≠ l.getLastD y := by
      intro h
      exact hay (h ▸ getLastD_mem y l)
    refine ⟨⟨?_, ?_⟩, ?_⟩
    · rw [hnext a mem_cons_self hne]
      exact h.1.1
    · rw [hprev y mem_cons_self]
      exact h.1.2
    · apply ih h.2 (nodup_cons.mp hnd).2
      · intro w hw
        exact hnext w (mem_cons_of_mem a hw)
      · intro w hw
        exact hprev w (mem_cons_of_mem y hw)
      · exact hlast
      · exact hc

namespace Cycle
section
variable (h : L.Cycle z (pre ++ x :: post))
include h

theorem rotate : L.Cycle x (post ++ z :: pre) := by
  obtain ⟨hpath, hpath'⟩ := path_append.mp h.path
  refine ⟨?_, path_append.mpr ⟨hpath', hpath⟩⟩
  have hperm : (z :: (pre ++ x :: post)).Perm (x :: (post ++ z :: pre)) := by
    rw [← cons_append, ← cons_append]
    exact perm_append_comm
  exact hperm.nodup_iff.mp h.nodup

theorem next_eq : L.next x = some (post.headD z) :=
  (path_append.mp h.path).2.next_start

theorem prev_eq : L.prev x = some (pre.getLastD z) :=
  (path_append.mp h.path).1.prev_end

theorem neighbours_ne : pre.getLastD z ≠ x ∧ post.headD z ≠ x := by
  have hnd := h.nodup
  rw [← cons_append] at hnd
  obtain ⟨-, hpost, hapart⟩ := nodup_append.mp hnd
  refine ⟨hapart _ (getLastD_mem z pre) x mem_cons_self, ?_⟩
  cases post with
  | nil => exact hapart z mem_cons_self x mem_cons_self
  | cons y post => exact fun h => (nodup_cons.mp hpost).1 (h ▸ mem_cons_self)

end

variable [DecidableEq α]

theorem pushBack (h : L.Cycle z l) (hx : x ∉ z :: l) : (L.pushBack z x).Cycle z (l ++ [x]) := by
  have hxz : x ≠ z := fun h => hx (h ▸ mem_cons_self)
  have hlast := getLastD_mem z l
  have hlastx : l.getLastD z ≠ x := fun h => hx (h ▸ hlast)
  have hprev := h.path.prev_end
  have hn : (L.pushBack z x).next =
      update (update L.next x (some z)) (l.getLastD z) (some x) := by
    simp only [Links.pushBack, through, hprev]
  have hp : (L.pushBack z x).prev =
      update (update L.prev x (some (l.getLastD z))) z (some x) := by
    simp only [Links.pushBack, hprev]
  refine ⟨?_, ?_⟩
  · rw [← cons_append]
    apply nodup_append.mpr
    refine ⟨h.nodup, nodup_singleton x, ?_⟩
    intro a ha b hb hab
    rw [mem_singleton.mp hb] at hab
    exact hx (hab ▸ ha)
  · apply path_append.mpr
    refine ⟨?_, ?_, ?_⟩
    · -- the old path, with its end moved from the anchor to `x`
      apply h.path.redirect h.nodup
      · intro y hy hne
        have hyx : y ≠ x := fun h => hx (h ▸ hy)
        rw [hn, update_of_ne hne, update_of_ne hyx]
      · intro y hy
        have hyx : y ≠ x := fun h => hx (h ▸ mem_cons_of_mem z hy)
        have hyz : y ≠ z := fun h' => (nodup_cons.mp h.nodup).1 (h' ▸ hy)
        rw [hp, update_of_ne hyz, update_of_ne hyx]
      · rw [hn, update_self]
      · rw [hp, update_of_ne hxz, update_self]
    · rw [hn, update_of_ne hlastx.symm, update_self]
    · rw [hp, update_self]

theorem insert (h : L.Cycle z (pre ++ post)) (hx : x ∉ z :: (pre ++ post)) :
    (L.pushBack (post.headD z) x).Cycle z (pre ++ x :: post) := by
  cases post with
  | nil =>
    rw [append_nil] at h hx
    exact h.pushBack hx
  | cons y post =>
    have hrotate := h.rotate
    have hx' : x ∉ y :: (post ++ z :: pre) := by
      simp only [mem_cons, mem_append, not_or] at hx ⊢
      tauto
    have hpush := hrotate.pushBack hx'
    rw [append_assoc, cons_append] at hpush
    have hback := hpush.rotate
    rw [append_assoc, singleton_append] at hback
    exact hback

theorem bypass_links (h : L.Cycle z (pre ++ x :: post)) :
    L.bypass x = ⟨update L.next (pre.getLastD z) (some (post.headD z)),
      update L.prev (post.headD z) (some (pre.getLastD z))⟩ := by
  simp only [Links.bypass, through, h.prev_eq, h.next_eq]
  rw [update_of_ne h.neighbours_ne.2.symm, h.prev_eq]

theorem bypass (h : L.Cycle z (pre ++ x :: post)) : (L.bypass x).Cycle z (pre ++ post) := by
  have hnd := h.nodup
  obtain ⟨hpath, hpath'⟩ := path_append.mp h.path
  have hsplit : (z :: pre).Nodup ∧ (x :: post).Nodup ∧ ∀ a ∈ z :: pre, ∀ b ∈ x :: post, a ≠ b := by
    rw [← cons_append] at hnd
    exact nodup_append.mp hnd
  obtain ⟨hpre, hpost, hapart⟩ := hsplit
  have hlast := getLastD_mem z pre
  rw [h.bypass_links]
  -- the front part now ends at the node behind `x`
  have hfront : Path ⟨update L.next (pre.getLastD z) (some (post.headD z)),
      update L.prev (post.headD z) (some (pre.getLastD z))⟩ z pre (post.headD z) := by
    apply hpath.redirect hpre
    · intro y _ hne
      exact update_of_ne hne _ _
    · intro y hy
      apply update_of_ne
      cases post with
      | nil =>
        rintro rfl
        exact (nodup_cons.mp hpre).1 hy
      | cons w post => exact hapart y (mem_cons_of_mem z hy) w (by simp)
    · exact update_self _ _ _
    · exact update_self _ _ _
  refine ⟨?_, ?_⟩
  · rw [← cons_append]
    apply nodup_append.mpr
    refine ⟨hpre, (nodup_cons.mp hpost).2, ?_⟩
    intro a ha b hb
    exact hapart a ha b (mem_cons_of_mem x hb)
  · cases post with
    | nil =>
      rw [append_nil]
      exact hfront
    | cons y post =>
      apply path_append.mpr
      refine ⟨hfront, hpath'.2.congr ?_ ?_⟩
      · intro w hw
        exact update_of_ne (hapart _ hlast w (mem_cons_of_mem x hw)).symm _ _
      · intro w hw
        apply update_of_ne
        rcases mem_append.mp hw with hw | hw
        · have := (nodup_cons.mp hpost).2
          rintro rfl
          exact (nodup_cons.mp this).1 hw
        · rw [mem_singleton.mp hw]
          exact hapart z mem_cons_self y (by simp)

end Cycle

namespace Ring

theorem cycle (h : L.Ring z l) : L.Cycle z l := ⟨h.nodup, h.path⟩

theorem next_anchor (h : L.Ring z l) : L.next z = some (l.headD z) := h.path.next_start

theorem prev_anchor (h : L.Ring z l) : L.prev z = some (l.getLastD z) := h.path.prev_end

theorem next_eq_none_iff (h : L.Ring z l) : L.next x = none ↔ x ∉ z :: l := by
  constructor
  · intro hx hmem
    rcases mem_cons.mp hmem with rfl | hmem
    · simp [h.next_anchor] at hx
    · obtain ⟨pre, post, rfl⟩ := append_of_mem hmem
      rw [h.cycle.next_eq] at hx
      simp at hx
  · intro hx
    exact (h.outside x hx).1

theorem empty (L : Links α) (hnext : L.next z = some z) (hprev : L.prev z = some z)
    (hout : ∀ x, x ≠ z → L.next x = none ∧ L.prev x = none) : L.Ring z [] where
  nodup := nodup_singleton z
  path := ⟨hnext, hprev⟩
  outside x hx := hout x (by simpa using hx)

variable [DecidableEq α]

theorem pushBack (h : L.Ring z l) (hx : x ∉ z :: l) : (L.pushBack z x).Ring z (l ++ [x]) := by
  have hcycle := h.cycle.pushBack hx
  refine ⟨hcycle.nodup, hcycle.path, ?_⟩
  intro y hy
  simp only [mem_cons, mem_append, not_mem_nil, or_false, not_or] at hy
  obtain ⟨hyz, hyl, hyx⟩ := hy
  have hout : y ∉ z :: l := by simp [hyz, hyl]
  have hylast : y ≠ l.getLastD z := fun h => hout (h ▸ getLastD_mem z l)
  simp only [Links.pushBack, through, h.prev_anchor]
  rw [update_of_ne hylast, update_of_ne hyx, update_of_ne hyz, update_of_ne hyx]
  exact h.outside y hout

/-- Off the node that is taken out, its pointers need not be cleared. -/
theorem unlink_eq_bypass (h : L.Ring z (pre ++ x :: post)) {y : α} (hy : y ≠ x) :
    (L.unlink x).next y = (L.bypass x).next y ∧ (L.unlink x).prev y = (L.bypass x).prev y := by
  have hprev := h.cycle.prev_eq
  have hnext := h.cycle.next_eq
  obtain ⟨hlastx, hheadx⟩ := h.cycle.neighbours_ne
  simp only [Links.unlink, Links.bypass, through, hprev, hnext]
  rw [update_of_ne hy, update_of_ne hy, update_of_ne hlastx.symm, update_of_ne hheadx.symm, hnext,
    hprev]
  exact ⟨rfl, rfl⟩

theorem unlink (h : L.Ring z (pre ++ x :: post)) : (L.unlink x).Ring z (pre ++ post) := by
  have hcycle := h.cycle.bypass
  have hx : x ∉ z :: (pre ++ post) := by
    have := h.nodup
    rw [← cons_append, nodup_middle] at this
    exact (nodup_cons.mp this).1
  have hne : ∀ y ∈ z :: (pre ++ post), y ≠ x := fun y hy h => hx (h ▸ hy)
  refine ⟨hcycle.nodup, hcycle.path.congr ?_ ?_, ?_⟩
  · intro y hy
    exact (h.unlink_eq_bypass (hne y hy)).1
  · intro y hy
    apply (h.unlink_eq_bypass (hne y _)).2
    simp only [mem_append, mem_cons, not_mem_nil, or_false] at hy ⊢
    tauto
  · intro y hy
    by_cases hyx : y = x
    · rw [hyx]
      simp only [Links.unlink, update_self, and_self]
    · have hout : y ∉ z :: (pre ++ x :: post) := by
        simp only [mem_cons, mem_append, not_or] at hy ⊢
        exact ⟨hy.1, hy.2.1, hyx, hy.2.2⟩
      have hylast : y ≠ pre.getLastD z := by
        intro h
        apply hout
        rw [h, ← cons_append]
        exact mem_append_left _ (getLastD_mem z pre)
      have hyhead : y ≠ post.headD z := by
        cases post with
        | nil => exact fun h => hout (h ▸ mem_cons_self)
        | cons w post => exact fun h => hout (by simp [h])
      rw [(h.unlink_eq_bypass hyx).1, (h.unlink_eq_bypass hyx).2, h.cycle.bypass_links]
      simp only [update_of_ne hylast, update_of_ne hyhead]
      exact h.outside y hout

end Ring
end Links
end Libumem.Lib
