import Mathlib.Order.Lattice
import Mathlib.Data.List.Basic
import Mathlib.Tactic

/-!
# Rows of intervals

Half-open intervals in increasing order, and the ways a further interval can be added to them: it
closes the gap between two of them, prolongs one of them at either end, or is put in between.
-/

namespace Libumem.Lib.Intervals
open List
variable {α : Type*} [LinearOrder α]

structure Row (l : List (α × α)) : Prop where
  nonempty : ∀ a ∈ l, a.1 < a.2
  sorted : l.Pairwise fun a b => a.2 ≤ b.1

def Covers (l : List (α × α)) (z : α) : Prop := ∃ a ∈ l, a.1 ≤ z ∧ z < a.2

/-- One interval ends at `z` and one begins there. -/
def Touch (l : List (α × α)) (z : α) : Prop := ∃ a ∈ l, ∃ b ∈ l, a.2 = z ∧ b.1 = z

def Apart (p q : α) (l : List (α × α)) : Prop := ∀ a ∈ l, a.2 ≤ p ∨ q ≤ a.1

inductive Grow (p q : α) : List (α × α) → List (α × α) → Prop
  | join {l l' : List (α × α)} {x y : α} :
      Grow p q (l ++ (x, p) :: (q, y) :: l') (l ++ (x, y) :: l')
  | moveEnd {l l' : List (α × α)} {x : α} (hrest : ∀ b ∈ l', b.1 ≠ q) :
      Grow p q (l ++ (x, p) :: l') (l ++ (x, q) :: l')
  | moveStart {l l' : List (α × α)} {y : α} (hprev : ∀ a ∈ l.getLast?, a.2 ≠ p) :
      Grow p q (l ++ (q, y) :: l') (l ++ (p, y) :: l')
  | new {l l' : List (α × α)} (hprev : ∀ a ∈ l.getLast?, a.2 < p) (hrest : ∀ b ∈ l', q < b.1) :
      Grow p q (l ++ l') (l ++ (p, q) :: l')

/-- `[x, y)` takes the place of `mid`: what stands there already of `[x, p)` and `[q, y)`. -/
structure Split (p q : α) (l mid l' : List (α × α)) (x y : α) : Prop where
  lower : x ≤ p
  upper : q ≤ y
  mem : ∀ a, a ∈ mid ↔ x < p ∧ a = (x, p) ∨ q < y ∧ a = (q, y)
  before : ∀ a ∈ l, a.2 ≤ x ∧ a.2 ≠ p
  behind : ∀ b ∈ l', y ≤ b.1 ∧ b.1 ≠ q

variable {p q x y : α} {l l' mid old new : List (α × α)}

theorem Row.sublist (h : Row l) (hs : l'.Sublist l) : Row l' :=
  ⟨fun a ha => h.nonempty a (hs.subset ha), h.sorted.sublist hs⟩

theorem Row.forall_end (h : Row l) {P : α → Prop} (hP : ∀ x y, x ≤ y → P y → P x)
    (hlast : ∀ a ∈ l.getLast?, P a.2) : ∀ a ∈ l, P a.2 := by
  rcases eq_nil_or_concat l with rfl | ⟨front, b, rfl⟩
  · simp
  rw [concat_eq_append] at *
  have hb : P b.2 := hlast b (by simp)
  intro a ha
  rcases mem_append.mp ha with ha | ha
  · have hab := (pairwise_append.mp h.sorted).2.2 a ha b (by simp)
    exact hP _ _ (hab.trans (h.nonempty b (by simp)).le) hb
  · rwa [mem_singleton.mp ha]

theorem Row.insert (h : Row (l ++ l')) (hpq : p < q) (hprev : ∀ a ∈ l.getLast?, a.2 ≤ p)
    (hrest : ∀ b ∈ l', q ≤ b.1) : Row (l ++ (p, q) :: l') := by
  have hl := h.sublist (sublist_append_left l l')
  have hl' := h.sublist (sublist_append_right l l')
  have hend := hl.forall_end (fun _ _ => le_trans) hprev
  constructor
  · intro a ha
    rcases mem_append.mp ha with ha | ha
    · exact hl.nonempty a ha
    · rcases mem_cons.mp ha with rfl | ha
      · exact hpq
      · exact hl'.nonempty a ha
  · refine pairwise_append.mpr ⟨hl.sorted, pairwise_cons.mpr ⟨hrest, hl'.sorted⟩, ?_⟩
    intro a ha b hb
    rcases mem_cons.mp hb with rfl | hb
    · exact hend a ha
    · exact ((hend a ha).trans hpq.le).trans (hrest b hb)

theorem Row.end_le (h : Row (l ++ (q, y) :: l')) (hd : Apart p q (l ++ (q, y) :: l')) :
    ∀ a ∈ l, a.2 ≤ p := by
  intro a ha
  have hmem : a ∈ l ++ (q, y) :: l' := mem_append_left _ ha
  have hq : a.2 ≤ q := (pairwise_append.mp h.sorted).2.2 a ha (q, y) (by simp)
  refine (hd a hmem).resolve_right fun hle => ?_
  exact absurd ((h.nonempty a hmem).trans_le hq) (not_lt.mpr hle)

theorem Row.le_start (h : Row (l ++ (x, p) :: l')) (hd : Apart p q (l ++ (x, p) :: l')) :
    ∀ b ∈ l', q ≤ b.1 := by
  intro b hb
  have hmem : b ∈ l ++ (x, p) :: l' := by simp [hb]
  have hp : p ≤ b.1 :=
    rel_of_pairwise_cons (pairwise_append.mp h.sorted).2.1 hb
  refine (hd b hmem).resolve_left fun hle => ?_
  exact absurd (hp.trans_lt (h.nonempty b hmem)) (not_lt.mpr hle)

theorem Grow.split (hg : Grow p q old new) (hrow : Row old) (hd : Apart p q old) :
    ∃ l mid l' x y, old = l ++ mid ++ l' ∧ new = l ++ (x, y) :: l' ∧ Split p q l mid l' x y := by
  cases hg with
  | @join l l' x y =>
    have hx : x < p := hrow.nonempty (x, p) (by simp)
    have hy : q < y := hrow.nonempty (q, y) (by simp)
    have hs := pairwise_append.mp hrow.sorted
    refine ⟨l, [(x, p), (q, y)], l', x, y, by simp, rfl, hx.le, hy.le, by simp [hx, hy],
      fun a ha => ?_, fun b hb => ?_⟩
    · have hle : a.2 ≤ x := hs.2.2 a ha (x, p) (by simp)
      exact ⟨hle, (hle.trans_lt hx).ne⟩
    · have hle : y ≤ b.1 := rel_of_pairwise_cons (pairwise_cons.mp hs.2.1).2 hb
      exact ⟨hle, (hy.trans_le hle).ne'⟩
  | @moveEnd l l' x hrest =>
    have hx : x < p := hrow.nonempty (x, p) (by simp)
    refine ⟨l, [(x, p)], l', x, q, by simp, rfl, hx.le, le_rfl, by simp [hx],
      fun a ha => ?_, fun b hb => ⟨hrow.le_start hd b hb, hrest b hb⟩⟩
    have hle : a.2 ≤ x := (pairwise_append.mp hrow.sorted).2.2 a ha (x, p) (by simp)
    exact ⟨hle, (hle.trans_lt hx).ne⟩
  | @moveStart l l' y hprev =>
    have hy : q < y := hrow.nonempty (q, y) (by simp)
    have hend := hrow.end_le hd
    have hlt := (hrow.sublist (sublist_append_left l _)).forall_end (P := (· < p))
      (fun _ _ => lt_of_le_of_lt) fun a ha => lt_of_le_of_ne (hend a (mem_of_getLast? ha)) (hprev a ha)
    refine ⟨l, [(q, y)], l', p, y, by simp, rfl, le_rfl, hy.le, by simp [hy],
      fun a ha => ⟨(hlt a ha).le, (hlt a ha).ne⟩, fun b hb => ?_⟩
    have hle : y ≤ b.1 := rel_of_pairwise_cons (pairwise_append.mp hrow.sorted).2.1 hb
    exact ⟨hle, (hy.trans_le hle).ne'⟩
  | @new l l' hprev hrest =>
    have hlt := (hrow.sublist (sublist_append_left l _)).forall_end (P := (· < p))
      (fun _ _ => lt_of_le_of_lt) hprev
    exact ⟨l, [], l', p, q, by simp, rfl, le_rfl, le_rfl, by simp, fun a ha => ⟨(hlt a ha).le,
      (hlt a ha).ne⟩, fun b hb => ⟨(hrest b hb).le, (hrest b hb).ne'⟩⟩

namespace Split
section
variable (h : Split p q l mid l' x y) (hpq : p < q)
include h hpq

theorem row (hrow : Row (l ++ mid ++ l')) : Row (l ++ (x, y) :: l') := by
  have hxy : x < y := (h.lower.trans_lt hpq).trans_le h.upper
  have hrest : Row (l ++ l') := hrow.sublist (by simp)
  exact hrest.insert hxy (fun a ha => (h.before a (mem_of_getLast? ha)).1)
    fun b hb => (h.behind b hb).1

theorem covers (z : α) :
    Covers (l ++ (x, y) :: l') z ↔ Covers (l ++ mid ++ l') z ∨ p ≤ z ∧ z < q := by
  have hmid : Covers mid z ↔ x ≤ z ∧ z < p ∨ q ≤ z ∧ z < y := by
    constructor
    · rintro ⟨a, ha, hz⟩
      rcases (h.mem a).mp ha with ⟨-, rfl⟩ | ⟨-, rfl⟩
      · exact .inl hz
      · exact .inr hz
    · rintro (hz | hz)
      · exact ⟨(x, p), (h.mem _).mpr (.inl ⟨hz.1.trans_lt hz.2, rfl⟩), hz⟩
      · exact ⟨(q, y), (h.mem _).mpr (.inr ⟨hz.1.trans_lt hz.2, rfl⟩), hz⟩
  have happ : ∀ l₁ l₂ : List (α × α), Covers (l₁ ++ l₂) z ↔ Covers l₁ z ∨ Covers l₂ z := by
    simp [Covers, or_and_right, exists_or]
  have hcons : Covers ((x, y) :: l') z ↔ (x ≤ z ∧ z < y) ∨ Covers l' z := by
    simp [Covers]
  rw [happ, hcons, happ, happ, hmid]
  have hwhole : x ≤ z ∧ z < y ↔ (x ≤ z ∧ z < p ∨ q ≤ z ∧ z < y) ∨ p ≤ z ∧ z < q := by
    constructor
    · rintro ⟨hx, hy⟩
      rcases lt_or_ge z p with hp | hp
      · exact .inl (.inl ⟨hx, hp⟩)
      · rcases lt_or_ge z q with hq | hq
        · exact .inr ⟨hp, hq⟩
        · exact .inl (.inr ⟨hq, hy⟩)
    · rintro ((⟨hx, hp⟩ | ⟨hq, hy⟩) | ⟨hp, hq⟩)
      · exact ⟨hx, (hp.trans hpq).trans_le h.upper⟩
      · exact ⟨(h.lower.trans hpq.le).trans hq, hy⟩
      · exact ⟨h.lower.trans hp, hq.trans_le h.upper⟩
  rw [hwhole]
  simp only [or_assoc]
  rw [or_comm (a := p ≤ z ∧ z < q)]

theorem border (hrow : Row (l ++ mid ++ l')) : ∀ a ∈ l ++ (x, y) :: l', a.2 ≠ p ∧ a.1 ≠ q := by
  have hlower := h.lower
  have hupper := h.upper
  intro a ha
  rcases mem_append.mp ha with ha | ha
  · have hlt := hrow.nonempty a (by simp [ha])
    obtain ⟨hle, hne⟩ := h.before a ha
    exact ⟨hne, by order⟩
  · rcases mem_cons.mp ha with rfl | ha
    · exact ⟨by order, by order⟩
    · have hlt := hrow.nonempty a (by simp [ha])
      obtain ⟨hle, hne⟩ := h.behind a ha
      exact ⟨by order, hne⟩

theorem touch (hrow : Row (l ++ mid ++ l')) {z : α} (ht : Touch (l ++ (x, y) :: l') z) :
    Touch (l ++ mid ++ l') z := by
  obtain ⟨a, ha, b, hb, haz, hbz⟩ := ht
  have hborder := h.border hpq hrow
  have hend : ∃ a' ∈ l ++ mid ++ l', a'.2 = z := by
    rcases mem_append.mp ha with hm | hm
    · exact ⟨a, by simp [hm], haz⟩
    rcases mem_cons.mp hm with rfl | hm
    · -- `y` is an end of the old row unless it is the end of the added interval
      have hne : y ≠ q := fun he => (hborder b hb).2 (hbz.trans (haz.symm.trans he))
      have hlt := lt_of_le_of_ne h.upper hne.symm
      exact ⟨(q, y), by simp [(h.mem (q, y)).mpr (.inr ⟨hlt, rfl⟩)], haz⟩
    · exact ⟨a, by simp [hm], haz⟩
  have hstart : ∃ b' ∈ l ++ mid ++ l', b'.1 = z := by
    rcases mem_append.mp hb with hm | hm
    · exact ⟨b, by simp [hm], hbz⟩
    rcases mem_cons.mp hm with rfl | hm
    · have hne : x ≠ p := fun he => (hborder a ha).1 (haz.trans (hbz.symm.trans he))
      have hlt := lt_of_le_of_ne h.lower hne
      exact ⟨(x, p), by simp [(h.mem (x, p)).mpr (.inl ⟨hlt, rfl⟩)], hbz⟩
    · exact ⟨b, by simp [hm], hbz⟩
  obtain ⟨a', ha', hza⟩ := hend
  obtain ⟨b', hb', hzb⟩ := hstart
  exact ⟨a', ha', b', hb', hza, hzb⟩

end
end Split

theorem Grow.spec (hg : Grow p q old new) (hpq : p < q) (hrow : Row old) (hd : Apart p q old) :
    Row new ∧ (∀ z, Covers new z ↔ Covers old z ∨ p ≤ z ∧ z < q) ∧
      (∀ a ∈ new, a.2 ≠ p ∧ a.1 ≠ q) ∧ ∀ z, Touch new z → Touch old z := by
  obtain ⟨l, mid, l', x, y, rfl, rfl, h⟩ := hg.split hrow hd
  exact ⟨h.row hpq hrow, h.covers hpq, h.border hpq hrow, fun _ => h.touch hpq hrow⟩

theorem sum_length_le {p n : ℕ} {l : List (ℕ × ℕ)}
    (hd : l.Pairwise fun a b => a.2 ≤ b.1 ∨ b.2 ≤ a.1) (hin : ∀ a ∈ l, p ≤ a.1 ∧ a.2 ≤ n) :
    (l.map fun a => a.2-a.1).sum ≤ n-p := by
  suffices h : ∃ s : Finset ℕ, s.card = (l.map fun a => a.2-a.1).sum ∧
      ∀ z, z ∈ s ↔ ∃ a ∈ l, a.1 ≤ z ∧ z < a.2 by
    obtain ⟨s, hcard, hmem⟩ := h
    rw [← hcard, ← Nat.card_Ico]
    refine Finset.card_le_card fun z hz => ?_
    obtain ⟨a, ha, hz⟩ := (hmem z).mp hz
    have := hin a ha
    rw [Finset.mem_Ico]
    omega
  clear hin
  induction l with
  | nil => exact ⟨∅, by simp, by simp⟩
  | cons a l ih =>
    obtain ⟨ha, hd⟩ := pairwise_cons.mp hd
    obtain ⟨s, hcard, hmem⟩ := ih hd
    refine ⟨Finset.Ico a.1 a.2 ∪ s, ?_, fun z => by simp [hmem]⟩
    rw [Finset.card_union_of_disjoint, Nat.card_Ico, hcard, map_cons, sum_cons]
    rw [Finset.disjoint_left]
    intro z hza hzs
    obtain ⟨b, hb, hz⟩ := (hmem z).mp hzs
    have := ha b hb
    rw [Finset.mem_Ico] at hza
    omega

end Libumem.Lib.Intervals
