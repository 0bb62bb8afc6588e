import Mathlib

/-!
# Fixed tables of slots

A table of a fixed number of slots, each empty or holding a keyed entry. An entry goes into the
first empty slot, is found by its key, and leaves its slot empty again. The number of slots never
changes, so a full table refuses.
-/

namespace Libumem.Lib
open List Option
variable {κ β : Type*}

abbrev Slots (κ β : Type*) := List (Option (κ × β))

namespace Slots

/-- Put an entry into the first empty slot. -/
def put (k : κ) (b : β) : Slots κ β → Option (Slots κ β)
  | [] => none
  | none :: rest => some (some (k, b) :: rest)
  | some e :: rest => (put k b rest).map (some e :: ·)

def find [DecidableEq κ] (k : κ) : Slots κ β → Option β
  | [] => none
  | none :: rest => find k rest
  | some e :: rest => if e.1 = k then some e.2 else find k rest

/-- Empty the first slot that holds `k`. -/
def clear [DecidableEq κ] (k : κ) : Slots κ β → Slots κ β
  | [] => []
  | none :: rest => none :: clear k rest
  | some e :: rest => if e.1 = k then none :: rest else some e :: clear k rest

def entries (t : Slots κ β) : List (κ × β) := t.filterMap id

/-- No key is in two slots. -/
def Distinct (t : Slots κ β) : Prop := (t.entries.map Prod.fst).Nodup

variable {k k' : κ} {b : β} {t t' : Slots κ β}

@[simp] theorem entries_nil : entries ([] : Slots κ β) = [] := rfl

@[simp] theorem entries_none : entries (none :: t) = t.entries := rfl

@[simp] theorem entries_some (e : κ × β) : entries (some e :: t) = e :: t.entries := rfl

theorem entries_put (h : t.put k b = some t') : t'.entries.Perm ((k, b) :: t.entries) := by
  induction t generalizing t' with
  | nil => simp [put] at h
  | cons slot rest ih =>
    cases slot with
    | none =>
      cases h
      simp
    | some e =>
      obtain ⟨r, hr, rfl⟩ := map_eq_some_iff.mp h
      exact ((ih hr).cons e).trans (Perm.swap _ _ _)

theorem Distinct.put (hd : t.Distinct) (hk : k ∉ t.entries.map Prod.fst)
    (h : t.put k b = some t') : t'.Distinct := by
  have hperm := (entries_put h).map Prod.fst
  exact hperm.nodup_iff.mpr (nodup_cons.mpr ⟨hk, hd⟩)

variable [DecidableEq κ]

theorem find_eq_some (h : t.Distinct) : t.find k = some b ↔ (k, b) ∈ t.entries := by
  induction t with
  | nil => simp [find]
  | cons slot rest ih =>
    cases slot with
    | none => exact ih h
    | some e =>
      obtain ⟨hout, hrest⟩ := nodup_cons.mp h
      rw [find, entries_some, mem_cons]
      split
      · rename_i hk
        subst hk
        have hno : (e.1, b) ∉ entries rest := fun hm => hout (mem_map.mpr ⟨_, hm, rfl⟩)
        simp only [some.injEq, hno, or_false]
        constructor
        · rintro rfl
          rfl
        · intro he
          rw [← he]
      · rename_i hk
        rw [ih hrest]
        constructor
        · exact .inr
        · rintro (rfl | hm)
          · exact absurd rfl hk
          · exact hm

theorem find_eq_none : t.find k = none ↔ k ∉ t.entries.map Prod.fst := by
  induction t with
  | nil => simp [find]
  | cons slot rest ih =>
    cases slot with
    | none => exact ih
    | some e =>
      rw [find, entries_some]
      split
      · rename_i hk
        simp [hk]
      · rename_i hk
        rw [ih, map_cons, mem_cons]
        simp [Ne.symm hk]

theorem entries_clear (h : t.find k = some b) : t.entries.Perm ((k, b) :: (t.clear k).entries) := by
  induction t with
  | nil => simp [find] at h
  | cons slot rest ih =>
    cases slot with
    | none => exact ih h
    | some e =>
      rw [find] at h
      rw [clear]
      split at h
      · rename_i hk
        cases h
        rw [if_pos hk, entries_some, entries_none, ← hk]
      · rename_i hk
        rw [if_neg hk, entries_some, entries_some]
        exact ((ih h).cons e).trans (Perm.swap _ _ _)

theorem clear_of_find_none (h : t.find k = none) : t.clear k = t := by
  induction t with
  | nil => rfl
  | cons slot rest ih =>
    cases slot with
    | none => rw [clear, ih h]
    | some e =>
      rw [find] at h
      split at h
      · simp at h
      · rename_i hk
        rw [clear, if_neg hk, ih h]

theorem find_put_of_ne (hne : k' ≠ k) (h : t.put k b = some t') : t'.find k' = t.find k' := by
  induction t generalizing t' with
  | nil => simp [put] at h
  | cons slot rest ih =>
    cases slot with
    | none =>
      cases h
      exact if_neg (Ne.symm hne)
    | some e =>
      obtain ⟨r, hr, rfl⟩ := map_eq_some_iff.mp h
      rw [find, find, ih hr]

theorem find_put_self (hd : t.Distinct) (hk : k ∉ t.entries.map Prod.fst)
    (h : t.put k b = some t') : t'.find k = some b :=
  (find_eq_some (hd.put hk h)).mpr ((entries_put h).mem_iff.mpr mem_cons_self)

theorem find_clear_of_ne (hne : k' ≠ k) : (t.clear k).find k' = t.find k' := by
  induction t with
  | nil => rfl
  | cons slot rest ih =>
    cases slot with
    | none => rw [clear, find, find, ih]
    | some e =>
      rw [clear]
      split
      · rename_i hk
        exact (if_neg (by rw [hk]; exact Ne.symm hne)).symm
      · rw [find, find, ih]

theorem Distinct.clear (hd : t.Distinct) : (t.clear k).Distinct := by
  cases hf : t.find k with
  | none => rwa [clear_of_find_none hf]
  | some b =>
    have hperm := (entries_clear hf).map Prod.fst
    exact (nodup_cons.mp (hperm.nodup_iff.mp hd)).2

end Slots
end Libumem.Lib
