import Mathlib

/-!
# Bucket tables

A table of lists indexes a set of nodes by a key when each list holds exactly the nodes of the
set with its key, each once.
-/

namespace Libumem.Lib
open Function List
variable {α κ : Type*}

structure Buckets (table : κ → List α) (P : α → Prop) (key : α → κ) : Prop where
  mem : ∀ k x, x ∈ table k ↔ P x ∧ key x = k
  nodup : ∀ k, (table k).Nodup

namespace Buckets
variable {table : κ → List α} {P Q : α → Prop} {key key' : α → κ} {x : α}

theorem empty (h : ∀ x, ¬ P x) : Buckets (fun _ => []) P key :=
  ⟨fun _ x => by simp [h x], fun _ => nodup_nil⟩

section
variable (h : Buckets table P key)
include h

theorem congr (hPQ : ∀ y, Q y ↔ P y) (hkey : ∀ y, P y → key' y = key y) : Buckets table Q key' := by
  refine ⟨fun k y => ?_, h.nodup⟩
  rw [h.mem k y, hPQ y]
  constructor
  · rintro ⟨hP, rfl⟩
    exact ⟨hP, hkey y hP⟩
  · rintro ⟨hP, rfl⟩
    exact ⟨hP, (hkey y hP).symm⟩

theorem insert [DecidableEq κ] (key' : α → κ) (hx : ¬ P x) (hQ : ∀ y, Q y ↔ y = x ∨ P y)
    (hkey : ∀ y, P y → key' y = key y) :
    Buckets (update table (key' x) (x :: table (key' x))) Q key' := by
  refine ⟨fun k y => ?_, fun k => ?_⟩
  · have hmem := h.mem k y
    by_cases hk : k = key' x
    · subst hk
      rw [update_self, mem_cons, hmem, hQ y]
      constructor
      · rintro (rfl | ⟨hP, he⟩)
        · exact ⟨.inl rfl, rfl⟩
        · exact ⟨.inr hP, by rw [hkey y hP, he]⟩
      · rintro ⟨rfl | hP, he⟩
        · exact .inl rfl
        · exact .inr ⟨hP, by rw [← hkey y hP, he]⟩
    · rw [update_of_ne hk, hmem, hQ y]
      constructor
      · rintro ⟨hP, rfl⟩
        exact ⟨.inr hP, hkey y hP⟩
      · rintro ⟨rfl | hP, he⟩
        · exact absurd he.symm hk
        · exact ⟨hP, by rw [← hkey y hP, he]⟩
  · by_cases hk : k = key' x
    · subst hk
      rw [update_self, nodup_cons]
      exact ⟨fun hm => hx ((h.mem _ x).mp hm).1, h.nodup _⟩
    · rw [update_of_ne hk]
      exact h.nodup k

theorem erase [DecidableEq α] [DecidableEq κ] (hx : P x) (hQ : ∀ y, Q y ↔ y ≠ x ∧ P y) :
    Buckets (update table (key x) ((table (key x)).erase x)) Q key := by
  refine ⟨fun k y => ?_, fun k => ?_⟩
  · have hmem := h.mem k y
    by_cases hk : k = key x
    · subst hk
      rw [update_self, (h.nodup _).mem_erase_iff, hmem, hQ y, and_assoc]
    · rw [update_of_ne hk, hmem, hQ y]
      constructor
      · rintro ⟨hP, rfl⟩
        refine ⟨⟨?_, hP⟩, rfl⟩
        rintro rfl
        exact hk rfl
      · rintro ⟨⟨_, hP⟩, he⟩
        exact ⟨hP, he⟩
  · by_cases hk : k = key x
    · subst hk
      rw [update_self]
      exact (h.nodup _).erase x
    · rw [update_of_ne hk]
      exact h.nodup k

theorem find?_eq_some {test : α → Bool} {k : κ}
    (hone : ∀ y z, P y → P z → test y → test z → y = z) (hkey : ∀ y, P y → test y → key y = k) :
    (table k).find? test = some x ↔ P x ∧ test x = true := by
  constructor
  · intro hx
    exact ⟨((h.mem k x).mp (mem_of_find?_eq_some hx)).1, find?_some hx⟩
  · rintro ⟨hx, ht⟩
    have hmem := (h.mem k x).mpr ⟨hx, hkey x hx ht⟩
    cases hf : (table k).find? test with
    | none => exact absurd ht (find?_eq_none.mp hf x hmem)
    | some y =>
      have hy := ((h.mem k y).mp (mem_of_find?_eq_some hf)).1
      rw [hone y x hy hx (find?_some hf) ht]

theorem nodup_flatMap {ks : List κ} (hks : ks.Nodup) : (ks.flatMap table).Nodup := by
  refine List.nodup_flatMap.mpr ⟨fun k _ => h.nodup k, hks.imp ?_⟩
  intro k l hne x hk hl
  exact hne (((h.mem k x).mp hk).2.symm.trans ((h.mem l x).mp hl).2)

theorem mem_flatMap {ks : List κ} (hall : ∀ y, P y → key y ∈ ks) : x ∈ ks.flatMap table ↔ P x := by
  rw [List.mem_flatMap]
  constructor
  · rintro ⟨k, -, hx⟩
    exact ((h.mem k x).mp hx).1
  · intro hx
    exact ⟨key x, hall x hx, (h.mem _ x).mpr ⟨hx, rfl⟩⟩

end
end Buckets
end Libumem.Lib
