import Libumem.Lib.Scan
import Libumem.Vmem.Arena

/-!
# Spans are tiled by their segments

The segments of an arena are read in list order. After a span marker the position starts at the
start of the span, every free or allocated segment begins at the position and moves it by its
size, an allocated one rounded up to the quantum, and the position has reached the end of the span
when the next marker comes. Rotors and walkers do not move the position. Two free segments are
never neighbours, so free segments that touch have a rotor or a walker between them.
-/

namespace Libumem.Vmem
open Arith Lib Pow2
namespace Seg

def lo (vsp : Seg) : Nat := vsp.vsStart.toNat

def len (vsp : Seg) : Nat := vsp.vsSize.toNat

/-- The end of the segment; unlike `vs_end` it does not wrap at the top of the address space. -/
def hi (vsp : Seg) : Nat := vsp.lo + vsp.len

end Seg

/-- How far the current span has been read. -/
structure Scan where
  pos : Nat
  stop : Nat
  afterFree : Bool

namespace Scan

/-- A segment that takes up `size` bytes at the current position. -/
structure Holds (q : Nat) (s : Scan) (vsp : Seg) (size : Nat) : Prop where
  start : vsp.lo = s.pos
  pos : 0 < s.pos
  aligned : q ∣ s.pos
  len_pos : 0 < vsp.len
  room : s.pos + size ≤ s.stop
  bound : s.stop ≤ 2 ^ 64

/-- A span of whole quanta. -/
structure Opens (q : Nat) (s : Scan) (vsp : Seg) : Prop where
  complete : s.pos = s.stop
  pos : 0 < vsp.lo
  aligned : q ∣ vsp.lo
  len_pos : 0 < vsp.len
  len_aligned : q ∣ vsp.len
  bound : vsp.hi ≤ 2 ^ 64

def Step (q : Nat) (s : Scan) (vsp : Seg) (t : Scan) : Prop :=
  match vsp.vsType with
  | .unset => False
  | .span => s.Opens q vsp ∧ t = ⟨vsp.lo, vsp.hi, false⟩
  | .free => s.Holds q vsp vsp.len ∧ q ∣ vsp.len ∧ s.afterFree = false ∧
      t = ⟨s.pos + vsp.len, s.stop, true⟩
  | .alloc => s.Holds q vsp (roundUp vsp.len q) ∧
      t = ⟨s.pos + roundUp vsp.len q, s.stop, false⟩
  | .rotor | .walker => t = { s with afterFree := false }

def init : Scan := ⟨0, 0, false⟩

/-- The rest of the list, read from `s` on, ends with a complete span. -/
def Tiled (q : Nat) (s : Scan) (l : List Seg) : Prop :=
  ∃ t, Runs (Step q) s l t ∧ t.pos = t.stop

variable {q : Nat} {s t : Scan} {vsp : Seg} {l l' : List Seg}

theorem step_span (h : vsp.vsType = .span) :
    Step q s vsp t ↔ s.Opens q vsp ∧ t = ⟨vsp.lo, vsp.hi, false⟩ := by
  simp [Step, h]

theorem step_free (h : vsp.vsType = .free) :
    Step q s vsp t ↔ s.Holds q vsp vsp.len ∧ q ∣ vsp.len ∧ s.afterFree = false ∧
      t = ⟨s.pos+vsp.len, s.stop, true⟩ := by
  simp [Step, h]

theorem step_alloc (h : vsp.vsType = .alloc) :
    Step q s vsp t ↔ s.Holds q vsp (roundUp vsp.len q) ∧
      t = ⟨s.pos+roundUp vsp.len q, s.stop, false⟩ := by
  simp [Step, h]

theorem step_marker (h : vsp.vsType = .rotor ∨ vsp.vsType = .walker) :
    Step q s vsp t ↔ t = { s with afterFree := false } := by
  rcases h with h | h <;> simp [Step, h]

theorem tiled_append : Tiled q s (l ++ l') ↔ ∃ m, Runs (Step q) s l m ∧ Tiled q m l' := by
  simp only [Tiled, Runs.append]
  constructor
  · rintro ⟨t, ⟨m, hl, hl'⟩, ht⟩
    exact ⟨m, hl, t, hl', ht⟩
  · rintro ⟨m, hl, t, hl', ht⟩
    exact ⟨t, ⟨m, hl, hl'⟩, ht⟩

theorem tiled_cons : Tiled q s (vsp :: l) ↔ ∃ m, Step q s vsp m ∧ Tiled q m l := by
  simp only [Tiled, Runs]
  constructor
  · rintro ⟨t, ⟨m, hs, hl⟩, ht⟩
    exact ⟨m, hs, t, hl, ht⟩
  · rintro ⟨m, hs, t, hl, ht⟩
    exact ⟨t, ⟨m, hs, hl⟩, ht⟩

theorem tiled_congr_afterFree (h : Tiled q s l) (hpos : t.pos = s.pos) (hstop : t.stop = s.stop)
    (hfree : t.afterFree = true → s.afterFree = true ∨ ∀ vsp ∈ l.head?, vsp.vsType ≠ .free) :
    Tiled q t l := by
  obtain ⟨spos, sstop, sfree⟩ := s
  obtain ⟨tpos, tstop, tfree⟩ := t
  simp only at hpos hstop hfree
  subst hpos hstop
  cases l with
  | nil =>
    obtain ⟨_, rfl, h⟩ := h
    exact ⟨_, rfl, h⟩
  | cons vsp l =>
    obtain ⟨m, hs, hl⟩ := tiled_cons.mp h
    rw [tiled_cons]
    cases ht : vsp.vsType with
    | unset => simp [Step, ht] at hs
    | span =>
      rw [step_span ht] at hs
      exact ⟨m, (step_span ht).mpr ⟨⟨hs.1.complete, hs.1.pos, hs.1.aligned, hs.1.len_pos,
        hs.1.len_aligned, hs.1.bound⟩, hs.2⟩, hl⟩
    | alloc =>
      rw [step_alloc ht] at hs
      exact ⟨m, (step_alloc ht).mpr ⟨⟨hs.1.start, hs.1.pos, hs.1.aligned, hs.1.len_pos, hs.1.room,
        hs.1.bound⟩, hs.2⟩, hl⟩
    | free =>
      rw [step_free ht] at hs
      have hnot : tfree = false := by
        cases htf : tfree with
        | false => rfl
        | true =>
          rcases hfree htf with h | h
          · exact absurd hs.2.2.1 (by simp [h])
          · simp [ht] at h
      exact ⟨m, (step_free ht).mpr ⟨⟨hs.1.start, hs.1.pos, hs.1.aligned, hs.1.len_pos, hs.1.room,
        hs.1.bound⟩, hs.2.1, hnot, hs.2.2.2⟩, hl⟩
    | rotor =>
      rw [step_marker (.inl ht)] at hs
      exact ⟨m, (step_marker (.inl ht)).mpr hs, hl⟩
    | walker =>
      rw [step_marker (.inr ht)] at hs
      exact ⟨m, (step_marker (.inr ht)).mpr hs, hl⟩

theorem head_not_free (h : Tiled q s l) (hs : s.afterFree = true) :
    ∀ vsp ∈ l.head?, vsp.vsType ≠ .free := by
  cases l with
  | nil => simp
  | cons vsp l =>
    obtain ⟨m, hm, -⟩ := tiled_cons.mp h
    simp only [List.head?_cons, Option.mem_def, Option.some.injEq, forall_eq']
    intro ht
    have := ((step_free ht).mp hm).2.2.1
    simp [hs] at this

end Scan
end Libumem.Vmem
