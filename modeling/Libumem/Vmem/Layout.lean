import Libumem.Vmem.Frame
import Libumem.Vmem.Tiling

/-!
# The layout of an arena

`Layout vmp` gathers what the segment list of an arena keeps: segment structures are not shared,
the spans are tiled and do not overlap, and the span list holds the span markers in list order.
A critical section replaces a few neighbouring segments; `Layout.replace` reduces the layout of
the result to the replaced part.
-/

namespace Libumem.Vmem
open List Arith Lib Pow2

/-- Two address ranges with no address in common. -/
def Seg.Disjoint (a b : Seg) : Prop := a.hi ≤ b.lo ∨ b.hi ≤ a.lo

theorem Seg.Disjoint.symm {a b : Seg} (h : a.Disjoint b) : b.Disjoint a := Or.symm h

def Arena.isSpan (vmp : Arena) (vsp : SegId) : Bool := (vmp.segs vsp).vsType == .span

/-- A segment that takes up room. -/
def Seg.Filled (vsp : Seg) : Prop := vsp.vsType = .alloc ∨ vsp.vsType = .free

theorem Scan.step_filled {q : Nat} (hq : 0 < q) {s t : Scan} {vsp : Seg} (ht : vsp.Filled)
    (h : Scan.Step q s vsp t) :
    vsp.lo = s.pos ∧ 0 < s.pos ∧ 0 < vsp.len ∧ vsp.hi ≤ t.pos ∧ t.pos ≤ s.stop ∧
      t.stop = s.stop := by
  rcases ht with ht | ht
  · obtain ⟨hold, rfl⟩ := (Scan.step_alloc ht).mp h
    have hle := le_roundUp (n := vsp.len) hq
    refine ⟨hold.start, hold.pos, hold.len_pos, ?_, hold.room, rfl⟩
    rw [Seg.hi, hold.start]
    exact Nat.add_le_add_left hle _
  · obtain ⟨hold, -, -, rfl⟩ := (Scan.step_free ht).mp h
    exact ⟨hold.start, hold.pos, hold.len_pos, by rw [Seg.hi, hold.start], hold.room, rfl⟩

theorem Scan.runs_within {q : Nat} (hq : 0 < q) {s t : Scan} {l : List Seg}
    (hl : ∀ vsp ∈ l, vsp.vsType ≠ .span) (h : Runs (Scan.Step q) s l t) :
    s.pos ≤ t.pos ∧ t.stop = s.stop := by
  induction l generalizing s with
  | nil =>
    obtain rfl := h
    simp
  | cons a l ih =>
    obtain ⟨m, hs, hrest⟩ := h
    obtain ⟨hle, hstop⟩ := ih (fun vsp hv => hl vsp (mem_cons_of_mem _ hv)) hrest
    have hfilled : a.Filled → s.pos ≤ m.pos ∧ m.stop = s.stop := fun ht => by
      obtain ⟨hlo, -, -, hhi, -, hst⟩ := Scan.step_filled hq ht hs
      rw [Seg.hi] at hhi
      exact ⟨by omega, hst⟩
    have hstep : s.pos ≤ m.pos ∧ m.stop = s.stop := by
      cases ht : a.vsType with
      | unset => simp [Scan.Step, ht] at hs
      | span => exact absurd ht (hl a mem_cons_self)
      | free => exact hfilled (.inr ht)
      | alloc => exact hfilled (.inl ht)
      | rotor =>
        obtain rfl := (Scan.step_marker (.inl ht)).mp hs
        simp
      | walker =>
        obtain rfl := (Scan.step_marker (.inr ht)).mp hs
        simp
    exact ⟨hstep.1.trans hle, hstop.trans hstep.2⟩

structure Layout (vmp : Arena) : Prop where
  quantum : IsPow2 vmp.vmQuantum
  nodup : (seg0 :: (vmp.aList ++ vmp.vmSegfree)).Nodup
  anchor : vmp.segs seg0 = ⟨0, 0, .span, false⟩
  tiled : Scan.Tiled vmp.vmQuantum.toNat Scan.init (vmp.aList.map vmp.segs)
  spans : vmp.kList = vmp.aList.filter vmp.isSpan
  disjoint : (vmp.kList.map vmp.segs).Pairwise Seg.Disjoint

namespace Layout
variable {vmp vmp' : Arena} {pre mid mid' post : List SegId}
section
variable (h : Layout vmp)
include h

theorem nodup_aList : (seg0 :: vmp.aList).Nodup :=
  h.nodup.sublist (sublist_append_left (seg0 :: vmp.aList) _)

theorem not_mem_of_segfree {x : SegId} {rest : List SegId} (hx : vmp.vmSegfree = x :: rest) :
    x ∉ vmp.aList ∧ x ≠ seg0 := by
  have := h.nodup
  rw [hx] at this
  simp only [nodup_cons, nodup_append, mem_append, mem_cons] at this
  grind

theorem nodup_of_perm (hperm : (vmp'.aList ++ vmp'.vmSegfree).Perm (vmp.aList ++ vmp.vmSegfree)) :
    (seg0 :: (vmp'.aList ++ vmp'.vmSegfree)).Nodup :=
  (hperm.cons seg0).nodup_iff.mpr h.nodup

theorem scan_at {v : SegId} (ha : vmp.aList = pre ++ v :: post) :
    ∃ s t, Runs (Scan.Step vmp.vmQuantum.toNat) Scan.init (pre.map vmp.segs) s ∧
      Scan.Step vmp.vmQuantum.toNat s (vmp.segs v) t ∧
      Scan.Tiled vmp.vmQuantum.toNat t (post.map vmp.segs) := by
  have ht := h.tiled
  rw [ha, map_append, map_cons] at ht
  obtain ⟨s, hpre, hrest⟩ := Scan.tiled_append.mp ht
  obtain ⟨t, hs, hpost⟩ := Scan.tiled_cons.mp hrest
  exact ⟨s, t, hpre, hs, hpost⟩

/-- Replacing neighbouring segments, none of them a span marker, by others that read the same. -/
theorem replace (pre mid mid' post : List SegId) (ha : vmp.aList = pre ++ (mid ++ post))
    (ha' : vmp'.aList = pre ++ (mid' ++ post)) (hc : vmp'.toArenaConf = vmp.toArenaConf)
    (hk : vmp'.kList = vmp.kList) (hnd : (seg0 :: (vmp'.aList ++ vmp'.vmSegfree)).Nodup)
    (hseg : ∀ y, y = seg0 ∨ y ∈ pre ∨ y ∈ post → vmp'.segs y = vmp.segs y)
    (hspan : ∀ y ∈ mid, vmp.isSpan y = false) (hspan' : ∀ y ∈ mid', vmp'.isSpan y = false)
    (hrun : ∀ s, Runs (Scan.Step vmp.vmQuantum.toNat) Scan.init (pre.map vmp.segs) s →
      Scan.Tiled vmp.vmQuantum.toNat s ((mid ++ post).map vmp.segs) →
      Scan.Tiled vmp.vmQuantum.toNat s (mid'.map vmp'.segs ++ post.map vmp.segs)) :
    Layout vmp' := by
  have hpre : pre.map vmp'.segs = pre.map vmp.segs :=
    map_congr_left fun y hy => hseg y (.inr (.inl hy))
  have hpost : post.map vmp'.segs = post.map vmp.segs :=
    map_congr_left fun y hy => hseg y (.inr (.inr hy))
  have hfilter : ∀ l : List SegId, (∀ y ∈ l, vmp'.segs y = vmp.segs y) →
      l.filter vmp'.isSpan = l.filter vmp.isSpan := fun l hl =>
    filter_congr fun y hy => by rw [Arena.isSpan, hl y hy, Arena.isSpan]
  have hkl : vmp'.aList.filter vmp'.isSpan = vmp.aList.filter vmp.isSpan := by
    have hmid : mid.filter vmp.isSpan = [] := by simpa using hspan
    have hmid' : mid'.filter vmp'.isSpan = [] := by simpa using hspan'
    rw [ha, ha', filter_append, filter_append, filter_append, filter_append,
      hmid, hmid', hfilter pre fun y hy => hseg y (.inr (.inl hy)),
      hfilter post fun y hy => hseg y (.inr (.inr hy))]
  have hkmem : ∀ y ∈ vmp.kList, vmp'.segs y = vmp.segs y := by
    intro y hy
    rw [h.spans, mem_filter, ha] at hy
    obtain ⟨hy, hys⟩ := hy
    rcases mem_append.mp hy with hy | hy
    · exact hseg y (.inr (.inl hy))
    · rcases mem_append.mp hy with hy | hy
      · exact absurd hys (by simp [hspan y hy])
      · exact hseg y (.inr (.inr hy))
  refine ⟨?_, ?_, ?_, ?_, ?_, ?_⟩
  · rw [hc]
    exact h.quantum
  · exact hnd
  · rw [hseg seg0 (.inl rfl), h.anchor]
  · have ht := h.tiled
    rw [hc, ha', map_append, hpre, map_append, hpost]
    rw [ha, map_append] at ht
    obtain ⟨m, hm, hrest⟩ := Scan.tiled_append.mp ht
    exact Scan.tiled_append.mpr ⟨m, hm, hrun m hm hrest⟩
  · rw [hk, h.spans, hkl]
  · rw [hk, map_congr_left hkmem]
    exact h.disjoint

theorem nodup_anchor_kList : (seg0 :: vmp.kList).Nodup := by
  rw [h.spans]
  exact h.nodup_aList.sublist (filter_sublist.cons_cons seg0)

theorem nodup_kList : vmp.kList.Nodup :=
  (nodup_cons.mp h.nodup_anchor_kList).2

theorem spans_disjoint {x y : SegId} (hx : x ∈ vmp.kList) (hy : y ∈ vmp.kList) (hne : x ≠ y) :
    (vmp.segs x).Disjoint (vmp.segs y) := by
  have : Std.Symm fun a b => (vmp.segs a).Disjoint (vmp.segs b) := ⟨fun _ _ h => h.symm⟩
  exact (pairwise_map.mp h.disjoint).forall hx hy hne

theorem span_bounds {sp : SegId} (hsp : sp ∈ vmp.kList) :
    (vmp.segs sp).vsType = .span ∧ 0 < (vmp.segs sp).lo ∧ 0 < (vmp.segs sp).len ∧
      (vmp.segs sp).hi ≤ 2^64 ∧ vmp.vmQuantum.toNat ∣ (vmp.segs sp).lo ∧
      vmp.vmQuantum.toNat ∣ (vmp.segs sp).len := by
  rw [h.spans, mem_filter] at hsp
  have ht : (vmp.segs sp).vsType = .span := by simpa [Arena.isSpan] using hsp.2
  obtain ⟨pre, post, ha⟩ := append_of_mem hsp.1
  obtain ⟨s, t, -, hs, -⟩ := h.scan_at ha
  obtain ⟨hopen, -⟩ := (Scan.step_span ht).mp hs
  exact ⟨ht, hopen.pos, hopen.len_pos, hopen.bound, hopen.aligned, hopen.len_aligned⟩

theorem free_ne {x : SegId} (hx : x ∈ vmp.aList) (ht : (vmp.segs x).vsType = .free) :
    (vmp.segs x).vsStart ≠ 0 ∧ (vmp.segs x).vsSize ≠ 0 := by
  obtain ⟨pre, post, ha⟩ := append_of_mem hx
  obtain ⟨s, t, -, hs, -⟩ := h.scan_at ha
  obtain ⟨hold, -⟩ := (Scan.step_free ht).mp hs
  have hpos := hold.pos
  have hlen := hold.len_pos
  rw [← hold.start, Seg.lo] at hpos
  rw [Seg.len] at hlen
  constructor
  · bv_omega
  · bv_omega

end

theorem exists_last_span (vmp : Arena) (l : List SegId) :
    (∀ y ∈ l, vmp.isSpan y = false) ∨ ∃ front sp inner, l = front ++ sp :: inner ∧
      vmp.isSpan sp = true ∧ ∀ y ∈ inner, vmp.isSpan y = false := by
  induction l with
  | nil => simp
  | cons a l ih =>
    rcases ih with ih | ⟨front, sp, inner, rfl, hsp, hin⟩
    · cases ha : vmp.isSpan a with
      | true => exact .inr ⟨[], a, l, rfl, ha, ih⟩
      | false =>
        left
        simpa [ha] using ih
    · exact .inr ⟨a :: front, sp, inner, rfl, hsp, hin⟩

section
variable (h : Layout vmp)
include h

theorem mem_kList {y : SegId} (hy : y ∈ vmp.aList) (hs : vmp.isSpan y = true) : y ∈ vmp.kList := by
  rw [h.spans]
  exact mem_filter.mpr ⟨hy, hs⟩

theorem within {sp v : SegId} {inner : List SegId}
    (ha : vmp.aList = pre ++ sp :: (inner ++ v :: post)) (hsp : vmp.isSpan sp = true)
    (hin : ∀ y ∈ inner, vmp.isSpan y = false) (ht : (vmp.segs v).Filled) :
    (vmp.segs sp).lo ≤ (vmp.segs v).lo ∧ (vmp.segs v).hi ≤ (vmp.segs sp).hi := by
  have hq := h.quantum.pos
  have hty : (vmp.segs sp).vsType = .span := by simpa [Arena.isSpan] using hsp
  obtain ⟨s, t, -, hs, hrest⟩ := h.scan_at ha
  obtain ⟨-, rfl⟩ := (Scan.step_span hty).mp hs
  rw [map_append, map_cons] at hrest
  obtain ⟨m, hm, hrest⟩ := Scan.tiled_append.mp hrest
  obtain ⟨m', hm', -⟩ := Scan.tiled_cons.mp hrest
  obtain ⟨hlo, -, -, hhi, hroom, -⟩ := Scan.step_filled hq ht hm'
  obtain ⟨hle, hstop⟩ := Scan.runs_within hq (by simpa [Arena.isSpan] using hin) hm
  simp only at hle hstop
  omega

theorem in_span {v : SegId} (ha : vmp.aList = pre ++ v :: post) (ht : (vmp.segs v).Filled) :
    ∃ sp ∈ vmp.kList, sp ∈ pre ∧ (vmp.segs sp).lo ≤ (vmp.segs v).lo ∧
      (vmp.segs v).hi ≤ (vmp.segs sp).hi := by
  rcases exists_last_span vmp pre with hno | ⟨front, sp, inner, rfl, hsp, hin⟩
  · -- before the first span marker there is no room
    obtain ⟨s, t, hpre, hs, -⟩ := h.scan_at ha
    obtain ⟨hlo, hpos, hlen, hhi, hroom, -⟩ := Scan.step_filled h.quantum.pos ht hs
    obtain ⟨-, hstop⟩ :=
      Scan.runs_within h.quantum.pos (by simpa [Arena.isSpan] using hno) hpre
    simp only [Scan.init] at hstop
    rw [Seg.hi] at hhi
    omega
  · exact ⟨sp, h.mem_kList (by simp [ha]) hsp, by simp, h.within (by simpa using ha) hsp hin ht⟩

theorem apart_of_before {a b : SegId} {mid : List SegId}
    (hl : vmp.aList = pre ++ a :: (mid ++ b :: post)) (hta : (vmp.segs a).Filled)
    (htb : (vmp.segs b).Filled) : (vmp.segs a).Disjoint (vmp.segs b) := by
  rcases exists_last_span vmp mid with hno | ⟨front, sp, inner, rfl, hsp, hin⟩
  · -- both lie in one span, in list order
    have hq := h.quantum.pos
    obtain ⟨s, t, -, hs, hrest⟩ := h.scan_at hl
    obtain ⟨-, -, -, hhi, -⟩ := Scan.step_filled hq hta hs
    rw [map_append, map_cons] at hrest
    obtain ⟨m, hm, hrest⟩ := Scan.tiled_append.mp hrest
    obtain ⟨m', hm', -⟩ := Scan.tiled_cons.mp hrest
    obtain ⟨hlo, -⟩ := Scan.step_filled hq htb hm'
    obtain ⟨hle, -⟩ := Scan.runs_within hq (by simpa [Arena.isSpan] using hno) hm
    left
    omega
  · obtain ⟨sa, hsa, hmem, hloa, hhia⟩ := h.in_span hl hta
    have hl' : vmp.aList = (pre ++ a :: front) ++ sp :: (inner ++ b :: post) := by simpa using hl
    obtain ⟨hlob, hhib⟩ := h.within hl' hsp hin htb
    have hne : sa ≠ sp := by
      rintro rfl
      have := h.nodup_aList
      rw [hl] at this
      simp only [nodup_cons, nodup_append, mem_append, mem_cons] at this
      grind
    have hsp' : sp ∈ vmp.kList := h.mem_kList (by simp [hl]) hsp
    exact (h.spans_disjoint hsa hsp' hne).imp (fun hd => hhia.trans (hd.trans hlob))
      fun hd => hhib.trans (hd.trans hloa)

theorem filled_lo_lt {y : SegId} (hy : y ∈ vmp.aList) (ht : (vmp.segs y).Filled) :
    (vmp.segs y).lo < (vmp.segs y).hi := by
  obtain ⟨pre, post, hl⟩ := append_of_mem hy
  obtain ⟨s, t, -, hs, -⟩ := h.scan_at hl
  obtain ⟨-, -, hlen, -⟩ := Scan.step_filled h.quantum.pos ht hs
  rw [Seg.hi]
  omega

theorem apart {a b : SegId} (ha : a ∈ vmp.aList) (hb : b ∈ vmp.aList) (hne : a ≠ b)
    (hta : (vmp.segs a).Filled) (htb : (vmp.segs b).Filled) :
    (vmp.segs a).Disjoint (vmp.segs b) := by
  obtain ⟨pre, post, hl⟩ := append_of_mem ha
  rw [hl, mem_append, mem_cons] at hb
  rcases hb with hb | rfl | hb
  · obtain ⟨front, mid, rfl⟩ := append_of_mem hb
    exact (h.apart_of_before (by simpa using hl) htb hta).symm
  · exact absurd rfl hne
  · obtain ⟨mid, back, rfl⟩ := append_of_mem hb
    exact h.apart_of_before hl hta htb

theorem eq_of_vsStart {a b : SegId} (ha : a ∈ vmp.aList) (hb : b ∈ vmp.aList)
    (hta : (vmp.segs a).Filled) (htb : (vmp.segs b).Filled)
    (heq : (vmp.segs a).vsStart = (vmp.segs b).vsStart) : a = b := by
  by_contra hne
  have hlo := h.filled_lo_lt ha hta
  have hlo' := h.filled_lo_lt hb htb
  have hsame : (vmp.segs a).lo = (vmp.segs b).lo := by rw [Seg.lo, heq, Seg.lo]
  rcases h.apart ha hb hne hta htb with hd | hd <;> omega

theorem free_apart {a b : SegId} (hl : vmp.aList = pre ++ a :: b :: post)
    (hta : (vmp.segs a).vsType = .free) : (vmp.segs b).vsType ≠ .free := by
  obtain ⟨s, t, -, hs, hrest⟩ := h.scan_at hl
  obtain ⟨-, -, -, rfl⟩ := (Scan.step_free hta).mp hs
  exact Scan.head_not_free hrest rfl _ rfl

end
end Layout

/-- A segment that only its own operations touch: an allocated one, a rotor or a walker. -/
def Arena.Fixed (vmp : Arena) (y : SegId) : Prop :=
  y ∈ vmp.aList ∧ ((vmp.segs y).vsType = .alloc ∨ (vmp.segs y).vsType = .rotor ∨
    (vmp.segs y).vsType = .walker)

/-- The allocated segments and the markers of two states are the same. -/
structure Keeps (vmp vmp' : Arena) : Prop where
  fixed : ∀ y, vmp'.Fixed y ↔ vmp.Fixed y
  segs : ∀ y, vmp.Fixed y → vmp'.segs y = vmp.segs y

theorem Keeps.of_changed {vmp vmp' : Arena} (changed : List SegId)
    (hold : ∀ y ∈ changed, ¬ vmp.Fixed y) (hnew : ∀ y ∈ changed, ¬ vmp'.Fixed y)
    (hmem : ∀ y, y ∉ changed → (y ∈ vmp'.aList ↔ y ∈ vmp.aList))
    (hsegs : ∀ y, y ∉ changed → vmp'.segs y = vmp.segs y) : Keeps vmp vmp' where
  fixed y := by
    by_cases hy : y ∈ changed
    · simp [hold y hy, hnew y hy]
    · rw [Arena.Fixed, hmem y hy, hsegs y hy, Arena.Fixed]
  segs y hy := hsegs y fun hc => hold y hc hy

end Libumem.Vmem
