import Libumem.Vmem.Grow
import Libumem.Vmem.Xalloc

/-!
# Effects on the allocated segments and the markers

Every critical section does one of three things to the segments that callers and walkers hold on
to: it leaves them alone, adds an allocated one, or takes one out.
-/

namespace Libumem.Vmem
open List Arith Lib Pow2

/-- What every critical section keeps. -/
structure WellFormed (vmp : Arena) : Prop where
  layout : Layout vmp
  indexed : Indexed vmp []
  rotor : vmRotor ∈ vmp.aList ∧ (vmp.segs vmRotor).vsType = .rotor

theorem WellFormed.rotor_fixed {vmp : Arena} (h : WellFormed vmp) : vmp.Fixed vmRotor :=
  ⟨h.rotor.1, .inr (.inl h.rotor.2)⟩

/-- The allocated segment `x` is new. -/
structure Adds (vmp vmp' : Arena) (x : SegId) (addr size : Word) : Prop where
  new : ¬ vmp.Fixed x
  fixed : ∀ y, vmp'.Fixed y ↔ y = x ∨ vmp.Fixed y
  segs : ∀ y, vmp.Fixed y → vmp'.segs y = vmp.segs y
  start : (vmp'.segs x).vsStart = addr
  stop : (vmp'.segs x).vsEnd = addr + size
  type : (vmp'.segs x).vsType = .alloc

/-- The segment `v` is no longer allocated, or no longer a marker of the arena. -/
structure Drops (vmp vmp' : Arena) (v : SegId) : Prop where
  fixed : ∀ y, vmp'.Fixed y ↔ y ≠ v ∧ vmp.Fixed y
  segs : ∀ y, vmp.Fixed y → y ≠ v → vmp'.segs y = vmp.segs y

variable {vmp vmp' vmp'' : Arena} {x v walker : SegId} {addr size : Word}
  {pre post left right : List SegId} {afterme : Option SegId} {released : Option Block}

theorem rotor_of_keeps (h : WellFormed vmp) (hk : Keeps vmp vmp') :
    vmRotor ∈ vmp'.aList ∧ (vmp'.segs vmRotor).vsType = .rotor := by
  refine ⟨((hk.fixed _).mpr h.rotor_fixed).1, ?_⟩
  rw [hk.segs _ h.rotor_fixed, h.rotor.2]

theorem rotor_of_adds (h : WellFormed vmp) (ha : Adds vmp vmp' x addr size) :
    vmRotor ∈ vmp'.aList ∧ (vmp'.segs vmRotor).vsType = .rotor := by
  refine ⟨((ha.fixed _).mpr (.inr h.rotor_fixed)).1, ?_⟩
  rw [ha.segs _ h.rotor_fixed, h.rotor.2]

theorem rotor_of_drops (h : WellFormed vmp) (hd : Drops vmp vmp' v) (hv : v ≠ vmRotor) :
    vmRotor ∈ vmp'.aList ∧ (vmp'.segs vmRotor).vsType = .rotor := by
  refine ⟨((hd.fixed _).mpr ⟨hv.symm, h.rotor_fixed⟩).1, ?_⟩
  rw [hd.segs _ h.rotor_fixed hv.symm, h.rotor.2]

theorem Carved.adds (hL : Layout vmp) (ha : vmp.aList = pre ++ v :: post)
    (ht : (vmp.segs v).vsType = .free)
    (h : Carved vmp vmp' pre v post left x right addr size) : Adds vmp vmp' x addr size := by
  obtain ⟨xmark, rmark, hx, hright, -⟩ := h.marks
  obtain ⟨extra, hstock, -, hperm⟩ := h.stock
  have hnew : ∀ y ∈ left ++ x :: right, y = v ∨ y ∈ vmp.vmSegfree := fun y hy => by
    rcases mem_cons.mp (hperm.mem_iff.mpr hy) with rfl | hm
    · exact .inl rfl
    · exact .inr (by simp [hstock, hm])
  have hnot : ∀ y ∈ left ++ x :: right, ¬ vmp.Fixed y := fun y hy hf => by
    rcases hnew y hy with rfl | hm
    · simp [Arena.Fixed, ht] at hf
    · have := hL.nodup
      simp only [nodup_cons, nodup_append, mem_append] at this
      exact this.2.2.2 y hf.1 y hm rfl
  have hfree : ∀ y ∈ left ++ right, (vmp'.segs y).vsType = .free := fun y hy => by
    rcases mem_append.mp hy with hy | hy
    · exact vsType_of_mem_remainderSegs (h.left_segs ▸ mem_map_of_mem hy)
    · exact vsType_of_mem_remainderSegs (hright ▸ mem_map_of_mem hy)
  refine ⟨hnot x (by simp), fun y => ?_, fun y hy => h.others y fun hm => hnot y hm hy, by rw [hx],
    by rw [hx], by rw [hx]⟩
  by_cases hy : y ∈ left ++ x :: right
  · have hmid : y = x ∨ y ∈ left ++ right := by
      simp only [mem_append, mem_cons] at hy ⊢
      tauto
    rcases hmid with rfl | hm
    · simp [Arena.Fixed, h.aList, hx]
    · have hty := hfree y hm
      have hyx : y ≠ x := by
        rintro rfl
        rw [hx] at hty
        simp at hty
      have hnf : ¬ vmp'.Fixed y := by simp [Arena.Fixed, hty]
      simp [hnf, hyx, hnot y hy]
  · have hyx : y ≠ x := fun he => hy (by simp [he])
    have hyv : y = v → ¬ vmp.Fixed y := by
      rintro rfl
      simp [Arena.Fixed, ht]
    have hmem : y ∈ vmp'.aList ↔ y ∈ pre ++ post := by
      simp only [h.aList, mem_append] at hy ⊢
      tauto
    have hmem' : y ∈ vmp.aList ↔ y ∈ pre ++ post ∨ y = v := by
      simp only [ha, mem_append, mem_cons]
      tauto
    rw [Arena.Fixed, h.others y hy, hmem]
    simp only [hyx, false_or]
    constructor
    · exact fun hf => ⟨hmem'.mpr (.inl hf.1), hf.2⟩
    · exact fun hf => ⟨(hmem'.mp hf.1).resolve_right fun he => hyv he hf, hf.2⟩

theorem vmemSegAlloc_adds (hw : WellFormed vmp) (hv : v ∈ vmp.aList)
    (ht : (vmp.segs v).vsType = .free) (fits : Fits vmp.vmQuantum (vmp.segs v) addr size)
    (h : vmemSegAlloc vmp v addr size = some (x, vmp')) :
    WellFormed vmp' ∧ Adds vmp vmp' x addr size ∧ vmp'.toArenaConf = vmp.toArenaConf := by
  obtain ⟨pre, post, ha⟩ := append_of_mem hv
  obtain ⟨left, right, hc⟩ := vmemSegAlloc_carved hw.layout hw.indexed ha ht fits h
  have hadds := hc.adds hw.layout ha ht
  exact ⟨⟨hc.layout hw.layout ha ht fits, hc.indexed, rotor_of_adds hw hadds⟩, hadds, hc.conf⟩

theorem Freed.drops {prev next : List SegId} {w : SegId} {released : Option Block}
    (hL : Layout vmp) (h : Freed vmp vmp' pre prev v next post w released) : Drops vmp vmp' v := by
  have hnd := hL.nodup_aList
  rw [h.split] at hnd
  have hvout : v ∉ pre ∧ v ∉ post := by
    simp only [nodup_cons, nodup_append, mem_append, mem_cons] at hnd
    grind
  have hsame : ∀ y, y ∈ pre ∨ y ∈ post → vmp'.segs y = vmp.segs y := fun y hy =>
    h.others y (.inr hy)
  -- besides `v` itself only free segments are joined
  have hout : ∀ y, vmp.Fixed y → y ≠ v → y ∈ pre ∨ y ∈ post := fun y hy hyv => by
    have hm := hy.1
    simp only [h.split, mem_append, mem_cons] at hm
    rcases hm with hm | (hm | hm | hm) | hm
    · exact .inl hm
    · simp [Arena.Fixed, h.prev_free y hm] at hy
    · exact absurd hm hyv
    · simp [Arena.Fixed, h.next_free y hm] at hy
    · exact .inr hm
  have hmem : ∀ y, vmp'.Fixed y → y ∈ pre ∨ y ∈ post := fun y hy => by
    cases hr : released with
    | none =>
      obtain ⟨hlist, -, ⟨stop, hseg⟩, -⟩ := h.kept hr
      have hm := hy.1
      simp only [hlist, mem_append, mem_cons] at hm
      rcases hm with hm | rfl | hm
      · exact .inl hm
      · simp [Arena.Fixed, hseg] at hy
      · exact .inr hm
    | some b =>
      obtain ⟨front, sp, hpre, -, -, hlist, -⟩ := h.gone b hr
      have hm := hy.1
      simp only [hlist, mem_append] at hm
      exact hm.imp (fun hm => by simp [hpre, hm]) id
  refine ⟨fun y => ⟨fun hy => ?_, fun hy => ?_⟩, fun y hy hyv => hsame y (hout y hy hyv)⟩
  · have hm := hmem y hy
    refine ⟨?_, ?_⟩
    · rintro rfl
      tauto
    · rw [Arena.Fixed, hsame y hm] at hy
      refine ⟨?_, hy.2⟩
      simp only [h.split, mem_append, mem_cons]
      tauto
  · have hm := hout y hy.2 hy.1
    rw [Arena.Fixed, hsame y hm]
    refine ⟨?_, hy.2.2⟩
    cases hr : released with
    | none =>
      obtain ⟨hlist, -⟩ := h.kept hr
      simp only [hlist, mem_append, mem_cons]
      tauto
    | some b =>
      obtain ⟨front, sp, hpre, hsp, -, hlist, -⟩ := h.gone b hr
      have hysp : y ≠ sp := by
        rintro rfl
        simp [Arena.Fixed, hsp] at hy
      simp only [hpre, hlist, mem_append, mem_singleton] at hm ⊢
      tauto

theorem vmemXfree_drops {vaddr : Word} {released : Option Block} (hw : WellFormed vmp)
    (h : vmemXfree vmp vaddr size = some (vmp', released)) :
    WellFormed vmp' ∧ (∃ v, v ∈ vmp.aList ∧ (vmp.segs v).vsType = .alloc ∧
      (vmp.segs v).vsStart = vaddr ∧ (vmp.segs v).vsSize = size ∧ Drops vmp vmp' v) ∧
      vmp'.toArenaConf = vmp.toArenaConf := by
  obtain ⟨pre, prev, v, next, post, w, hstart, hsize, hf⟩ :=
    vmemXfree_freed hw.layout hw.indexed h
  have hd := hf.drops hw.layout
  have hv : v ≠ vmRotor := by
    rintro rfl
    have := hf.alloc
    simp [hw.rotor.2] at this
  refine ⟨⟨hf.layout, hf.indexed, rotor_of_drops hw hd hv⟩, ⟨v, ?_, hf.alloc, hstart, hsize, hd⟩,
    hf.conf⟩
  simp [hf.split]

theorem SpanAdded.keeps {sp : SegId} {vaddr : Word} {imported : Bool} (hL : Layout vmp)
    (ha : vmp.aList = pre ++ post) (h : SpanAdded vmp vmp' pre sp x post vaddr size imported) :
    Keeps vmp vmp' := by
  have hnd := hL.nodup
  rw [h.stock] at hnd
  have hout : ∀ y ∈ [sp, x], ¬ vmp.Fixed y := fun y hy hf => by
    simp only [nodup_cons, nodup_append, mem_append, mem_cons] at hnd
    exact hnd.2.2.2 y hf.1 y (by simp at hy; tauto) rfl
  refine Keeps.of_changed [sp, x] hout ?_ (fun y hy => ?_) fun y hy => ?_
  · simp [Arena.Fixed, h.span, h.seg]
  · simp only [mem_cons, not_mem_nil, or_false, not_or] at hy
    rw [h.aList, ha]
    simp [hy.1, hy.2]
  · simp only [mem_cons, not_mem_nil, or_false, not_or] at hy
    exact h.others y hy.1 hy.2

theorem vmemSpanCreate_keeps {vaddr : Word} {imported : Bool} (hw : WellFormed vmp)
    (hnew : NewSpan vmp vaddr size) (h : vmemSpanCreate vmp vaddr size imported = some (x, vmp')) :
    WellFormed vmp' ∧ Keeps vmp vmp' ∧ vmp'.toArenaConf = vmp.toArenaConf ∧ x ∈ vmp'.aList ∧
      vmp'.segs x = ⟨vaddr, vaddr+size, .free, imported⟩ ∧
      vmp.vmQuantum.toNat ∣ vaddr.toNat := by
  obtain ⟨pre, sp, post, ha, hnext, hs, hI⟩ := vmemSpanCreate_added hw.layout h
  have hk := hs.keeps hw.layout ha
  exact ⟨⟨hs.layout hw.layout ha hnext hnew, hI [] hw.indexed (by simp) hnew, rotor_of_keeps hw hk⟩,
    hk, hs.conf, by simp [hs.aList], hs.seg, hs.aligned.1⟩

theorem isMarker_of_fixed {y : SegId} :
    vmp.Fixed y ↔ y ∈ vmp.aList ∧ ((vmp.segs y).vsType = .alloc ∨ vmp.isMarker y = true) := by
  rw [isMarker_iff, Arena.Fixed]

theorem Joined.fixed (h : Joined vmp vmp' walker afterme) (hw : vmp.isMarker walker = true)
    (y : SegId) : vmp'.Fixed y ↔ if y = walker then afterme.isSome = true else vmp.Fixed y := by
  have hmark : vmp'.isMarker y = vmp.isMarker y := by
    rw [Arena.isMarker, h.types, Arena.isMarker]
  rw [isMarker_of_fixed, isMarker_of_fixed, h.types, hmark]
  cases hm : vmp.isMarker y with
  | true =>
    rw [h.markers y hm]
    split <;> simp
  | false =>
    have hyw : y ≠ walker := by
      rintro rfl
      simp [hw] at hm
    rw [if_neg hyw]
    by_cases ht : (vmp.segs y).vsType = .alloc
    · have hbody : ∀ v : Arena, v.isMarker y = false → (y ∈ v.aList ↔ y ∈ v.body) := fun v hv => by
        simp [Arena.body, hv]
      rw [hbody vmp' (hmark.trans hm), hbody vmp hm]
      rcases h.body with ⟨hb, -⟩ | ⟨front, p, n, back, hb, hb', -, hn, -⟩
      · rw [hb]
      · have hyn : y ≠ n := by
          rintro rfl
          simp [hn] at ht
        simp [hb, hb', hyn]
    · simp [ht]

theorem Joined.segs_fixed (h : Joined vmp vmp' walker afterme) {y : SegId} (hy : vmp.Fixed y) :
    vmp'.segs y = vmp.segs y := by
  rcases h.body with ⟨-, hs, -⟩ | ⟨front, p, n, back, -, -, hp, -, hs, -⟩
  · rw [hs]
  · rw [hs, Function.update_of_ne]
    rintro rfl
    simp [Arena.Fixed, hp] at hy

theorem Advanced.fixed (h : Advanced vmp walker afterme vmp' released)
    (hw : vmp.isMarker walker = true) :
    (∀ y, vmp'.Fixed y ↔ if y = walker then afterme.isSome = true else vmp.Fixed y) ∧
      (∀ y, vmp.Fixed y → vmp'.segs y = vmp.segs y) ∧ Layout vmp' ∧ Indexed vmp' [] ∧
      vmp'.toArenaConf = vmp.toArenaConf := by
  cases h with
  | kept hj _ =>
    exact ⟨hj.fixed hw, fun y hy => hj.segs_fixed hy, hj.layout, hj.indexed, hj.conf⟩
  | @gone mid _ front post sp w hj hsplit hspan _ hfree _ _ hr hL hI =>
    have hsegs : vmp'.segs = mid.segs := by simp [hr.segs]
    have hkeep : ∀ y, vmp'.Fixed y ↔ mid.Fixed y := fun y => by
      rw [Arena.Fixed, hsegs, hr.aList, Arena.Fixed, hsplit]
      by_cases hy : y = sp
      · simp [hy, hspan]
      · by_cases hyw : y = w
        · simp [hyw, hfree]
        · simp [hy, hyw]
    refine ⟨fun y => (hkeep y).trans (hj.fixed hw y), fun y hy => ?_, hL, hI, ?_⟩
    · rw [hsegs, hj.segs_fixed hy]
    · rw [hr.conf, ← hj.conf]
      simp

theorem vmemAdvance_keeps {after : SegId} (hw : WellFormed vmp) (hmem : walker ∈ vmp.aList)
    (hm : vmp.isMarker walker = true) (hplace : vmp.Place walker (some after))
    (h : vmemAdvance vmp walker (some after) = (vmp', released)) :
    WellFormed vmp' ∧ Keeps vmp vmp' ∧ vmp'.toArenaConf = vmp.toArenaConf := by
  obtain ⟨hf, hs, hL, hI, hconf⟩ :=
    (vmemAdvance_advanced hw.layout hw.indexed hmem hm hplace h).fixed hm
  have hk : Keeps vmp vmp' := by
    refine ⟨fun y => ?_, hs⟩
    rw [hf y]
    split
    · rename_i hy
      subst hy
      simp [isMarker_of_fixed, hmem, hm]
    · rfl
  exact ⟨⟨hL, hI, rotor_of_keeps hw hk⟩, hk, hconf⟩

theorem vmemAdvance_drops (hw : WellFormed vmp) (hmem : walker ∈ vmp.aList)
    (hm : (vmp.segs walker).vsType = .walker) (h : vmemAdvance vmp walker none = (vmp', released)) :
    WellFormed vmp' ∧ Drops vmp vmp' walker ∧ vmp'.toArenaConf = vmp.toArenaConf := by
  have hmark : vmp.isMarker walker = true := isMarker_iff.mpr (.inr hm)
  obtain ⟨hf, hs, hL, hI, hconf⟩ :=
    (vmemAdvance_advanced hw.layout hw.indexed hmem hmark (by simp [Arena.Place]) h).fixed hmark
  have hd : Drops vmp vmp' walker := by
    refine ⟨fun y => ?_, fun y hy _ => hs y hy⟩
    rw [hf y]
    split
    · rename_i hy
      simp [hy]
    · rename_i hy
      simp [hy]
  have hne : walker ≠ vmRotor := by
    rintro rfl
    simp [hw.rotor.2] at hm
  exact ⟨⟨hL, hI, rotor_of_drops hw hd hne⟩, hd, hconf⟩

end Libumem.Vmem
