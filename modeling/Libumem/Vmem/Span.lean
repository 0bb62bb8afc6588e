import Libumem.Vmem.Coalesce
import Libumem.Vmem.Index

/-!
# Adding and removing spans

`vmem_span_create` puts a span and one free segment over all of it between two spans of the
arena, and `vmem_span_destroy` takes a span out together with the one segment that fills it.
-/

namespace Libumem.Vmem
open List Arith Lib Pow2

theorem Scan.tiled_of_complete {q : Nat} {s t : Scan} {rest : List Seg} (hs : s.pos = s.stop)
    (hnext : ∀ vsp ∈ rest.head?, vsp.vsType = .span) (h : Tiled q t rest) : Tiled q s rest := by
  cases rest with
  | nil => exact ⟨s, rfl, hs⟩
  | cons vsp rest =>
    have ht : vsp.vsType = .span := by simpa using hnext
    obtain ⟨m, hm, hrest⟩ := tiled_cons.mp h
    obtain ⟨hopen, rfl⟩ := (step_span ht).mp hm
    exact tiled_cons.mpr ⟨_, (step_span ht).mpr ⟨⟨hs, hopen.pos, hopen.aligned, hopen.len_pos,
      hopen.len_aligned, hopen.bound⟩, rfl⟩, hrest⟩

/-- What `vmem_span_destroy` leaves: the span and the segment that filled it are back in stock. -/
structure SpanRemoved (vmp vmp' : Arena) (pre : List SegId) (sp v : SegId) (post : List SegId) :
    Prop where
  aList : vmp'.aList = pre ++ post
  kList : vmp'.kList = vmp.kList.erase sp
  segs : vmp'.segs = vmp.segs
  stock : vmp'.vmSegfree = sp :: v :: vmp.vmSegfree
  count : vmp'.vmNsegfree = vmp.vmNsegfree + 2
  conf : vmp'.toArenaConf = vmp.toArenaConf
  shape : vmp'.toHashShape = vmp.toHashShape
  vmFreelist : vmp'.vmFreelist = vmp.vmFreelist
  vmFreemap : vmp'.vmFreemap = vmp.vmFreemap
  vmHashTable : vmp'.vmHashTable = vmp.vmHashTable
  kstat : vmp'.toVmemKstat =
    vmp.toVmemKstat.spanRemoved (vmp.segs v).vsSize (vmp.segs v).vsImport

section
variable {vmp : Arena} {pre post : List SegId} {sp v : SegId}

theorem vmemSpanDestroy_removed (hL : Layout vmp) (ha : vmp.aList = pre ++ sp :: v :: post) :
    SpanRemoved vmp (vmemSpanDestroy vmp v) pre sp v post := by
  have hnd := hL.nodup_aList
  rw [ha] at hnd
  have hprev : vmp.aPrev v = sp := by
    have hnd' : (seg0 :: ((pre ++ [sp]) ++ v :: post)).Nodup := by simpa using hnd
    have := Ring.prev_split hnd'
    rw [Arena.aPrev, ha]
    simpa using this
  have herase : (vmp.aList.erase v).erase sp = pre ++ post := by
    have hnd' : (seg0 :: ((pre ++ [sp]) ++ v :: post)).Nodup := by simpa using hnd
    have h1 : (pre ++ sp :: v :: post).erase v = pre ++ sp :: post := by
      simpa only [append_assoc, singleton_append] using Ring.erase_split hnd'
    have h2 : (seg0 :: (pre ++ sp :: post)).Nodup := hnd.sublist (by simp)
    rw [ha, h1, Ring.erase_split h2]
  have hsum : vmp.vmNsegfree+1+1 = vmp.vmNsegfree+2 := by omega
  constructor <;> cases himp : (vmp.segs v).vsImport <;>
    simp [vmemSpanDestroy, hprev, himp, herase, hsum, Arena.vsSize, VmemKstat.spanRemoved]

namespace SpanRemoved
variable {vmp' : Arena}

theorem indexed (h : SpanRemoved vmp vmp' pre sp v post) (hL : Layout vmp)
    (ha : vmp.aList = pre ++ sp :: v :: post) (hsp : (vmp.segs sp).vsType = .span)
    (hI : Indexed vmp [v]) : Indexed vmp' [] := by
  have hnd := hL.nodup_aList
  rw [ha] at hnd
  have hv : v ∉ pre ++ post := by
    simp only [nodup_cons, nodup_append, mem_append, mem_cons] at hnd ⊢
    grind
  refine hI.transfer h.vmFreelist h.vmFreemap h.vmHashTable h.conf h.shape (fun y t ht => ?_)
    fun y _ _ _ => by rw [h.segs]
  rw [h.aList, h.segs, ha]
  by_cases hysp : y = sp
  · subst hysp
    rcases ht with rfl | rfl <;> simp [hsp]
  · by_cases hyv : y = v
    · subst hyv
      have : y ∉ pre ∧ y ∉ post := by simpa using hv
      simp [this]
    · simp [hysp, hyv]

theorem range (hL : Layout vmp) (ha : vmp.aList = pre ++ sp :: v :: post)
    (hsp : (vmp.segs sp).vsType = .span) (hv : Scan.Solid vmp.vmQuantum.toNat (vmp.segs v))
    (hnext : ∀ vsp ∈ (post.map vmp.segs).head?, vsp.vsType = .span) :
    (vmp.segs v).vsStart = (vmp.segs sp).vsStart ∧ (vmp.segs v).vsSize = (vmp.segs sp).vsSize := by
  obtain ⟨s, t, -, hs, hrest⟩ := hL.scan_at ha
  obtain ⟨hopen, rfl⟩ := (Scan.step_span hsp).mp hs
  obtain ⟨m, hm, hpost⟩ := Scan.tiled_cons.mp hrest
  obtain ⟨hold, hpos, hstop, -, -⟩ := hv.step hL.quantum.pos hm
  have hdone : m.pos = m.stop := by
    cases post with
    | nil =>
      obtain ⟨_, rfl, h⟩ := hpost
      exact h
    | cons n post =>
      obtain ⟨_, hn, -⟩ := Scan.tiled_cons.mp hpost
      exact ((Scan.step_span (by simpa using hnext)).mp hn).1.complete
  have hstart := hold.start
  rw [hpos, hstop] at hdone
  simp only [Seg.hi] at hdone hstart
  refine ⟨BitVec.eq_of_toNat_eq hstart, BitVec.eq_of_toNat_eq ?_⟩
  change (vmp.segs v).len = (vmp.segs sp).len
  omega

theorem layout (h : SpanRemoved vmp vmp' pre sp v post) (hL : Layout vmp)
    (ha : vmp.aList = pre ++ sp :: v :: post) (hsp : (vmp.segs sp).vsType = .span)
    (hv : vmp.isSpan v = false)
    (hnext : ∀ vsp ∈ (post.map vmp.segs).head?, vsp.vsType = .span) : Layout vmp' := by
  obtain ⟨s, t, hpre, hs, hrest⟩ := hL.scan_at ha
  obtain ⟨hopen, rfl⟩ := (Scan.step_span hsp).mp hs
  obtain ⟨m, -, hpost⟩ := Scan.tiled_cons.mp hrest
  have hnd := hL.nodup_aList
  rw [ha] at hnd
  have hsub : vmp'.kList.Sublist vmp.kList := h.kList ▸ erase_sublist
  have hspan : vmp.isSpan sp = true := by simp [Arena.isSpan, hsp]
  have hisSpan : vmp'.isSpan = vmp.isSpan := by
    funext y
    rw [Arena.isSpan, h.segs, Arena.isSpan]
  refine ⟨?_, ?_, ?_, ?_, ?_, ?_⟩
  · rw [h.conf]
    exact hL.quantum
  · refine (Perm.cons seg0 ?_).nodup_iff.mpr hL.nodup
    rw [h.aList, h.stock, ha, perm_iff_count]
    intro y
    simp only [count_append, count_cons]
    omega
  · rw [h.segs]
    exact hL.anchor
  · rw [h.conf, h.aList, h.segs, map_append]
    exact Scan.tiled_append.mpr ⟨s, hpre, Scan.tiled_of_complete hopen.complete hnext hpost⟩
  · have hmem : sp ∉ pre.filter vmp.isSpan := fun hm => by
      have := (mem_filter.mp hm).1
      simp only [nodup_cons, nodup_append, mem_append, mem_cons] at hnd
      grind
    rw [h.kList, hL.spans, hisSpan, h.aList, ha, filter_append, filter_cons_of_pos hspan,
      filter_cons_of_neg (by simp [hv]), erase_append_right _ hmem, erase_cons_head, filter_append]
  · rw [h.segs]
    exact hL.disjoint.sublist (hsub.map _)

end SpanRemoved
end

/-- What the caller promises of a span it adds: a non-empty range that does not start at zero,
does not run past the top of the address space and is not in the arena yet. -/
structure NewSpan (vmp : Arena) (vaddr size : Word) : Prop where
  vaddr_ne : vaddr ≠ 0
  size_ne : size ≠ 0
  bound : vaddr.toNat + size.toNat ≤ 2 ^ 64
  disjoint : ∀ sp ∈ vmp.kList, (vmp.segs sp).hi ≤ vaddr.toNat ∨
    vaddr.toNat + size.toNat ≤ (vmp.segs sp).lo

/-- What `vmem_span_create` adds: a span marker and a free segment over the whole span. -/
structure SpanAdded (vmp vmp' : Arena) (pre : List SegId) (sp x : SegId) (post : List SegId)
    (vaddr size : Word) (imported : Bool) : Prop where
  aList : vmp'.aList = pre ++ sp :: x :: post
  kList : vmp'.kList = pre.filter vmp.isSpan ++ sp :: post.filter vmp.isSpan
  place : (pre.filter vmp.isSpan).getLastD seg0 = vmp.kPrev (spanKnext vmp vaddr imported)
  span : vmp'.segs sp = ⟨vaddr, vaddr + size, .span, false⟩
  seg : vmp'.segs x = ⟨vaddr, vaddr + size, .free, imported⟩
  others : ∀ y, y ≠ sp → y ≠ x → vmp'.segs y = vmp.segs y
  stock : vmp.vmSegfree = sp :: x :: vmp'.vmSegfree
  count : vmp'.vmNsegfree = vmp.vmNsegfree - 2
  conf : vmp'.toArenaConf = vmp.toArenaConf
  shape : vmp'.toHashShape = vmp.toHashShape
  kstat : vmp'.toVmemKstat = vmp.toVmemKstat.spanAdded size imported
  aligned : vmp.vmQuantum.toNat ∣ vaddr.toNat ∧ vmp.vmQuantum.toNat ∣ (vaddr + size).toNat

variable {vmp vmp' : Arena} {vaddr size : Word} {imported : Bool} {x : SegId}

theorem spanKnext_mem (vmp : Arena) (start : Word) (imported : Bool) :
    spanKnext vmp start imported ∈ seg0 :: vmp.kList := by
  unfold spanKnext
  split
  · exact Ring.next_mem _
  · exact mem_cons_self

theorem split_at_span (hL : Layout vmp) {knext : SegId} (hk : knext ∈ seg0 :: vmp.kList) :
    ∃ pre post, vmp.aList = pre ++ post ∧ vmp.aPrev knext = pre.getLastD seg0 ∧
      (∀ vsp ∈ (post.map vmp.segs).head?, vsp.vsType = .span) ∧
      vmp.kPrev knext = (pre.filter vmp.isSpan).getLastD seg0 := by
  have hnd := hL.nodup_aList
  have hndk := hL.nodup_anchor_kList
  by_cases hz : knext = seg0
  · subst hz
    refine ⟨vmp.aList, [], by simp, ?_, by simp, ?_⟩
    · exact Ring.prev_anchor (nodup_cons.mp hnd).1
    · rw [Arena.kPrev, Ring.prev_anchor (nodup_cons.mp hndk).1, hL.spans]
  · have hmem : knext ∈ vmp.aList.filter vmp.isSpan := by
      rw [← hL.spans]
      simpa [hz] using hk
    obtain ⟨ha, hspan⟩ := mem_filter.mp hmem
    obtain ⟨pre, post, hsplit⟩ := append_of_mem ha
    have hks : vmp.kList = pre.filter vmp.isSpan ++ knext :: post.filter vmp.isSpan := by
      rw [hL.spans, hsplit, filter_append, filter_cons_of_pos hspan]
    refine ⟨pre, knext :: post, hsplit, ?_, ?_, ?_⟩
    · rw [Arena.aPrev, hsplit, Ring.prev_split (hsplit ▸ hnd)]
    · simpa [Arena.isSpan] using hspan
    · rw [Arena.kPrev, hks, Ring.prev_split (hks ▸ hndk)]

theorem Indexed.spanCreate {vmp₁ vmp₂ : Arena} {sp y knext : SegId} {pend : List SegId}
    (hI : Indexed vmp pend) (hnew : NewSpan vmp vaddr size) (imported : Bool)
    (hc₁ : vmemSegCreate vmp (vmp.aPrev knext) vaddr (vaddr + size) = some (sp, vmp₁))
    (hc₂ : vmemSegCreate ((vmp₁.setType sp .span).kInsert ((vmp₁.setType sp .span).kPrev
      (spanKnext vmp vaddr imported)) sp) sp vaddr (vaddr + size) = some (y, vmp₂))
    (hsp : sp ∉ vmp.aList) (hsp₁ : sp ∈ vmp₁.aList) (hy₁ : y ∉ vmp₁.aList) (hy₂ : y ∈ vmp₂.aList)
    (hpend : y ∉ pend) : Indexed ((vmemFreelistInsert vmp₂ y).setImport y imported) pend := by
  obtain ⟨_, -, heq₂⟩ := vmemSegCreate_eq_some.mp hc₂
  have hsegy : vmp₂.segs y = ⟨vaddr, vaddr+size, .unset, false⟩ := by simp [heq₂]
  have hsize : (⟨vaddr, vaddr+size, .unset, false⟩ : Seg).vsSize = size := by
    rw [Seg.vsSize]
    bv_omega
  have hI₁ := hI.segCreate hc₁ (Ring.prev_mem _) hsp
  have hIs : Indexed (vmp₁.setType sp .span) pend :=
    (hI₁.setPending mem_cons_self { vmp₁.segs sp with vsType := .span }).dropPending
      fun _ => by simp
  have hIk : Indexed ((vmp₁.setType sp .span).kInsert
      ((vmp₁.setType sp .span).kPrev (spanKnext vmp vaddr imported)) sp) pend :=
    hIs.ofSame rfl rfl rfl rfl rfl rfl rfl
  have hI₂ := hIk.segCreate hc₂ (by simp [hsp₁]) (by simpa using hy₁)
  have hI₃ := hI₂.freelistInsert hy₂ hpend (by rw [hsegy]; exact hnew.vaddr_ne)
    (by rw [hsegy, hsize]; exact hnew.size_ne)
  refine hI₃.setFree (by simp) (by simp) ?_ ?_ ?_
  · simpa [hsegy] using hnew.vaddr_ne
  · simpa [hsegy, Seg.vsSize] using hnew.size_ne
  · simp [Seg.vsSize]

theorem vmemSpanCreate_added (hL : Layout vmp)
    (h : vmemSpanCreate vmp vaddr size imported = some (x, vmp')) :
    ∃ pre sp post, vmp.aList = pre ++ post ∧
      (∀ vsp ∈ (post.map vmp.segs).head?, vsp.vsType = .span) ∧
      SpanAdded vmp vmp' pre sp x post vaddr size imported ∧
      ∀ pend, Indexed vmp pend → (∀ y ∈ pend, y ∈ vmp.aList) → NewSpan vmp vaddr size →
        Indexed vmp' pend := by
  obtain ⟨pre, post, ha, haprev, hnext, hkprev⟩ :=
    split_at_span hL (spanKnext_mem vmp vaddr imported)
  have hnd := hL.nodup_aList
  obtain ⟨hguard, h⟩ := Option.ite_none_left_eq_some.mp h
  simp only [Option.bind_eq_bind, Option.bind_eq_some_iff, Option.pure_def, Option.some.injEq,
    Prod.exists, Prod.mk.injEq] at h
  obtain ⟨sp, vmp₁, hc₁, y, vmp₂, hc₂, rfl, rfl⟩ := h
  obtain ⟨rest₁, hstock₁, heq₁⟩ := vmemSegCreate_eq_some.mp hc₁
  obtain ⟨rest₂, hstock₂, heq₂⟩ := vmemSegCreate_eq_some.mp hc₂
  obtain ⟨hsp, hsp0⟩ := hL.not_mem_of_segfree hstock₁
  have hstock : vmp.vmSegfree = sp :: y :: rest₂ := by
    rw [hstock₁]
    simpa [heq₁] using hstock₂
  have hy : y ∉ vmp.aList ∧ y ≠ seg0 ∧ y ≠ sp := by
    have := hL.nodup
    rw [hstock] at this
    simp only [nodup_cons, nodup_append, mem_append, mem_cons] at this
    grind
  rw [ha] at hnd
  have hlist₁ : vmp₁.aList = pre ++ sp :: post := by
    rw [heq₁, haprev, ha, Ring.insert_getLastD hnd]
  have hnd₁ : (seg0 :: (pre ++ sp :: post)).Nodup := by
    rw [ha] at hsp
    simp only [nodup_cons, nodup_append, mem_append, mem_cons] at hnd hsp ⊢
    grind
  have hlist₂ : vmp₂.aList = pre ++ sp :: y :: post := by
    simp only [heq₂, kInsert_frame, setType_eq, setSeg_frame, hlist₁]
    exact Ring.insert_split hnd₁
  have hkl : vmp.kList = pre.filter vmp.isSpan ++ post.filter vmp.isSpan := by
    rw [hL.spans, ha, filter_append]
  have hndk := hL.nodup_anchor_kList
  rw [hkl] at hndk
  have hklist₂ : vmp₂.kList = pre.filter vmp.isSpan ++ sp :: post.filter vmp.isSpan := by
    have hprev : (vmp₁.setType sp .span).kPrev (spanKnext vmp vaddr imported) =
        (pre.filter vmp.isSpan).getLastD seg0 := by
      rw [← hkprev]
      simp [Arena.kPrev, heq₁]
    simp only [heq₂, kInsert_frame, hprev]
    simp only [setType_eq, setSeg_frame, heq₁, hkl]
    exact Ring.insert_getLastD hndk
  have hseg₁ : vmp₁.segs sp = ⟨vaddr, vaddr+size, .unset, false⟩ := by simp [heq₁]
  have hsegsp : vmp₂.segs sp = ⟨vaddr, vaddr+size, .span, false⟩ := by
    simp [heq₂, hseg₁, hy.2.2.symm]
  have hsegy : vmp₂.segs y = ⟨vaddr, vaddr+size, .unset, false⟩ := by simp [heq₂]
  refine ⟨pre, sp, post, ha, hnext, ?_, ?_⟩
  · constructor
    · cases imported <;> simp [hlist₂]
    · cases imported <;> simp [hklist₂]
    · exact hkprev.symm
    · cases imported <;> simp [hsegsp, hy.2.2.symm]
    · cases imported <;> simp [hsegy]
    · intro z hzsp hzy
      cases imported <;> simp [hzy, heq₂, hzsp, heq₁]
    · cases imported <;> simp [hstock, heq₂]
    · cases imported <;> simp [heq₂, heq₁] <;> omega
    · cases imported <;> simp [heq₂, heq₁]
    · cases imported <;> simp [heq₂, heq₁]
    · cases imported <;> simp [heq₂, heq₁, VmemKstat.spanAdded]
    · have hguard' : (vaddr ||| (vaddr+size)) &&& (vmp.vmQuantum-1) = 0 := by
        simpa using hguard
      rwa [or_and_eq_zero_iff, and_pred_eq_zero_iff _ hL.quantum,
        and_pred_eq_zero_iff _ hL.quantum] at hguard'
  · intro pend hI hpend hnew
    have hy₁ : y ∉ vmp₁.aList := by
      have := hy.1
      rw [hlist₁]
      rw [ha] at this
      simp only [mem_append, mem_cons] at this ⊢
      grind
    have hI' := hI.spanCreate hnew imported hc₁ hc₂ hsp (by simp [hlist₁]) hy₁ (by simp [hlist₂])
      fun hm => hy.1 (hpend y hm)
    cases imported <;> exact hI'.ofSame rfl rfl rfl rfl rfl rfl rfl

section
variable {pre post : List SegId} {sp : SegId}

theorem SpanAdded.fresh (hL : Layout vmp)
    (h : SpanAdded vmp vmp' pre sp x post vaddr size imported) : sp ∉ vmp.aList ∧ x ∉ vmp.aList := by
  have hnd := hL.nodup
  rw [h.stock] at hnd
  simp only [nodup_cons, nodup_append, mem_append, mem_cons] at hnd
  grind

theorem SpanAdded.segs_of_mem (hL : Layout vmp)
    (h : SpanAdded vmp vmp' pre sp x post vaddr size imported) {y : SegId} (hy : y ∈ vmp.aList) :
    vmp'.segs y = vmp.segs y := by
  obtain ⟨hsp, hx⟩ := h.fresh hL
  exact h.others y (fun he => hsp (he ▸ hy)) fun he => hx (he ▸ hy)

theorem SpanAdded.map_kList (hL : Layout vmp) (ha : vmp.aList = pre ++ post)
    (h : SpanAdded vmp vmp' pre sp x post vaddr size imported) :
    vmp.kList.map vmp.segs =
      (pre.filter vmp.isSpan).map vmp.segs ++ (post.filter vmp.isSpan).map vmp.segs ∧
    vmp'.kList.map vmp'.segs = (pre.filter vmp.isSpan).map vmp.segs ++
      ⟨vaddr, vaddr+size, .span, false⟩ :: (post.filter vmp.isSpan).map vmp.segs := by
  have hsame : ∀ l : List SegId, (∀ y ∈ l, y ∈ vmp.aList) →
      (l.filter vmp.isSpan).map vmp'.segs = (l.filter vmp.isSpan).map vmp.segs := fun l hl =>
    map_congr_left fun y hy => h.segs_of_mem hL (hl y (mem_of_mem_filter hy))
  rw [hL.spans, h.kList, map_append, map_cons, h.span]
  refine ⟨by rw [ha, filter_append, map_append], ?_⟩
  rw [hsame pre (by simp +contextual [ha]), hsame post (by simp +contextual [ha])]

theorem SpanAdded.segs_seg0 (hL : Layout vmp)
    (h : SpanAdded vmp vmp' pre sp x post vaddr size imported) : vmp'.segs seg0 = vmp.segs seg0 := by
  have hnd := hL.nodup
  rw [h.stock] at hnd
  simp only [nodup_cons, mem_append, mem_cons, not_or] at hnd
  exact h.others seg0 hnd.1.2.1 hnd.1.2.2.1

theorem SpanAdded.spans (hL : Layout vmp) (ha : vmp.aList = pre ++ post)
    (h : SpanAdded vmp vmp' pre sp x post vaddr size imported) :
    vmp'.kList = vmp'.aList.filter vmp'.isSpan := by
  have hsame : ∀ l : List SegId, (∀ y ∈ l, y ∈ vmp.aList) →
      l.filter vmp'.isSpan = l.filter vmp.isSpan := fun l hl =>
    filter_congr fun y hy => by rw [Arena.isSpan, h.segs_of_mem hL (hl y hy), Arena.isSpan]
  rw [h.kList, h.aList, filter_append, hsame pre (by simp +contextual [ha]),
    filter_cons_of_pos (by simp [Arena.isSpan, h.span]),
    filter_cons_of_neg (by simp [Arena.isSpan, h.seg]), hsame post (by simp +contextual [ha])]

theorem Seg.len_mk (vaddr size : Word) (type : SegType) (mark : Bool) :
    (⟨vaddr, vaddr+size, type, mark⟩ : Seg).len = size.toNat := by
  rw [Seg.len, Seg.vsSize]
  congr 1
  bv_omega

theorem SpanAdded.tiled (hL : Layout vmp) (ha : vmp.aList = pre ++ post)
    (hnext : ∀ vsp ∈ (post.map vmp.segs).head?, vsp.vsType = .span)
    (hnew : NewSpan vmp vaddr size) (h : SpanAdded vmp vmp' pre sp x post vaddr size imported) :
    Scan.Tiled vmp'.vmQuantum.toNat Scan.init (vmp'.aList.map vmp'.segs) := by
  have hsame : ∀ l : List SegId, (∀ y ∈ l, y ∈ vmp.aList) → l.map vmp'.segs = l.map vmp.segs :=
    fun l hl => map_congr_left fun y hy => h.segs_of_mem hL (hl y hy)
  have hvpos : 0 < vaddr.toNat := by
    have := hnew.vaddr_ne
    bv_omega
  have hspos : 0 < size.toNat := by
    have := hnew.size_ne
    bv_omega
  have hsdvd : vmp.vmQuantum.toNat ∣ size.toNat := by
    have := dvd_toNat_sub hL.quantum h.aligned.2 h.aligned.1
    have heq : vaddr+size-vaddr = size := by bv_omega
    rwa [heq] at this
  have ht := hL.tiled
  rw [ha, map_append] at ht
  obtain ⟨s, hs, hrest⟩ := Scan.tiled_append.mp ht
  -- the segments before the new span end one of the old spans
  have hcomplete : s.pos = s.stop := by
    cases post with
    | nil =>
      obtain ⟨_, rfl, h⟩ := hrest
      exact h
    | cons n post =>
      obtain ⟨_, hn, -⟩ := Scan.tiled_cons.mp hrest
      exact ((Scan.step_span (by simpa using hnext)).mp hn).1.complete
  rw [h.conf, h.aList, map_append, hsame pre (by simp +contextual [ha]), map_cons, map_cons,
    hsame post (by simp +contextual [ha]), h.span, h.seg]
  refine Scan.tiled_append.mpr ⟨s, hs, Scan.tiled_cons.mpr ⟨_, (Scan.step_span rfl).mpr
    ⟨⟨hcomplete, hvpos, h.aligned.1, ?_, ?_, ?_⟩, rfl⟩, Scan.tiled_cons.mpr ⟨_,
    (Scan.step_free rfl).mpr ⟨⟨rfl, hvpos, h.aligned.1, ?_, ?_, ?_⟩, ?_, rfl, rfl⟩,
    Scan.tiled_of_complete ?_ hnext hrest⟩⟩⟩
  all_goals simp only [Seg.hi, Seg.lo, Seg.len_mk]
  all_goals first
    | exact hspos
    | exact hsdvd
    | exact hnew.bound
    | exact le_rfl

theorem SpanAdded.disjoint (hL : Layout vmp) (ha : vmp.aList = pre ++ post)
    (hnew : NewSpan vmp vaddr size) (h : SpanAdded vmp vmp' pre sp x post vaddr size imported) :
    (vmp'.kList.map vmp'.segs).Pairwise Seg.Disjoint := by
  obtain ⟨hold, hmap⟩ := h.map_kList hL ha
  rw [hmap, pairwise_middle Seg.Disjoint.symm, pairwise_cons, ← hold]
  refine ⟨fun b hb => ?_, hL.disjoint⟩
  obtain ⟨y, hy, rfl⟩ := mem_map.mp hb
  rw [Seg.Disjoint, Seg.hi, Seg.lo, Seg.len_mk]
  exact (hnew.disjoint y hy).symm

theorem SpanAdded.layout (hL : Layout vmp) (ha : vmp.aList = pre ++ post)
    (hnext : ∀ vsp ∈ (post.map vmp.segs).head?, vsp.vsType = .span)
    (hnew : NewSpan vmp vaddr size) (h : SpanAdded vmp vmp' pre sp x post vaddr size imported) :
    Layout vmp' := by
  refine ⟨?_, ?_, ?_, h.tiled hL ha hnext hnew, h.spans hL ha, h.disjoint hL ha hnew⟩
  · rw [h.conf]
    exact hL.quantum
  · refine (Perm.cons seg0 ?_).nodup_iff.mpr hL.nodup
    rw [h.aList, h.stock, ha, perm_iff_count]
    intro y
    simp only [count_append, count_cons]
    omega
  · rw [h.segs_seg0 hL]
    exact hL.anchor

end

end Libumem.Vmem
