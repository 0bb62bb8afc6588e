import Libumem.Vmem.Carve
import Libumem.Vmem.Index
import Libumem.Vmem.Layout

/-!
# `vmem_seg_alloc`

What `vmem_seg_alloc` does to the arena, on both of its paths, and that it keeps the layout and
the lists.
-/

namespace Libumem.Vmem
open List Arith Lib Pow2

/-- The effect of adding what is left of a free segment as one more free segment, or none. -/
structure Remainder (vmp vmp' : Arena) (pre extra post : List SegId) (start stop : Word) :
    Prop where
  aList : vmp'.aList = pre ++ (extra ++ post)
  stock : vmp.vmSegfree = extra ++ vmp'.vmSegfree
  count : vmp'.vmNsegfree = vmp.vmNsegfree - extra.length
  new : extra.map vmp'.segs = remainderSegs start stop false
  others : ∀ y ∉ extra, vmp'.segs y = vmp.segs y
  kList : vmp'.kList = vmp.kList
  conf : vmp'.toArenaConf = vmp.toArenaConf
  shape : vmp'.toHashShape = vmp.toHashShape
  kstat : vmp'.toVmemKstat = vmp.toVmemKstat
  indexed : ∀ pend, Indexed vmp pend → (∀ y ∈ pend, y ∈ vmp.aList) →
    (start ≠ stop → start ≠ 0) → Indexed vmp' pend

theorem segRemainder_spec {vmp vmp' : Arena} (pre post : List SegId) {start stop : Word}
    {vprev : SegId} (hnd : (seg0 :: (vmp.aList ++ vmp.vmSegfree)).Nodup)
    (ha : vmp.aList = pre ++ post) (hprev : vprev = pre.getLastD seg0)
    (h : segRemainder vmp vprev start stop = some vmp') :
    ∃ extra, Remainder vmp vmp' pre extra post start stop := by
  unfold segRemainder at h
  split at h
  · rename_i hne
    obtain ⟨⟨x, vmp₁⟩, hcreate, h⟩ := Option.bind_eq_some_iff.mp h
    cases h
    obtain ⟨rest, hstock, heq⟩ := vmemSegCreate_eq_some.mp hcreate
    have hnd' : (seg0 :: (pre ++ post)).Nodup := by
      rw [← ha]
      exact hnd.sublist (sublist_append_left (seg0 :: vmp.aList) _)
    have hx : x ∉ vmp.aList ∧ x ≠ seg0 := by
      rw [hstock] at hnd
      simp only [nodup_cons, nodup_append, mem_append, mem_cons] at hnd
      grind
    have hlist : vmp₁.aList = pre ++ x :: post := by
      rw [heq, ha, hprev, Ring.insert_getLastD hnd']
    have hmem : vprev ∈ seg0 :: vmp.aList := by
      rw [hprev, ha]
      exact Ring.getLastD_mem_front pre post
    refine ⟨[x], by simp [hlist], by simp [hstock, heq], by simp [heq], ?_, ?_, by simp [heq],
      by simp [heq], by simp [heq], by simp [heq], ?_⟩
    · simp [heq, remainderSegs, hne]
    · intro y hy
      simp only [mem_singleton] at hy
      simp [heq, hy]
    · intro pend hI hpend hstart
      have hI₁ := hI.segCreate hcreate hmem hx.1
      have hseg : vmp₁.segs x = ⟨start, stop, .unset, false⟩ := by simp [heq]
      refine hI₁.freelistInsert (by simp [hlist]) (fun hm => hx.1 (hpend x hm)) ?_ ?_
      · rw [hseg]
        exact hstart hne
      · rw [hseg]
        simp only [Seg.vsSize]
        intro h0
        apply hne
        bv_omega
  · rename_i heq
    simp only [Option.some.injEq] at h
    subst h
    exact ⟨[], by simp [ha], by simp, by simp, by simpa [remainderSegs] using heq, by simp, rfl,
      rfl, rfl, rfl, fun _ hI _ _ => hI⟩

/-- The effect of `vmem_seg_alloc`: segment `v` becomes the allocated segment `x` with the free
segments `left` and `right` around it. An import mark stays on the structure of `v`, which is
either the allocated segment or the free one to the right of it. -/
structure Carved (vmp vmp' : Arena) (pre : List SegId) (v : SegId) (post left : List SegId)
    (x : SegId) (right : List SegId) (addr size : Word) : Prop where
  aList : vmp'.aList = pre ++ ((left ++ x :: right) ++ post)
  stock : ∃ extra, vmp.vmSegfree = extra ++ vmp'.vmSegfree ∧
    vmp'.vmNsegfree = vmp.vmNsegfree - extra.length ∧ (v :: extra).Perm (left ++ x :: right)
  left_segs : left.map vmp'.segs = remainderSegs (vmp.segs v).vsStart addr false
  marks : ∃ xmark rmark, vmp'.segs x = ⟨addr, addr + size, .alloc, xmark⟩ ∧
    right.map vmp'.segs =
      remainderSegs (addr + p2roundup size vmp.vmQuantum) (vmp.segs v).vsEnd rmark ∧
    ((x = v ∧ xmark = (vmp.segs v).vsImport ∧ rmark = false) ∨
      (right = [v] ∧ xmark = false ∧ rmark = (vmp.segs v).vsImport))
  others : ∀ y ∉ left ++ x :: right, vmp'.segs y = vmp.segs y
  kList : vmp'.kList = vmp.kList
  conf : vmp'.toArenaConf = vmp.toArenaConf
  shape : vmp'.toHashShape = vmp.toHashShape
  kstat : vmp'.toVmemKstat = vmp.toVmemKstat.allocated size
  indexed : Indexed vmp' []

variable {vmp vmp' : Arena} {pre post : List SegId} {v x : SegId} {addr size : Word}
section
variable (hL : Layout vmp) (hI : Indexed vmp []) (ha : vmp.aList = pre ++ v :: post)
  (ht : (vmp.segs v).vsType = .free) (fits : Fits vmp.vmQuantum (vmp.segs v) addr size)
include hL hI ha ht fits

theorem vmemSegAlloc_fast
    (hsame : p2samehighbit (vmp.segs v).vsSize
      ((vmp.segs v).vsSize-p2roundup size vmp.vmQuantum) = true)
    (haddr : addr = (vmp.segs v).vsStart)
    (hc : vmemSegCreate (vmp.setStart v (addr+p2roundup size vmp.vmQuantum))
      ((vmp.setStart v (addr+p2roundup size vmp.vmQuantum)).aPrev v) addr (addr+size) =
      some (x, vmp')) :
    Carved vmp (vmemHashInsert vmp' x) pre v post [] x [v] addr size := by
  obtain ⟨s, t, -, hs, -⟩ := hL.scan_at ha
  obtain ⟨-, hrem, hclass⟩ := (p2samehighbit_iff _ _).mp hsame
  have hnd := hL.nodup_aList
  rw [ha] at hnd
  obtain ⟨rest, hstock, heq⟩ := vmemSegCreate_eq_some.mp hc
  replace hstock : vmp.vmSegfree = x :: rest := hstock
  obtain ⟨hx, hx0⟩ := hL.not_mem_of_segfree hstock
  have hxv : x ≠ v := fun he => hx (by simp [ha, he])
  have hlist : vmp'.aList = pre ++ x :: v :: post := by
    rw [heq]
    change Ring.insert seg0 vmp.aList (Ring.prev seg0 vmp.aList v) x = _
    rw [ha, Ring.insert_prev_split hnd]
  have hsegx : vmp'.segs x = ⟨addr, addr+size, .unset, false⟩ := by simp [heq]
  have hsegv : vmp'.segs v =
      { vmp.segs v with vsStart := addr+p2roundup size vmp.vmQuantum } := by
    simp [heq, hxv.symm]
  have hne : addr+p2roundup size vmp.vmQuantum ≠ (vmp.segs v).vsEnd := by
    rw [haddr]
    intro he
    apply hrem
    rw [Seg.vsSize]
    bv_omega
  have hstart := fits.end_ne_zero hL.quantum ht hs hne
  have hsize : (vmp.segs v).vsEnd-(addr+p2roundup size vmp.vmQuantum) =
      (vmp.segs v).vsSize-p2roundup size vmp.vmQuantum := by
    rw [haddr, Seg.vsSize]
    bv_omega
  have hI₁ : Indexed (vmp.setStart v (addr+p2roundup size vmp.vmQuantum)) [] := by
    refine hI.setFree ht ht hstart ?_ ?_
    · simpa only [Seg.vsSize, hsize] using hrem
    · simp only [Seg.vsSize, hsize]
      simpa only [Seg.vsSize] using hclass.symm
  have hI₂ := hI₁.segCreate hc (by
    change Ring.prev seg0 vmp.aList v ∈ seg0 :: vmp.aList
    exact Ring.prev_mem _) hx
  refine ⟨by simp [hlist], ⟨[x], by simp [hstock, heq], by simp [heq], ?_⟩, ?_, ?_, ?_,
    by simp [heq], by simp [heq], by simp [heq], by simp [heq, vsSize_range], ?_⟩
  · exact Perm.swap x v []
  · simp [remainderSegs, haddr]
  · refine ⟨false, (vmp.segs v).vsImport, by simp [hsegx], ?_, .inr ⟨rfl, rfl, rfl⟩⟩
    simp [hxv.symm, hsegv, remainderSegs, hne, ht]
  · intro y hy
    simp only [nil_append, mem_cons, not_mem_nil, or_false, not_or] at hy
    simp [hy.1, heq, hy.2]
  · exact hI₂.hashInsert (by simp [hlist]) (by simp)

theorem vmemSegAlloc_slow {vmp₁ vmp₂ : Arena}
    (hright : segRemainder (vmemFreelistDelete vmp v) v (addr+p2roundup size vmp.vmQuantum)
      (vmp.segs v).vsEnd = some vmp₁)
    (hleft : segRemainder vmp₁ (vmp₁.aPrev v) (vmp.segs v).vsStart addr = some vmp₂) :
    ∃ left right, Carved vmp
      (vmemHashInsert ((vmp₂.setStart v addr).setEnd v (addr+size)) v) pre v post left v right
        addr size := by
  obtain ⟨s, t, -, hs, -⟩ := hL.scan_at ha
  obtain ⟨hle, hround⟩ := fits.roundUp_bounds hL.quantum ht hs
  obtain ⟨hold, -, -, -⟩ := (Scan.step_free ht).mp hs
  have hmem : v ∈ vmp.aList := by simp [ha]
  have hI₀ := hI.freelistDelete hmem (by simp) ht
  obtain ⟨right, hr⟩ := segRemainder_spec (pre ++ [v]) post
    (by simpa using hL.nodup) (by simp [ha]) (by simp) hright
  have hperm₁ : (vmp₁.aList ++ vmp₁.vmSegfree).Perm (vmp.aList ++ vmp.vmSegfree) := by
    have hstock : vmp.vmSegfree = right ++ vmp₁.vmSegfree := by simpa using hr.stock
    rw [hr.aList, ha, hstock, perm_iff_count]
    intro y
    simp only [count_append, count_cons, count_nil]
    omega
  have hnd₁ : (seg0 :: (vmp₁.aList ++ vmp₁.vmSegfree)).Nodup :=
    (hperm₁.cons seg0).nodup_iff.mpr hL.nodup
  have ha₁ : vmp₁.aList = pre ++ (v :: (right ++ post)) := by simpa using hr.aList
  have hnd₁' : (seg0 :: (pre ++ v :: (right ++ post))).Nodup := by
    rw [← ha₁]
    exact hnd₁.sublist (sublist_append_left (seg0 :: vmp₁.aList) _)
  obtain ⟨left, hl⟩ := segRemainder_spec pre (v :: (right ++ post)) hnd₁ ha₁
    (by rw [Arena.aPrev, ha₁, Ring.prev_split hnd₁']) hleft
  have hstock₁ : vmp.vmSegfree = right ++ vmp₁.vmSegfree := by simpa using hr.stock
  have hvstock : v ∉ vmp.vmSegfree := fun hv =>
    (nodup_append.mp (nodup_cons.mp hL.nodup).2).2.2 v hmem v hv rfl
  have hvright : v ∉ right := fun hv => hvstock (by simp [hstock₁, hv])
  have hvleft : v ∉ left := fun hv => hvstock (by simp [hstock₁, hl.stock, hv])
  have hdisj : ∀ y ∈ right, y ∉ left := by
    have := (nodup_append.mp (nodup_cons.mp hL.nodup).2).2.1
    rw [hstock₁, hl.stock] at this
    grind
  have hsegv : vmp₂.segs v = vmp.segs v := by
    rw [hl.others v hvleft, hr.others v hvright]
    simp
  have hstart : (vmp.segs v).vsStart ≠ 0 := by
    have hpos := hold.pos
    rw [← hold.start, Seg.lo] at hpos
    bv_omega
  have hI₁ := hr.indexed [v] hI₀ (by simpa using hmem)
    fun hne => fits.end_ne_zero hL.quantum ht hs hne
  have hI₂ := hl.indexed [v] hI₁ (by simp [ha₁]) fun _ => hstart
  have hseg : ∀ y, y ≠ v →
      (vmemHashInsert ((vmp₂.setStart v addr).setEnd v (addr+size)) v).segs y = vmp₂.segs y :=
    fun y hy => by simp [hy]
  refine ⟨left, right, ?_, ⟨right ++ left, ?_, ?_, ?_⟩, ?_, ?_, ?_, ?_, ?_, ?_, ?_, ?_⟩
  · simp [hl.aList]
  · simp [hstock₁, hl.stock]
  · have h1 := hr.count
    have h2 := hl.count
    simp only [vmemFreelistDelete_frame] at h1
    simp only [vmemHashInsert_frame, setEnd_eq, setStart_eq, setSeg_frame, h2, h1,
      length_append, Nat.cast_add]
    omega
  · rw [perm_iff_count]
    intro y
    simp only [count_append, count_cons]
    omega
  · rw [← hl.new]
    exact map_congr_left fun y hy => hseg y fun he => hvleft (he ▸ hy)
  · refine ⟨(vmp.segs v).vsImport, false, ?_, ?_, .inl ⟨rfl, rfl, rfl⟩⟩
    · simp [hsegv]
    · rw [← hr.new]
      refine map_congr_left fun y hy => ?_
      rw [hseg y fun he => hvright (he ▸ hy), hl.others y (hdisj y hy)]
  · intro y hy
    simp only [mem_append, mem_cons, not_or] at hy
    rw [hseg y hy.2.1, hl.others y hy.1, hr.others y hy.2.2]
    simp
  · simp [hl.kList, hr.kList]
  · simp [hl.conf, hr.conf]
  · simp [hl.shape, hr.shape]
  · simp [hl.kstat, hr.kstat, vsSize_range]
  · refine ((hI₂.setPending (by simp) _).setPending (by simp) _).hashInsert ?_ (by simp)
    simp [hl.aList]

theorem vmemSegAlloc_carved (h : vmemSegAlloc vmp v addr size = some (x, vmp')) :
    ∃ left right, Carved vmp vmp' pre v post left x right addr size := by
  unfold vmemSegAlloc at h
  dsimp only at h
  split at h
  · rename_i hpath
    simp only [Bool.and_eq_true, beq_iff_eq] at hpath
    obtain ⟨⟨y, vmp₁⟩, hc, h⟩ := Option.bind_eq_some_iff.mp h
    cases h
    exact ⟨[], [v], vmemSegAlloc_fast hL hI ha ht fits hpath.1 hpath.2 hc⟩
  · obtain ⟨vmp₁, hright, h⟩ := Option.bind_eq_some_iff.mp h
    obtain ⟨vmp₂, hleft, h⟩ := Option.bind_eq_some_iff.mp h
    cases h
    exact vmemSegAlloc_slow hL hI ha ht fits hright hleft

end

theorem Carved.layout {left right : List SegId} (hL : Layout vmp)
    (ha : vmp.aList = pre ++ v :: post) (ht : (vmp.segs v).vsType = .free)
    (fits : Fits vmp.vmQuantum (vmp.segs v) addr size)
    (h : Carved vmp vmp' pre v post left x right addr size) : Layout vmp' := by
  obtain ⟨xmark, rmark, hx, hright, -⟩ := h.marks
  obtain ⟨extra, hstock, -, hperm⟩ := h.stock
  have hnew : ∀ y ∈ left ++ x :: right, y = v ∨ y ∈ vmp.vmSegfree := fun y hy => by
    rcases mem_cons.mp (hperm.mem_iff.mpr hy) with rfl | hm
    · exact .inl rfl
    · exact .inr (by simp [hstock, hm])
  have hnd := hL.nodup
  have hseg : ∀ y, y = seg0 ∨ y ∈ pre ∨ y ∈ post → vmp'.segs y = vmp.segs y := by
    intro y hy
    refine h.others y fun hm => ?_
    have := hnew y hm
    rw [ha] at hnd
    simp only [nodup_cons, nodup_append, mem_append, mem_cons] at hnd
    grind
  have htype : ∀ y ∈ left ++ x :: right,
      (vmp'.segs y).vsType = .free ∨ (vmp'.segs y).vsType = .alloc := by
    intro y hy
    rcases mem_append.mp hy with hy | hy
    · exact .inl (vsType_of_mem_remainderSegs (h.left_segs ▸ mem_map_of_mem hy))
    · rcases mem_cons.mp hy with rfl | hy
      · exact .inr (by rw [hx])
      · exact .inl (vsType_of_mem_remainderSegs (hright ▸ mem_map_of_mem hy))
  refine hL.replace _ [v] (left ++ x :: right) _ (by simpa using ha) h.aList h.conf
    h.kList ?_ hseg ?_ ?_ fun s _ hs => ?_
  · refine hL.nodup_of_perm ?_
    rw [h.aList, ha, hstock, perm_iff_count]
    intro y
    have := (perm_iff_count.mp hperm) y
    simp only [count_append, count_cons] at this ⊢
    omega
  · simp [Arena.isSpan, ht]
  · intro y hy
    rcases htype y hy with h | h <;> simp [Arena.isSpan, h]
  · have := Scan.tiled_carve (x := vmp'.segs x) false rmark fits hL.quantum ht
      (by rw [hx]) (by rw [hx]) (by rw [hx]) (by simpa using hs)
    simpa [h.left_segs, hright] using this

end Libumem.Vmem
