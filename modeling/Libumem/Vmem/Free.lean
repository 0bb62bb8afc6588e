import Libumem.Vmem.Span

/-!
# `vmem_xfree`

A freed segment is joined with the free segments next to it, and the result either fills an
imported span, which is then removed, or goes on a freelist.
-/

namespace Libumem.Vmem
open List Arith Lib Pow2

theorem Layout.ofSame {vmp vmp' : Arena} (h : Layout vmp)
    (hc : vmp'.toArenaConf = vmp.toArenaConf) (ha : vmp'.aList = vmp.aList)
    (hk : vmp'.kList = vmp.kList) (hg : vmp'.segs = vmp.segs)
    (hs : vmp'.vmSegfree = vmp.vmSegfree) : Layout vmp' := by
  have hspan : vmp'.isSpan = vmp.isSpan := by
    funext y
    rw [Arena.isSpan, hg, Arena.isSpan]
  constructor
  · rw [hc]
    exact h.quantum
  · rw [ha, hs]
    exact h.nodup
  · rw [hg]
    exact h.anchor
  · rw [hc, ha, hg]
    exact h.tiled
  · rw [hk, ha, hspan]
    exact h.spans
  · rw [hk, hg]
    exact h.disjoint

section
variable {vmp : Arena} {pre post : List SegId} {a b : SegId}

/-- Segment `a` takes over the range of its successor `b`, which goes back in stock. -/
theorem Layout.absorb (hL : Layout vmp) (ha : vmp.aList = pre ++ a :: b :: post)
    (hsa : Scan.Solid vmp.vmQuantum.toNat (vmp.segs a))
    (hsb : Scan.Solid vmp.vmQuantum.toNat (vmp.segs b))
    (hnext : (vmp.segs a).vsType = .free → ∀ vsp ∈ (post.map vmp.segs).head?, vsp.vsType ≠ .free) :
    Layout (vmemSegDestroy (vmp.setEnd a (vmp.segs b).vsEnd) b) ∧
      (vmemSegDestroy (vmp.setEnd a (vmp.segs b).vsEnd) b).aList = pre ++ a :: post ∧
      Scan.Solid vmp.vmQuantum.toNat
        ((vmemSegDestroy (vmp.setEnd a (vmp.segs b).vsEnd) b).segs a) := by
  have hnd := hL.nodup_aList
  rw [ha] at hnd
  have hab : a ≠ b ∧ a ∉ pre ∧ a ∉ post ∧ a ≠ seg0 := by
    simp only [nodup_cons, nodup_append, mem_append, mem_cons] at hnd
    grind
  have hlist : (vmemSegDestroy (vmp.setEnd a (vmp.segs b).vsEnd) b).aList = pre ++ a :: post := by
    have hnd' : (seg0 :: ((pre ++ [a]) ++ b :: post)).Nodup := by simpa using hnd
    simp only [vmemSegDestroy_frame, setEnd_eq, setSeg_frame, ha]
    simpa only [append_assoc, singleton_append] using Ring.erase_split hnd'
  have hseg : (vmemSegDestroy (vmp.setEnd a (vmp.segs b).vsEnd) b).segs a =
      { vmp.segs a with vsEnd := (vmp.segs b).vsEnd } := by
    simp
  have hmerge : ∀ s, Scan.Tiled vmp.vmQuantum.toNat s
      (vmp.segs a :: vmp.segs b :: post.map vmp.segs) →
      Scan.Solid vmp.vmQuantum.toNat { vmp.segs a with vsEnd := (vmp.segs b).vsEnd } ∧
      Scan.Tiled vmp.vmQuantum.toNat s
        ({ vmp.segs a with vsEnd := (vmp.segs b).vsEnd } :: post.map vmp.segs) :=
    fun s hs => Scan.tiled_merge hL.quantum.pos hsa hsb hsa.type rfl rfl (fun h => .inl h)
      hnext hs
  refine ⟨?_, hlist, ?_⟩
  · refine hL.replace _ [a, b] [a] _ (by simpa using ha) (by simpa using hlist)
      (by simp) (by simp) ?_ ?_ ?_ ?_ fun s _ hs => ?_
    · refine hL.nodup_of_perm ?_
      rw [hlist, ha, perm_iff_count]
      intro y
      simp only [vmemSegDestroy_frame, setEnd_eq, setSeg_frame, count_append, count_cons]
      omega
    · intro y hy
      have hya : y ≠ a := by
        rintro rfl
        tauto
      simp [hya]
    · have := hsa.type
      have := hsb.type
      simp only [mem_cons, not_mem_nil, or_false, Arena.isSpan]
      rintro y (rfl | rfl) <;> grind
    · have := hsa.type
      simp only [mem_cons, not_mem_nil, or_false, Arena.isSpan, forall_eq, hseg]
      grind
    · rw [map_singleton, hseg]
      exact (hmerge s (by simpa using hs)).2
  · obtain ⟨s, t, -, hs, hrest⟩ := hL.scan_at ha
    rw [hseg]
    exact (hmerge s (Scan.tiled_cons.mpr ⟨t, hs, by simpa using hrest⟩)).1

end

theorem headD_of_vsType {vmp : Arena} {l : List SegId} (hanchor : (vmp.segs seg0).vsType ≠ .free) :
    (vmp.segs (l.headD seg0)).vsType ≠ .free ↔
      ∀ vsp ∈ (l.map vmp.segs).head?, vsp.vsType ≠ .free := by
  cases l <;> simp [hanchor]

theorem Layout.roundEnd {vmp : Arena} {pre post : List SegId} {v : SegId} (hL : Layout vmp)
    (ha : vmp.aList = pre ++ v :: post) (ht : (vmp.segs v).vsType = .alloc) :
    Layout (vmp.setEnd v (p2roundup (vmp.segs v).vsEnd vmp.vmQuantum)) ∧
      Scan.Solid vmp.vmQuantum.toNat
        ((vmp.setEnd v (p2roundup (vmp.segs v).vsEnd vmp.vmQuantum)).segs v) := by
  have hnd := hL.nodup_aList
  rw [ha] at hnd
  obtain ⟨hvpre, hvpost, hv0, -⟩ := Ring.nodup_split hnd
  have hround : ∀ s, Scan.Tiled vmp.vmQuantum.toNat s (vmp.segs v :: post.map vmp.segs) →
      Scan.Solid vmp.vmQuantum.toNat
        { vmp.segs v with vsEnd := p2roundup (vmp.segs v).vsEnd vmp.vmQuantum } ∧
      Scan.Tiled vmp.vmQuantum.toNat s
        ({ vmp.segs v with vsEnd := p2roundup (vmp.segs v).vsEnd vmp.vmQuantum } ::
          post.map vmp.segs) := fun s hs =>
    Scan.tiled_round hL.quantum ht ht rfl rfl hs
  constructor
  · refine hL.replace pre [v] [v] post (by simpa using ha)
      (by simpa using ha) (by simp) (by simp) hL.nodup ?_ ?_ ?_ fun s _ hs => ?_
    · intro y hy
      have hyv : y ≠ v := by
        rintro rfl
        rcases hy with rfl | hy | hy
        · exact hv0 rfl
        · exact hvpre hy
        · exact hvpost hy
      simp [hyv]
    · simp [Arena.isSpan, ht]
    · simp [Arena.isSpan, ht]
    · simpa using (hround s (by simpa using hs)).2
  · obtain ⟨s, t, -, hs, hrest⟩ := hL.scan_at ha
    simpa using (hround s (Scan.tiled_cons.mpr ⟨t, hs, hrest⟩)).1

section
variable {vmp : Arena} {pre post : List SegId} {v w : SegId}

/-- The effect of the first coalescing step: `taken` is the free successor, if there is one. -/
structure NextTaken (vmp vmp' : Arena) (pre : List SegId) (v : SegId) (taken post : List SegId) :
    Prop where
  aList : vmp'.aList = pre ++ v :: post
  stock : vmp'.vmSegfree = taken ++ vmp.vmSegfree
  count : vmp'.vmNsegfree = vmp.vmNsegfree + taken.length
  taken_free : ∀ y ∈ taken, (vmp.segs y).vsType = .free
  taken_le : taken.length ≤ 1
  seg : ∃ stop, vmp'.segs v = { vmp.segs v with vsEnd := stop }
  others : ∀ y, y ≠ v → vmp'.segs y = vmp.segs y
  kList : vmp'.kList = vmp.kList
  conf : vmp'.toArenaConf = vmp.toArenaConf
  shape : vmp'.toHashShape = vmp.toHashShape
  kstat : vmp'.toVmemKstat = vmp.toVmemKstat
  layout : Layout vmp'
  indexed : Indexed vmp' [v]
  solid : Scan.Solid vmp'.vmQuantum.toNat (vmp'.segs v)
  next : ∀ vsp ∈ (post.map vmp'.segs).head?, vsp.vsType ≠ .free

theorem xfreeNext_taken (hL : Layout vmp) (hI : Indexed vmp [v])
    (ha : vmp.aList = pre ++ v :: post) (ht : (vmp.segs v).vsType = .alloc)
    (hv : Scan.Solid vmp.vmQuantum.toNat (vmp.segs v)) :
    ∃ taken post', post = taken ++ post' ∧ NextTaken vmp (xfreeNext vmp v) pre v taken post' := by
  have hnd := hL.nodup_aList
  rw [ha] at hnd
  have hanchor : (vmp.segs seg0).vsType ≠ .free := by simp [hL.anchor]
  have hnext : vmp.aNext v = post.headD seg0 := by
    rw [Arena.aNext, ha, Ring.next_split hnd]
  unfold xfreeNext
  dsimp only
  rw [hnext]
  split
  · rename_i hfree
    rcases post with _ | ⟨n, post⟩
    · exact absurd hfree hanchor
    · simp only [headD_cons] at hfree ⊢
      have hvn : v ≠ n := by
        rintro rfl
        exact (Ring.nodup_split hnd).2.1 mem_cons_self
      have hmem : n ∈ vmp.aList := by simp [ha]
      obtain ⟨s, t, -, hs, hrest⟩ := hL.scan_at ha
      obtain ⟨m, hm, hpost⟩ := Scan.tiled_cons.mp hrest
      obtain ⟨-, hlen, -, rfl⟩ := (Scan.step_free hfree).mp hm
      have hsn : Scan.Solid vmp.vmQuantum.toNat (vmp.segs n) := ⟨.inl hfree, hlen⟩
      have hI₁ := hI.freelistDelete hmem (by simpa using hvn.symm) hfree
      have hL₁ : Layout (vmemFreelistDelete vmp n) :=
        hL.ofSame (by simp) (by simp) (by simp) (by simp) (by simp)
      obtain ⟨hL₂, hlist, hsolid⟩ := hL₁.absorb (a := v) (b := n) (by simpa using ha)
        (by simpa using hv) (by simpa using hsn) (by simp [ht])
      refine ⟨[n], post, rfl, ⟨by simpa using hlist, by simp, by simp, by simpa using hfree,
        by simp, ⟨(vmp.segs n).vsEnd, by simp⟩, fun y hy => by simp [hy], by simp, by simp, by simp,
        by simp, hL₂, ?_, by simpa using hsolid, ?_⟩⟩
      · exact hI₁.absorb (by simp) (by simpa using (nodup_cons.mp hL.nodup_aList).2) _
      · have hmap : post.map (vmemSegDestroy ((vmemFreelistDelete vmp n).setEnd v
            ((vmemFreelistDelete vmp n).segs n).vsEnd) n).segs = post.map vmp.segs := by
          refine map_congr_left fun y hy => ?_
          have hyv : y ≠ v := by
            rintro rfl
            exact (Ring.nodup_split hnd).2.1 (mem_cons_of_mem _ hy)
          simp [hyv]
        rw [hmap]
        exact Scan.head_not_free hpost rfl
  · rename_i hnot
    refine ⟨[], post, rfl, ⟨ha, by simp, by simp, by simp, by simp, ⟨(vmp.segs v).vsEnd, rfl⟩,
      fun _ _ => rfl, rfl, rfl, rfl, rfl, hL, hI, hv, (headD_of_vsType hanchor).mp hnot⟩⟩

/-- The effect of the second coalescing step: the segment `w` that is left is either `v` or the
free predecessor, which then took over the range of `v`. -/
structure PrevTaken (vmp vmp' : Arena) (pre : List SegId) (v : SegId) (pre' : List SegId)
    (w : SegId) (taken post : List SegId) : Prop where
  aList : vmp'.aList = pre' ++ w :: post
  which : (w = v ∧ taken = [] ∧ pre' = pre) ∨
    (taken = [v] ∧ pre = pre' ++ [w] ∧ (vmp.segs w).vsType = .free)
  stock : vmp'.vmSegfree = taken ++ vmp.vmSegfree
  count : vmp'.vmNsegfree = vmp.vmNsegfree + taken.length
  seg : ∃ stop, vmp'.segs w = { vmp.segs w with vsEnd := stop }
  others : ∀ y, y ≠ w → vmp'.segs y = vmp.segs y
  kList : vmp'.kList = vmp.kList
  conf : vmp'.toArenaConf = vmp.toArenaConf
  shape : vmp'.toHashShape = vmp.toHashShape
  kstat : vmp'.toVmemKstat = vmp.toVmemKstat
  layout : Layout vmp'
  indexed : Indexed vmp' [w]
  solid : Scan.Solid vmp'.vmQuantum.toNat (vmp'.segs w)
  next : ∀ vsp ∈ (post.map vmp'.segs).head?, vsp.vsType ≠ .free
  prev : (vmp'.segs w).vsType = .free ∨ (vmp'.segs (pre'.getLastD seg0)).vsType ≠ .free

theorem xfreePrev_taken (hL : Layout vmp) (hI : Indexed vmp [v])
    (ha : vmp.aList = pre ++ v :: post) (hv : Scan.Solid vmp.vmQuantum.toNat (vmp.segs v))
    (hnext : ∀ vsp ∈ (post.map vmp.segs).head?, vsp.vsType ≠ .free) :
    ∃ pre' taken, PrevTaken vmp (xfreePrev vmp v).2 pre v pre' (xfreePrev vmp v).1 taken post := by
  have hnd := hL.nodup_aList
  rw [ha] at hnd
  have hprev : vmp.aPrev v = pre.getLastD seg0 := by
    rw [Arena.aPrev, ha, Ring.prev_split hnd]
  unfold xfreePrev
  dsimp only
  rw [hprev]
  split
  · rename_i hfree
    rcases eq_nil_or_concat pre with rfl | ⟨pre', p, rfl⟩
    · exact absurd hfree (by simp [hL.anchor])
    · simp only [concat_eq_append, getLastD_concat] at ha hnd hfree ⊢
      have ha' : vmp.aList = pre' ++ p :: v :: post := by simpa using ha
      have hmem : p ∈ vmp.aList := by simp [ha]
      have hvp : p ≠ v := by
        rintro rfl
        exact (Ring.nodup_split hnd).1 (by simp)
      have hpost : ∀ y ∈ post, y ≠ p := fun y hy he =>
        (Ring.nodup_split hnd).2.2.2 p (by simp) (he ▸ hy)
      obtain ⟨s, t, -, hs, hrest⟩ := hL.scan_at ha'
      have hsp : Scan.Solid vmp.vmQuantum.toNat (vmp.segs p) :=
        ⟨.inl hfree, ((Scan.step_free hfree).mp hs).2.1⟩
      have hI₁ := hI.freelistDelete hmem (by simpa using hvp) hfree
      have hL₁ : Layout (vmemFreelistDelete vmp p) :=
        hL.ofSame (by simp) (by simp) (by simp) (by simp) (by simp)
      obtain ⟨hL₂, hlist, hsolid⟩ := hL₁.absorb (a := p) (b := v) (by simpa using ha')
        (by simpa using hsp) (by simpa using hv) (by simpa using fun _ => hnext)
      refine ⟨pre', [v], ⟨by simpa using hlist, .inr ⟨rfl, rfl, hfree⟩, by simp, by simp,
        ⟨(vmp.segs v).vsEnd, by simp⟩, fun y hy => by simp [hy], by simp, by simp, by simp,
        by simp, hL₂, ?_, by simpa using hsolid, ?_, .inl (by simp [hfree])⟩⟩
      · exact (hI₁.pendCongr (by simp [or_comm]) : Indexed _ [v, p]).absorb (by simp)
          (by simpa using (nodup_cons.mp hL.nodup_aList).2) _
      · have hmap : post.map (vmemSegDestroy ((vmemFreelistDelete vmp p).setEnd p
            ((vmemFreelistDelete vmp p).segs v).vsEnd) v).segs = post.map vmp.segs :=
          map_congr_left fun y hy => by simp [hpost y hy]
        rw [hmap]
        exact hnext
  · rename_i hnot
    exact ⟨pre, [], ⟨ha, .inl ⟨rfl, rfl, rfl⟩, by simp, by simp, ⟨(vmp.segs v).vsEnd, rfl⟩,
      fun _ _ => rfl, rfl, rfl, rfl, rfl, hL, hI, hv, hnext, .inr hnot⟩⟩

theorem afterFree_eq_false (hprev : (vmp.segs (pre.getLastD seg0)).vsType ≠ .free) {s : Scan}
    (hs : Runs (Scan.Step vmp.vmQuantum.toNat) Scan.init (pre.map vmp.segs) s) :
    s.afterFree = false := by
  cases hfree : s.afterFree with
  | false => rfl
  | true =>
    obtain ⟨front, last, hsplit, hlast⟩ := Scan.afterFree_of_runs hs hfree
    rcases eq_nil_or_concat pre with rfl | ⟨pre', p, rfl⟩
    · simp at hsplit
    · rw [concat_eq_append, map_append, map_singleton] at hsplit
      obtain ⟨-, hp⟩ := append_inj' hsplit rfl
      simp only [concat_eq_append, getLastD_concat] at hprev
      simp only [cons.injEq, and_true] at hp
      exact absurd (hp ▸ hlast) hprev

theorem freelistInsert_layout (hL : Layout vmp) (ha : vmp.aList = pre ++ w :: post)
    (hw : Scan.Solid vmp.vmQuantum.toNat (vmp.segs w))
    (hnext : ∀ vsp ∈ (post.map vmp.segs).head?, vsp.vsType ≠ .free)
    (hprev : (vmp.segs w).vsType = .free ∨ (vmp.segs (pre.getLastD seg0)).vsType ≠ .free) :
    Layout (vmemFreelistInsert vmp w) := by
  have hnd := hL.nodup_aList
  rw [ha] at hnd
  obtain ⟨hwpre, hwpost, hw0, -⟩ := Ring.nodup_split hnd
  refine hL.replace pre [w] [w] post (by simpa using ha)
    (by simpa using ha) (by simp) (by simp) (by simpa using hL.nodup) ?_ ?_ ?_ fun s hs ht => ?_
  · intro y hy
    have hyw : y ≠ w := by
      rintro rfl
      rcases hy with rfl | hy | hy
      · exact hw0 rfl
      · exact hwpre hy
      · exact hwpost hy
    simp [hyw]
  · have := hw.type
    simp only [mem_singleton, forall_eq, Arena.isSpan]
    grind
  · simp [Arena.isSpan]
  · have hretype := Scan.tiled_retype (c := { vmp.segs w with vsType := .free }) hL.quantum.pos hw
      (.inl rfl) rfl rfl (fun _ => hprev.imp id fun h => afterFree_eq_false h hs) (fun _ => hnext)
      (by simpa using ht)
    simpa using hretype

theorem isWholeImport_iff (hL : Layout vmp) (ha : vmp.aList = pre ++ w :: post) :
    isWholeImport vmp w = true ↔ (vmp.segs w).vsImport = true ∧ vmp.vmSourceFree = true ∧
      (vmp.segs (pre.getLastD seg0)).vsType = .span ∧
      (vmp.segs (post.headD seg0)).vsType = .span := by
  have hnd := hL.nodup_aList
  rw [ha] at hnd
  rw [isWholeImport, Arena.aPrev, Arena.aNext, ha, Ring.prev_split hnd, Ring.next_split hnd]
  simp only [Bool.and_eq_true, beq_iff_eq, and_assoc]

theorem spanDestroy_whole (hL : Layout vmp) (hI : Indexed vmp [w])
    (ha : vmp.aList = pre ++ w :: post) (hw : Scan.Solid vmp.vmQuantum.toNat (vmp.segs w))
    (hprev : (vmp.segs (pre.getLastD seg0)).vsType = .span)
    (hnext : (vmp.segs (post.headD seg0)).vsType = .span) :
    ∃ front sp, pre = front ++ [sp] ∧ (vmp.segs sp).vsType = .span ∧
      (vmp.segs w).vsStart = (vmp.segs sp).vsStart ∧
      (vmp.segs w).vsSize = (vmp.segs sp).vsSize ∧
      SpanRemoved vmp (vmemSpanDestroy vmp w) front sp w post ∧
      Layout (vmemSpanDestroy vmp w) ∧ Indexed (vmemSpanDestroy vmp w) [] := by
  rcases eq_nil_or_concat pre with rfl | ⟨front, sp, rfl⟩
  · obtain ⟨s, t, hs, hstep, -⟩ := hL.scan_at ha
    obtain ⟨hold, -⟩ := hw.step hL.quantum.pos hstep
    cases hs
    exact absurd hold.pos (by simp [Scan.init])
  · simp only [concat_eq_append, getLastD_concat] at ha hprev ⊢
    have ha' : vmp.aList = front ++ sp :: w :: post := by simpa using ha
    have hnext' : ∀ vsp ∈ (post.map vmp.segs).head?, vsp.vsType = .span := by
      cases post <;> simp_all
    have hspan : vmp.isSpan w = false := by
      rcases hw.type with h | h <;> simp [Arena.isSpan, h]
    have hr := vmemSpanDestroy_removed hL ha'
    obtain ⟨hstart, hsize⟩ := SpanRemoved.range hL ha' hprev hw hnext'
    exact ⟨front, sp, rfl, hprev, hstart, hsize, hr, hr.layout hL ha' hprev hspan hnext',
      hr.indexed hL ha' hprev hI⟩

end

/-- The arena after `vmem_xfree` has joined the segment `v` it frees with its free neighbours
`prev` and `next`. The structure `w` that stays is on no list yet. -/
structure Coalesced (vmp vmp' : Arena) (pre prev : List SegId) (v : SegId)
    (next post : List SegId) (w : SegId) : Prop where
  split : vmp.aList = pre ++ ((prev ++ v :: next) ++ post)
  alloc : (vmp.segs v).vsType = .alloc
  prev_free : ∀ y ∈ prev, (vmp.segs y).vsType = .free
  next_free : ∀ y ∈ next, (vmp.segs y).vsType = .free
  next_le : next.length ≤ 1
  survivor : (w = v ∧ prev = []) ∨ prev = [w]
  aList : vmp'.aList = pre ++ w :: post
  seg : ∃ stop, vmp'.segs w = { vmp.segs w with vsEnd := stop }
  others : ∀ y, y = seg0 ∨ y ∈ pre ∨ y ∈ post → vmp'.segs y = vmp.segs y
  stock : ∃ extra, vmp'.vmSegfree = extra ++ vmp.vmSegfree ∧
    vmp'.vmNsegfree = vmp.vmNsegfree + extra.length ∧ (vmp'.aList ++ extra).Perm vmp.aList
  kList : vmp'.kList = vmp.kList
  conf : vmp'.toArenaConf = vmp.toArenaConf
  shape : vmp'.toHashShape = vmp.toHashShape
  kstat : vmp'.toVmemKstat = vmp.toVmemKstat.freed (vmp.segs v).vsSize
  layout : Layout vmp'
  indexed : Indexed vmp' [w]
  solid : Scan.Solid vmp'.vmQuantum.toNat (vmp'.segs w)
  next_not : ∀ vsp ∈ (post.map vmp'.segs).head?, vsp.vsType ≠ .free
  prev_not : (vmp'.segs w).vsType = .free ∨ (vmp'.segs (pre.getLastD seg0)).vsType ≠ .free

section
variable {vmp vmp₀ vmp₁ vmp₂ : Arena} {pre post next pre' taken : List SegId} {v w : SegId}

theorem coalesced_of_taken (hL : Layout vmp) (ha : vmp.aList = pre ++ v :: (next ++ post))
    (ht : (vmp.segs v).vsType = .alloc)
    (hsame : vmp₀.vmSegfree = vmp.vmSegfree ∧ vmp₀.vmNsegfree = vmp.vmNsegfree ∧
      vmp₀.kList = vmp.kList ∧ vmp₀.toArenaConf = vmp.toArenaConf ∧
      vmp₀.toHashShape = vmp.toHashShape ∧
      vmp₀.toVmemKstat = vmp.toVmemKstat.freed (vmp.segs v).vsSize)
    (hseg : ∃ stop, vmp₀.segs v = { vmp.segs v with vsEnd := stop })
    (hothers : ∀ y, y ≠ v → vmp₀.segs y = vmp.segs y) (hn : NextTaken vmp₀ vmp₁ pre v next post)
    (hp : PrevTaken vmp₁ vmp₂ pre v pre' w taken post) :
    ∃ prev, Coalesced vmp vmp₂ pre' prev v next post w := by
  obtain ⟨hfree₀, hcount₀, hkl₀, hconf₀, hshape₀, hkstat₀⟩ := hsame
  have hnd := hL.nodup_aList
  rw [ha] at hnd
  obtain ⟨hvpre, hvpost, hv0, -⟩ := Ring.nodup_split hnd
  have hother₁ : ∀ y, y ≠ v → vmp₁.segs y = vmp.segs y := fun y hy => by
    rw [hn.others y hy, hothers y hy]
  have hsegw : ∃ stop, vmp₂.segs w = { vmp.segs w with vsEnd := stop } := by
    obtain ⟨stop₀, h₀⟩ := hseg
    obtain ⟨stop₁, h₁⟩ := hn.seg
    obtain ⟨stop₂, h₂⟩ := hp.seg
    refine ⟨stop₂, ?_⟩
    by_cases hwv : w = v
    · rw [h₂, hwv, h₁, h₀]
    · rw [h₂, hother₁ w hwv]
  obtain ⟨prev, rfl, hsurv, hprev⟩ : ∃ prev, pre = pre' ++ prev ∧
      ((w = v ∧ prev = [] ∧ taken = []) ∨ (prev = [w] ∧ taken = [v])) ∧
      ∀ y ∈ prev, (vmp.segs y).vsType = .free := by
    rcases hp.which with ⟨hw, htk, hpre⟩ | ⟨htk, hpre, hfree⟩
    · exact ⟨[], by simp [hpre], .inl ⟨hw, rfl, htk⟩, by simp⟩
    · have hwv : w ≠ v := by
        rintro rfl
        exact hvpre (by simp [hpre])
      rw [hother₁ w hwv] at hfree
      exact ⟨[w], hpre, .inr ⟨rfl, htk⟩, by simpa using hfree⟩
  have hndw := hp.layout.nodup_aList
  rw [hp.aList] at hndw
  obtain ⟨hwpre, hwpost, hw0, -⟩ := Ring.nodup_split hndw
  refine ⟨prev, by simp [ha], ht, hprev, fun y hy => ?_, hn.taken_le,
    hsurv.imp (fun h => ⟨h.1, h.2.1⟩) And.left, hp.aList, hsegw, ?_, ⟨taken ++ next, ?_, ?_,
    ?_⟩, ?_, ?_, ?_, ?_, hp.layout, hp.indexed, hp.solid, hp.next, hp.prev⟩
  · have hyv : y ≠ v := fun he => hvpost (by simp [← he, hy])
    rw [← hothers y hyv]
    exact hn.taken_free y hy
  · rintro y (rfl | hy | hy)
    · rw [hp.others _ hw0.symm, hother₁ _ hv0.symm]
    · rw [hp.others y fun he => hwpre (he ▸ hy), hother₁ y fun he => hvpre (by simp [← he, hy])]
    · rw [hp.others y fun he => hwpost (he ▸ hy), hother₁ y fun he => hvpost (by simp [← he, hy])]
  · rw [hp.stock, hn.stock, hfree₀, append_assoc]
  · rw [hp.count, hn.count, hcount₀, length_append]
    omega
  · rw [hp.aList, ha, perm_iff_count]
    intro y
    rcases hsurv with ⟨rfl, rfl, rfl⟩ | ⟨rfl, rfl⟩ <;>
      simp only [count_append, count_cons, count_nil] <;> omega
  · rw [hp.kList, hn.kList, hkl₀]
  · rw [hp.conf, hn.conf, hconf₀]
  · rw [hp.shape, hn.shape, hshape₀]
  · rw [hp.kstat, hn.kstat, hkstat₀]

end

/-- The effect of `vmem_xfree` on the segment `v` it frees. The segment is joined with its free
neighbours `prev` and `next`; `w` is the structure that stays. If `w` fills an imported span that
can be given back, the span is removed and `released` is its range. -/
structure Freed (vmp vmp' : Arena) (pre prev : List SegId) (v : SegId) (next post : List SegId)
    (w : SegId) (released : Option Block) : Prop where
  split : vmp.aList = pre ++ ((prev ++ v :: next) ++ post)
  alloc : (vmp.segs v).vsType = .alloc
  prev_free : ∀ y ∈ prev, (vmp.segs y).vsType = .free
  next_free : ∀ y ∈ next, (vmp.segs y).vsType = .free
  next_le : next.length ≤ 1
  survivor : (w = v ∧ prev = []) ∨ prev = [w]
  others : ∀ y, y = seg0 ∨ y ∈ pre ∨ y ∈ post → vmp'.segs y = vmp.segs y
  conf : vmp'.toArenaConf = vmp.toArenaConf
  shape : vmp'.toHashShape = vmp.toHashShape
  stock : ∃ extra, vmp'.vmSegfree = extra ++ vmp.vmSegfree ∧
    vmp'.vmNsegfree = vmp.vmNsegfree + extra.length ∧ (vmp'.aList ++ extra).Perm vmp.aList
  whole : released.isSome = true ↔ (vmp.segs w).vsImport = true ∧ vmp.vmSourceFree = true ∧
    (vmp.segs (pre.getLastD seg0)).vsType = .span ∧ (vmp.segs (post.headD seg0)).vsType = .span
  kept : released = none → vmp'.aList = pre ++ w :: post ∧ vmp'.kList = vmp.kList ∧
    (∃ stop, vmp'.segs w = { vmp.segs w with vsEnd := stop, vsType := .free }) ∧
    vmp'.toVmemKstat = vmp.toVmemKstat.freed (vmp.segs v).vsSize
  gone : ∀ b, released = some b → ∃ front sp, pre = front ++ [sp] ∧
    (vmp.segs sp).vsType = .span ∧ b = ⟨(vmp.segs sp).vsStart, (vmp.segs sp).vsSize⟩ ∧
    vmp'.aList = front ++ post ∧ vmp'.kList = vmp.kList.erase sp ∧
    vmp'.toVmemKstat =
      (vmp.toVmemKstat.freed (vmp.segs v).vsSize).spanRemoved (vmp.segs sp).vsSize true
  layout : Layout vmp'
  indexed : Indexed vmp' []

variable {vmp vmp₂ vmp' : Arena} {pre prev next post : List SegId} {v w : SegId}
  {vaddr size : Word} {released : Option Block}
section
variable (h : Coalesced vmp vmp₂ pre prev v next post w)
include h

theorem Coalesced.neighbours :
    vmp₂.segs (pre.getLastD seg0) = vmp.segs (pre.getLastD seg0) ∧
      vmp₂.segs (post.headD seg0) = vmp.segs (post.headD seg0) := by
  refine ⟨h.others _ ?_, h.others _ ?_⟩
  · simpa using Ring.getLastD_mem_front (z := seg0) pre post
  · cases post <;> simp

theorem Coalesced.isWholeImport_iff :
    isWholeImport vmp₂ w = true ↔ (vmp.segs w).vsImport = true ∧ vmp.vmSourceFree = true ∧
      (vmp.segs (pre.getLastD seg0)).vsType = .span ∧
      (vmp.segs (post.headD seg0)).vsType = .span := by
  obtain ⟨stop, hstop⟩ := h.seg
  have := Vmem.isWholeImport_iff h.layout h.aList
  rwa [h.neighbours.1, h.neighbours.2, h.conf, hstop] at this

theorem Coalesced.insert (hwhole : isWholeImport vmp₂ w ≠ true) :
    Freed vmp (vmemFreelistInsert vmp₂ w) pre prev v next post w none := by
  obtain ⟨stop, hstop⟩ := h.seg
  obtain ⟨extra, hfree, hcount, hperm⟩ := h.stock
  have hndw := h.layout.nodup_aList
  rw [h.aList] at hndw
  obtain ⟨hwpre, hwpost, hw0, -⟩ := Ring.nodup_split hndw
  obtain ⟨s, t, -, hs, -⟩ := h.layout.scan_at h.aList
  obtain ⟨hold, -⟩ := h.solid.step h.layout.quantum.pos hs
  refine ⟨h.split, h.alloc, h.prev_free, h.next_free, h.next_le, h.survivor, ?_, by simp [h.conf],
    by simp [h.shape], ⟨extra, by simp [hfree], by simp [hcount], by simpa using hperm⟩, ?_, ?_,
    by simp, freelistInsert_layout h.layout h.aList h.solid h.next_not h.prev_not, ?_⟩
  · intro y hy
    have hyw : y ≠ w := by
      rintro rfl
      rcases hy with rfl | hy | hy
      · exact hw0 rfl
      · exact hwpre hy
      · exact hwpost hy
    simp [hyw, h.others y hy]
  · rw [← h.isWholeImport_iff]
    simpa using hwhole
  · exact fun _ => ⟨by simp [h.aList], by simp [h.kList], ⟨stop, by simp [hstop]⟩,
      by simp [h.kstat]⟩
  · refine h.indexed.freelistInsert (by simp [h.aList]) (by simp) ?_ ?_
    · have hpos := hold.pos
      rw [← hold.start, Seg.lo] at hpos
      bv_omega
    · have hpos := hold.len_pos
      rw [Seg.len] at hpos
      bv_omega

theorem Coalesced.release (hwhole : isWholeImport vmp₂ w = true) :
    Freed vmp (vmemSpanDestroy vmp₂ w) pre prev v next post w
      (some ⟨(vmp₂.segs w).vsStart, vmp₂.vsSize w⟩) := by
  obtain ⟨stop, hstop⟩ := h.seg
  obtain ⟨extra, hfree, hcount, hperm⟩ := h.stock
  have hcond := h.isWholeImport_iff.mp hwhole
  obtain ⟨front, sp, rfl, hsp, hstart, hsize, hr, hL', hI'⟩ := spanDestroy_whole h.layout h.indexed
    h.aList h.solid (by rw [h.neighbours.1]; exact hcond.2.2.1)
    (by rw [h.neighbours.2]; exact hcond.2.2.2)
  have hspsame : vmp₂.segs sp = vmp.segs sp := h.others sp (by simp)
  have himport : (vmp₂.segs w).vsImport = true := by
    rw [hstop]
    exact hcond.1
  refine ⟨h.split, h.alloc, h.prev_free, h.next_free, h.next_le, h.survivor, ?_, ?_, ?_, ?_, ?_, ?_,
    ?_, hL', hI'⟩
  · intro y hy
    rw [hr.segs, h.others y hy]
  · rw [hr.conf, h.conf]
  · rw [hr.shape, h.shape]
  · refine ⟨sp :: w :: extra, by simp [hr.stock, hfree], ?_, ?_⟩
    · rw [hr.count, hcount]
      simp only [length_cons]
      omega
    · refine Perm.trans ?_ hperm
      rw [hr.aList, h.aList, perm_iff_count]
      intro y
      simp only [count_append, count_cons, count_nil]
      omega
  · simpa using hcond
  · simp
  · intro b hb
    simp only [Option.some.injEq] at hb
    refine ⟨front, sp, rfl, by rw [← hspsame, hsp], ?_, hr.aList, by rw [hr.kList, h.kList], ?_⟩
    · rw [← hb, Arena.vsSize, hstart, hsize, hspsame]
    · rw [hr.kstat, himport, h.kstat, hsize, hspsame]

end

theorem vmemXfree_freed (hL : Layout vmp) (hI : Indexed vmp [])
    (h : vmemXfree vmp vaddr size = some (vmp', released)) :
    ∃ pre prev v next post w, (vmp.segs v).vsStart = vaddr ∧ (vmp.segs v).vsSize = size ∧
      Freed vmp vmp' pre prev v next post w released := by
  unfold vmemXfree at h
  obtain ⟨⟨v, vmp₀⟩, hdel, h⟩ := Option.bind_eq_some_iff.mp h
  obtain ⟨hmem, -, ht, hstart, hsize, hI₀, table, rfl⟩ := hI.hashDelete hdel
  obtain ⟨pre₀, post₀, ha⟩ := append_of_mem hmem
  have hL₀ : Layout { vmp with
      vmHashTable := table
      vkFree := vmp.vkFree+1
      vkMemInuse := vmp.vkMemInuse-size } := hL.ofSame rfl rfl rfl rfl rfl
  obtain ⟨hL₁, hsolid₁⟩ := hL₀.roundEnd ha ht
  have hI₁ := hI₀.setPending (x := v) (by simp)
    { vmp.segs v with vsEnd := p2roundup (vmp.segs v).vsEnd vmp.vmQuantum }
  obtain ⟨next, post, rfl, hn⟩ := xfreeNext_taken hL₁ hI₁ ha (by simpa using ht) hsolid₁
  obtain ⟨pre, taken, hp⟩ := xfreePrev_taken hn.layout hn.indexed hn.aList hn.solid hn.next
  obtain ⟨prev, hc⟩ := coalesced_of_taken hL ha ht (by simp [VmemKstat.freed, hsize])
    ⟨p2roundup (vmp.segs v).vsEnd vmp.vmQuantum, by simp⟩ (fun y hy => by simp [hy]) hn hp
  dsimp only at h
  split at h
  · rename_i hwhole
    simp only [Option.pure_def, Option.some.injEq, Prod.mk.injEq] at h
    obtain ⟨rfl, rfl⟩ := h
    exact ⟨pre, prev, v, next, post, _, hstart, hsize, hc.release hwhole⟩
  · rename_i hwhole
    simp only [Option.pure_def, Option.some.injEq, Prod.mk.injEq] at h
    obtain ⟨rfl, rfl⟩ := h
    exact ⟨pre, prev, v, next, post, _, hstart, hsize, hc.insert hwhole⟩

end Libumem.Vmem
