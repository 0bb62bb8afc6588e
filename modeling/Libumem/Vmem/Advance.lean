import Libumem.Vmem.Free

/-!
# `vmem_advance`

Rotors and walkers are markers in the segment list. Linking one in splits nothing; taking one out
lets the free segments on its two sides join, and what they make up may be a whole imported span.
-/

namespace Libumem.Vmem
open Function List Arith Lib Pow2

/-- A rotor or a walker. -/
def Arena.isMarker (vmp : Arena) (vsp : SegId) : Bool :=
  (vmp.segs vsp).vsType == .rotor || (vmp.segs vsp).vsType == .walker

/-- The segments of the arena without the markers between them. -/
def Arena.body (vmp : Arena) : List SegId := vmp.aList.filter fun vsp => !vmp.isMarker vsp

theorem isMarker_iff {vmp : Arena} {x : SegId} : vmp.isMarker x = true ↔
    (vmp.segs x).vsType = .rotor ∨ (vmp.segs x).vsType = .walker := by
  simp [Arena.isMarker]

namespace Scan
variable {q : Nat} {s : Scan} {a b c m : Seg} {rest : List Seg}

theorem tiled_insert_marker (hm : m.vsType = .rotor ∨ m.vsType = .walker)
    (h : Tiled q s rest) : Tiled q s (m :: rest) := by
  refine tiled_cons.mpr ⟨_, (step_marker hm).mpr rfl, ?_⟩
  exact tiled_congr_afterFree h rfl rfl (by simp)

theorem tiled_remove_marker (hm : m.vsType = .rotor ∨ m.vsType = .walker)
    (h : Tiled q s (m :: rest))
    (hfree : s.afterFree = true → ∀ vsp ∈ rest.head?, vsp.vsType ≠ .free) : Tiled q s rest := by
  obtain ⟨t, ht, hrest⟩ := tiled_cons.mp h
  obtain rfl := (step_marker hm).mp ht
  exact tiled_congr_afterFree hrest rfl rfl fun hs => .inr (hfree hs)

theorem tiled_join (hq : 0 < q) (ha : a.vsType = .free) (hb : b.vsType = .free)
    (hm : m.vsType = .rotor ∨ m.vsType = .walker) (hc : c.vsType = .free)
    (hstart : c.vsStart = a.vsStart) (hend : c.vsEnd = b.vsEnd)
    (h : Tiled q s (a :: m :: b :: rest)) : Tiled q s (c :: rest) := by
  obtain ⟨t, hs, hrest⟩ := tiled_cons.mp h
  obtain ⟨hold, hlen, hafter, rfl⟩ := (step_free ha).mp hs
  obtain ⟨t, ht, hrest⟩ := tiled_cons.mp hrest
  obtain rfl := (step_marker hm).mp ht
  obtain ⟨t, ht, hrest'⟩ := tiled_cons.mp hrest
  obtain ⟨-, hlenb, -, rfl⟩ := (step_free hb).mp ht
  -- read the first segment as an allocated one, after which a free segment may follow
  have hstep : Step q s { a with vsType := .alloc } ⟨s.pos+a.len, s.stop, false⟩ := by
    have hround : roundUp ({ a with vsType := .alloc } : Seg).len q = a.len := roundUp_of_dvd hq hlen
    rw [step_alloc rfl, hround]
    exact ⟨⟨hold.start, hold.pos, hold.aligned, hold.len_pos, hold.room, hold.bound⟩, rfl⟩
  exact (tiled_merge (a := { a with vsType := .alloc }) hq ⟨.inr rfl, hlen⟩ ⟨.inl hb, hlenb⟩
    (.inl hc) hstart hend (fun _ => .inr hafter) (fun _ => head_not_free hrest' rfl)
    (tiled_cons.mpr ⟨_, hstep, hrest⟩)).2

end Scan

section
variable {vmp : Arena} {x : SegId}

theorem exists_cut {l : List SegId} {after : SegId} (h : after ∈ seg0 :: l) :
    ∃ pre post, l = pre ++ post ∧ pre.getLastD seg0 = after := by
  rcases mem_cons.mp h with rfl | h
  · exact ⟨[], l, rfl, rfl⟩
  · obtain ⟨pre, post, rfl⟩ := append_of_mem h
    exact ⟨pre ++ [after], post, by simp, by simp⟩

theorem Layout.insertMarker (hL : Layout vmp) (hx : vmp.isMarker x = true)
    (hnew : x ∉ seg0 :: (vmp.aList ++ vmp.vmSegfree)) {after : SegId}
    (hafter : after ∈ seg0 :: vmp.aList) : Layout (vmp.aInsert after x) := by
  obtain ⟨pre, post, ha, rfl⟩ := exists_cut hafter
  have hnd := hL.nodup_aList
  rw [ha] at hnd
  have hlist : (vmp.aInsert (pre.getLastD seg0) x).aList = pre ++ x :: post := by
    change Ring.insert seg0 vmp.aList (pre.getLastD seg0) x = _
    rw [ha, Ring.insert_getLastD hnd]
  have hspan : vmp.isSpan x = false := by
    rcases isMarker_iff.mp hx with h | h <;> simp [Arena.isSpan, h]
  have hperm : (pre ++ x :: post ++ vmp.vmSegfree).Perm (x :: (vmp.aList ++ vmp.vmSegfree)) := by
    rw [ha, perm_iff_count]
    intro y
    simp only [count_append, count_cons]
    omega
  refine ⟨hL.quantum, ?_, hL.anchor, ?_, ?_, hL.disjoint⟩
  · rw [hlist]
    refine ((hperm.cons seg0).trans (Perm.swap x seg0 _)).nodup_iff.mpr ?_
    exact nodup_cons.mpr ⟨hnew, hL.nodup⟩
  · have ht := hL.tiled
    rw [hlist]
    change Scan.Tiled _ _ ((pre ++ x :: post).map vmp.segs)
    rw [map_append, map_cons]
    rw [ha, map_append] at ht
    obtain ⟨s, hs, hrest⟩ := Scan.tiled_append.mp ht
    exact Scan.tiled_append.mpr ⟨s, hs, Scan.tiled_insert_marker (isMarker_iff.mp hx) hrest⟩
  · rw [hlist]
    change vmp.kList = (pre ++ x :: post).filter vmp.isSpan
    rw [hL.spans, ha, filter_append, filter_append, filter_cons_of_neg (by simp [hspan])]

theorem Layout.removeMarker {pre post : List SegId} (hL : Layout vmp)
    (ha : vmp.aList = pre ++ x :: post) (hx : vmp.isMarker x = true)
    (hnot : (vmp.segs (pre.getLastD seg0)).vsType = .free →
      (vmp.segs (post.headD seg0)).vsType ≠ .free) :
    Layout { vmp with aList := pre ++ post } := by
  have hspan : vmp.isSpan x = false := by
    rcases isMarker_iff.mp hx with h | h <;> simp [Arena.isSpan, h]
  refine ⟨hL.quantum, ?_, hL.anchor, ?_, ?_, hL.disjoint⟩
  · refine hL.nodup.sublist ?_
    rw [ha]
    simp
  · have ht := hL.tiled
    rw [ha, map_append, map_cons] at ht
    obtain ⟨s, hs, hrest⟩ := Scan.tiled_append.mp ht
    change Scan.Tiled _ _ ((pre ++ post).map vmp.segs)
    rw [map_append]
    refine Scan.tiled_append.mpr ⟨s, hs, Scan.tiled_remove_marker (isMarker_iff.mp hx) hrest ?_⟩
    intro hfree
    have hprev : (vmp.segs (pre.getLastD seg0)).vsType = .free := by
      by_contra hne
      simp [afterFree_eq_false hne hs] at hfree
    exact (headD_of_vsType (by simp [hL.anchor])).mp (hnot hprev)
  · change vmp.kList = (pre ++ post).filter vmp.isSpan
    rw [hL.spans, ha, filter_append, filter_append, filter_cons_of_neg (by simp [hspan])]

theorem Layout.joinMarker {pre post : List SegId} {p n : SegId} (hL : Layout vmp)
    (ha : vmp.aList = pre ++ p :: x :: n :: post) (hx : vmp.isMarker x = true)
    (hp : (vmp.segs p).vsType = .free) (hn : (vmp.segs n).vsType = .free) :
    Layout { vmp with
      aList := pre ++ p :: post
      segs := update vmp.segs p { vmp.segs p with vsEnd := (vmp.segs n).vsEnd }
      vmSegfree := n :: vmp.vmSegfree } := by
  have hnd := hL.nodup_aList
  rw [ha] at hnd
  obtain ⟨hppre, hppost, hp0, -⟩ := Ring.nodup_split hnd
  refine hL.replace pre [p, x, n] [p] post (by simpa using ha)
    rfl rfl rfl ?_ ?_ ?_ ?_ fun s _ hs => ?_
  · have hperm : (x :: (pre ++ p :: post ++ n :: vmp.vmSegfree)).Perm
        (vmp.aList ++ vmp.vmSegfree) := by
      rw [ha, perm_iff_count]
      intro y
      simp only [count_append, count_cons]
      omega
    refine Nodup.sublist ?_ ((hperm.cons seg0).nodup_iff.mpr hL.nodup)
    exact (sublist_cons_self _ _).cons_cons _
  · intro y hy
    have hyp : y ≠ p := by
      rintro rfl
      rcases hy with rfl | hy | hy
      · exact hp0 rfl
      · exact hppre hy
      · exact hppost (by simp [hy])
    exact update_of_ne hyp _ _
  · have := isMarker_iff.mp hx
    simp only [mem_cons, not_mem_nil, or_false, Arena.isSpan]
    rintro y (rfl | rfl | rfl) <;> grind
  · simp [Arena.isSpan, hp]
  · have := Scan.tiled_join (c := { vmp.segs p with vsEnd := (vmp.segs n).vsEnd }) hL.quantum.pos
      hp hn (isMarker_iff.mp hx) hp rfl rfl (by simpa using hs)
    simpa using this

end

/-- A place for a walker: unlinked, or behind a node of the ring other than itself. -/
def Arena.Place (vmp : Arena) (walker : SegId) (afterme : Option SegId) : Prop :=
  ∀ after ∈ afterme, after ∈ seg0 :: vmp.aList ∧ after ≠ walker

section
variable {vmp : Arena} {walker : SegId} {afterme : Option SegId} {pre post : List SegId}

theorem advanceLink_indexed (hI : Indexed vmp []) (hw : vmp.isMarker walker = true)
    (hplace : vmp.Place walker afterme) : Indexed (advanceLink vmp walker afterme) [] := by
  have htype : (vmp.segs walker).vsType ≠ .free ∧ (vmp.segs walker).vsType ≠ .alloc := by
    rcases isMarker_iff.mp hw with h | h <;> simp [h]
  have hI₁ : Indexed (vmp.aDelete walker) [walker] :=
    (hI.addPending fun _ => htype).relink fun y hy => by
      simp only [mem_singleton] at hy
      exact mem_erase_of_ne hy
  cases afterme with
  | none => exact hI₁.dropPending fun _ => htype
  | some after =>
    obtain ⟨hmem, hne⟩ := hplace after rfl
    have hI₂ : Indexed ((vmp.aDelete walker).aInsert after walker) [walker] :=
      hI₁.relink fun y hy => by
        simp only [mem_singleton] at hy
        rw [Ring.mem_insert]
        · simp [hy]
        · simp only [mem_cons, aDelete_frame] at hmem ⊢
          exact hmem.imp id fun h => (mem_erase_of_ne hne).mpr h
    exact hI₂.dropPending fun _ => htype

theorem mem_advanceLink (hnd : (seg0 :: vmp.aList).Nodup) (hplace : vmp.Place walker afterme)
    (y : SegId) : y ∈ (advanceLink vmp walker afterme).aList ↔
      if y = walker then afterme.isSome = true else y ∈ vmp.aList := by
  have herase : y ∈ vmp.aList.erase walker ↔ y ≠ walker ∧ y ∈ vmp.aList :=
    (nodup_cons.mp hnd).2.mem_erase_iff
  cases afterme with
  | none =>
    change y ∈ vmp.aList.erase walker ↔ _
    rw [herase]
    split <;> simp_all
  | some after =>
    obtain ⟨hmem, hne⟩ := hplace after rfl
    change y ∈ Ring.insert seg0 (vmp.aList.erase walker) after walker ↔ _
    rw [Ring.mem_insert, herase]
    · split <;> simp_all
    · exact mem_cons.mpr ((mem_cons.mp hmem).imp id fun h =>
        (mem_erase_of_ne hne).mpr h)

theorem nodup_advanceLink (hnd : (seg0 :: vmp.aList).Nodup) (hw : walker ≠ seg0)
    (hplace : vmp.Place walker afterme) :
    (seg0 :: (advanceLink vmp walker afterme).aList).Nodup := by
  have herase : (seg0 :: vmp.aList.erase walker).Nodup :=
    hnd.sublist (erase_sublist.cons_cons _)
  cases afterme with
  | none => exact herase
  | some after =>
    obtain ⟨hmem, hne⟩ := hplace after rfl
    have hperm := Ring.insert_perm (x := walker) (z := seg0) (l := vmp.aList.erase walker)
      (p := after) (mem_cons.mpr ((mem_cons.mp hmem).imp id fun h =>
        (mem_erase_of_ne hne).mpr h))
    refine ((hperm.cons seg0).trans (Perm.swap walker seg0 _)).nodup_iff.mpr ?_
    refine nodup_cons.mpr ⟨?_, herase⟩
    simpa [hw] using (nodup_cons.mp hnd).2.not_mem_erase

end

/-- The effect of moving a marker and joining the free segments it kept apart. -/
structure Joined (vmp vmp' : Arena) (walker : SegId) (afterme : Option SegId) : Prop where
  layout : Layout vmp'
  indexed : Indexed vmp' []
  kList : vmp'.kList = vmp.kList
  conf : vmp'.toArenaConf = vmp.toArenaConf
  shape : vmp'.toHashShape = vmp.toHashShape
  kstat : vmp'.toVmemKstat = vmp.toVmemKstat
  types : ∀ y, (vmp'.segs y).vsType = (vmp.segs y).vsType
  markers : ∀ y, vmp.isMarker y = true →
    (y ∈ vmp'.aList ↔ if y = walker then afterme.isSome = true else y ∈ vmp.aList)
  body : (vmp'.body = vmp.body ∧ vmp'.segs = vmp.segs ∧ vmp'.vmSegfree = vmp.vmSegfree ∧
      vmp'.vmNsegfree = vmp.vmNsegfree) ∨
    ∃ front p n back, vmp.body = front ++ p :: n :: back ∧ vmp'.body = front ++ p :: back ∧
      (vmp.segs p).vsType = .free ∧ (vmp.segs n).vsType = .free ∧
      vmp'.segs = update vmp.segs p { vmp.segs p with vsEnd := (vmp.segs n).vsEnd } ∧
      vmp'.vmSegfree = n :: vmp.vmSegfree ∧ vmp'.vmNsegfree = vmp.vmNsegfree + 1

section
variable {vmp : Arena} {walker : SegId} {afterme : Option SegId} {pre post : List SegId}

theorem filter_insert_marker {l : List SegId} {f : SegId → Bool} {after x : SegId}
    (hx : f x = false) (hnd : (seg0 :: l).Nodup) (hafter : after ∈ seg0 :: l) :
    (Ring.insert seg0 l after x).filter f = l.filter f := by
  obtain ⟨pre, post, rfl, rfl⟩ := exists_cut hafter
  rw [Ring.insert_getLastD hnd, filter_append, filter_cons_of_neg (by simp [hx]), filter_append]

theorem advanceJoin_apart (hL : Layout vmp) (hI : Indexed vmp [])
    (ha : vmp.aList = pre ++ walker :: post) (hw : vmp.isMarker walker = true)
    (hplace : vmp.Place walker afterme)
    (hnot : (vmp.segs (pre.getLastD seg0)).vsType = .free →
      (vmp.segs (post.headD seg0)).vsType ≠ .free) :
    Joined vmp (advanceLink vmp walker afterme) walker afterme := by
  have hnd := hL.nodup_aList
  rw [ha] at hnd
  have hL₁ := hL.removeMarker ha hw hnot
  have herase : vmp.aList.erase walker = pre ++ post := by
    rw [ha]
    exact Ring.erase_split hnd
  have hmem := mem_advanceLink hL.nodup_aList hplace
  have hnew : walker ∉ seg0 :: (pre ++ post ++ vmp.vmSegfree) := by
    have := hL.nodup
    rw [ha, append_assoc, cons_append] at this
    obtain ⟨h1, h2, h3, -⟩ := Ring.nodup_split this
    simp only [mem_cons, mem_append] at h2 ⊢
    tauto
  have hmark : (fun vsp => !vmp.isMarker vsp) walker = false := by simp [hw]
  have hbody : (pre ++ post).filter (fun vsp => !vmp.isMarker vsp) = vmp.body := by
    rw [Arena.body, ha, filter_append, filter_append, filter_cons_of_neg (by simp [hw])]
  have hIx := advanceLink_indexed hI hw hplace
  cases afterme with
  | none =>
    have hlist : (advanceLink vmp walker none).aList = pre ++ post := herase
    refine ⟨hL₁.ofSame rfl hlist rfl rfl rfl, hIx, rfl, rfl, rfl, rfl, fun _ => rfl,
      fun y _ => hmem y, .inl ⟨?_, rfl, rfl, rfl⟩⟩
    rw [← hbody, ← hlist]
    rfl
  | some after =>
    obtain ⟨hafter, hne⟩ := hplace after rfl
    have hafter' : after ∈ seg0 :: (pre ++ post) := by
      rw [ha] at hafter
      simp only [mem_cons, mem_append] at hafter ⊢
      tauto
    have hlist : (advanceLink vmp walker (some after)).aList =
        Ring.insert seg0 (pre ++ post) after walker := by
      change Ring.insert seg0 (vmp.aList.erase walker) after walker = _
      rw [herase]
    refine ⟨(hL₁.insertMarker hw hnew hafter').ofSame rfl hlist rfl rfl rfl, hIx, rfl, rfl, rfl,
      rfl, fun _ => rfl, fun y _ => hmem y, .inl ⟨?_, rfl, rfl, rfl⟩⟩
    rw [← hbody, ← filter_insert_marker hmark hL₁.nodup_aList hafter', ← hlist]
    rfl

theorem link_erase {front back : List SegId} {p n w after : SegId}
    (hnd : (seg0 :: (front ++ p :: n :: back)).Nodup) (hw : w ≠ n)
    (hafter : after ∈ seg0 :: (front ++ p :: n :: back)) :
    ∃ after' ∈ seg0 :: (front ++ p :: back),
      (Ring.insert seg0 (front ++ p :: n :: back) after w).erase n =
        Ring.insert seg0 (front ++ p :: back) after' w := by
  have hnd' : (seg0 :: ((front ++ [p]) ++ n :: back)).Nodup := by simpa using hnd
  have herase : (front ++ p :: n :: back).erase n = front ++ p :: back := by
    simpa only [append_assoc, singleton_append] using Ring.erase_split hnd'
  by_cases han : after = n
  · subst han
    refine ⟨p, by simp, ?_⟩
    have hins : Ring.insert seg0 (front ++ p :: after :: back) after w =
        (front ++ [p]) ++ after :: w :: back := by
      simpa only [append_assoc, singleton_append] using Ring.insert_split (x := w) hnd'
    have hcore : (seg0 :: (front ++ p :: back)).Nodup := hnd.sublist (by simp)
    have hmem := (Ring.nodup_split hnd').1
    rw [hins, erase_append_right _ hmem, erase_cons_head, Ring.insert_split hcore]
    simp
  · refine ⟨after, ?_, ?_⟩
    · simp only [mem_cons, mem_append] at hafter ⊢
      tauto
    · rw [Ring.insert_erase han hw, herase]

theorem advanceJoin_indexed {p n : SegId} (hI : Indexed vmp []) (hnd : vmp.aList.Nodup)
    (hpm : p ∈ vmp.aList) (hnm : n ∈ vmp.aList) (hpn : p ≠ n) (hp : (vmp.segs p).vsType = .free)
    (hn : (vmp.segs n).vsType = .free) (hsize : (vmp.segs n).vsEnd-(vmp.segs p).vsStart ≠ 0) :
    Indexed (advanceJoin vmp p n) [] := by
  have hstart := (hI.free_ne p hpm (by simp) hp).1
  have hI₁ := hI.freelistDelete hnm (by simp) hn
  have hI₂ := hI₁.freelistDelete (x := p) (by simpa using hpm) (by simpa using hpn)
    (by simpa using hp)
  have hI₃ := hI₂.setPending (x := p) (by simp)
    { vmp.segs p with vsEnd := (vmp.segs n).vsEnd }
  have hI₄ := hI₃.freelistInsert (by simpa using hpm) (by simpa using hpn)
    (by simpa using hstart) (by simpa [Seg.vsSize] using hsize)
  have hI₅ := (hI₄.segDestroy (x := n) (by simp)).dropPending fun hm => absurd hm (by
    simpa using hnd.not_mem_erase)
  rw [advanceJoin, if_pos ⟨hp, hn⟩]
  simpa using hI₅

theorem advanceLink_frame (vmp : Arena) (walker : SegId) (afterme : Option SegId) :
    (advanceLink vmp walker afterme).segs = vmp.segs ∧
    (advanceLink vmp walker afterme).vmSegfree = vmp.vmSegfree ∧
    (advanceLink vmp walker afterme).vmNsegfree = vmp.vmNsegfree ∧
    (advanceLink vmp walker afterme).kList = vmp.kList ∧
    (advanceLink vmp walker afterme).toArenaConf = vmp.toArenaConf ∧
    (advanceLink vmp walker afterme).toHashShape = vmp.toHashShape ∧
    (advanceLink vmp walker afterme).toVmemKstat = vmp.toVmemKstat := by
  cases afterme <;> exact ⟨rfl, rfl, rfl, rfl, rfl, rfl, rfl⟩

theorem advanceJoin_frame {p n : SegId} (hp : (vmp.segs p).vsType = .free)
    (hn : (vmp.segs n).vsType = .free) :
    (advanceJoin vmp p n).aList = vmp.aList.erase n ∧
    (advanceJoin vmp p n).segs =
      update vmp.segs p { vmp.segs p with vsEnd := (vmp.segs n).vsEnd } ∧
    (advanceJoin vmp p n).vmSegfree = n :: vmp.vmSegfree ∧
    (advanceJoin vmp p n).vmNsegfree = vmp.vmNsegfree+1 ∧
    (advanceJoin vmp p n).kList = vmp.kList ∧
    (advanceJoin vmp p n).toArenaConf = vmp.toArenaConf ∧
    (advanceJoin vmp p n).toHashShape = vmp.toHashShape ∧
    (advanceJoin vmp p n).toVmemKstat = vmp.toVmemKstat := by
  refine ⟨by simp [advanceJoin, hp, hn], ?_, by simp [advanceJoin, hp, hn],
    by simp [advanceJoin, hp, hn], by simp [advanceJoin, hp, hn], by simp [advanceJoin, hp, hn],
    by simp [advanceJoin, hp, hn], by simp [advanceJoin, hp, hn]⟩
  funext y
  simp only [advanceJoin, hp, hn, and_self, if_true]
  by_cases hyp : y = p
  · subst hyp
    simp [hp]
  · simp [hyp]

section
variable {p n : SegId} (hL : Layout vmp) (ha : vmp.aList = pre ++ p :: walker :: n :: post)
  (hw : vmp.isMarker walker = true) (hplace : vmp.Place walker afterme)
  (hp : (vmp.segs p).vsType = .free) (hn : (vmp.segs n).vsType = .free)
include hL ha

theorem walker_between : walker ≠ p ∧ walker ≠ n ∧ p ≠ n ∧ walker ≠ seg0 := by
  have hnd := hL.nodup_aList
  rw [ha] at hnd
  have hnd' : (seg0 :: ((pre ++ [p]) ++ walker :: n :: post)).Nodup := by simpa using hnd
  obtain ⟨-, hp, -⟩ := Ring.nodup_split hnd
  obtain ⟨-, hwalker, hw0, -⟩ := Ring.nodup_split hnd'
  refine ⟨?_, ?_, ?_, hw0⟩ <;> rintro rfl
  · exact hp mem_cons_self
  · exact hwalker mem_cons_self
  · exact hp (by simp)

include hw hplace hp hn

/-- The list that is left, with the marker back in it if it has a place. -/
theorem advanceJoin_layout :
    Layout { advanceLink vmp walker afterme with
      aList := (advanceLink vmp walker afterme).aList.erase n
      segs := update vmp.segs p { vmp.segs p with vsEnd := (vmp.segs n).vsEnd }
      vmSegfree := n :: vmp.vmSegfree } ∧
    ((advanceLink vmp walker afterme).aList.erase n).filter (fun vsp => !vmp.isMarker vsp) =
      (pre ++ p :: post).filter (fun vsp => !vmp.isMarker vsp) := by
  have hL₁ := hL.joinMarker ha hw hp hn
  obtain ⟨hwp, hwn, -, -⟩ := walker_between hL ha
  have hnd := hL.nodup_aList
  rw [ha] at hnd
  have hndc : (seg0 :: (pre ++ p :: n :: post)).Nodup := hnd.sublist (by simp)
  have herase : vmp.aList.erase walker = pre ++ p :: n :: post := by
    have hnd' : (seg0 :: ((pre ++ [p]) ++ walker :: n :: post)).Nodup := by simpa using hnd
    rw [ha]
    simpa only [append_assoc, singleton_append] using Ring.erase_split hnd'
  cases afterme with
  | none =>
    have hlist : (advanceLink vmp walker none).aList.erase n = pre ++ p :: post := by
      have hndc' : (seg0 :: ((pre ++ [p]) ++ n :: post)).Nodup := by simpa using hndc
      change (vmp.aList.erase walker).erase n = _
      rw [herase]
      simpa only [append_assoc, singleton_append] using Ring.erase_split hndc'
    exact ⟨hL₁.ofSame rfl hlist rfl rfl rfl, by rw [hlist]⟩
  | some after =>
    obtain ⟨hafter, hne⟩ := hplace after rfl
    have hafter' : after ∈ seg0 :: (pre ++ p :: n :: post) := by
      rw [ha] at hafter
      simp only [mem_cons, mem_append] at hafter ⊢
      tauto
    obtain ⟨after', hmem', hlist⟩ := link_erase hndc hwn hafter'
    replace hlist : (advanceLink vmp walker (some after)).aList.erase n =
        Ring.insert seg0 (pre ++ p :: post) after' walker := by
      rw [← hlist, ← herase]
      rfl
    have hmark : (fun vsp => !vmp.isMarker vsp) walker = false := by simp [hw]
    refine ⟨(hL₁.insertMarker ?_ ?_ hmem').ofSame rfl hlist rfl rfl rfl, ?_⟩
    · simpa [Arena.isMarker, hwp] using hw
    · have := hL.nodup
      rw [ha] at this
      simp only [nodup_cons, nodup_append, mem_append, mem_cons] at this ⊢
      grind
    · rw [hlist, filter_insert_marker hmark hL₁.nodup_aList hmem']

theorem advanceJoin_joined (hI : Indexed vmp []) :
    Joined vmp (advanceJoin (advanceLink vmp walker afterme) p n) walker afterme := by
  obtain ⟨hwp, hwn, hpn, hw0⟩ := walker_between hL ha
  have hpm : vmp.isMarker p = false := by simp [Arena.isMarker, hp]
  have hnm : vmp.isMarker n = false := by simp [Arena.isMarker, hn]
  have hIx := advanceLink_indexed hI hw hplace
  obtain ⟨hlayout, hbody⟩ := advanceJoin_layout hL ha hw hplace hp hn
  have hmem := mem_advanceLink hL.nodup_aList hplace
  have hnd₁ := nodup_advanceLink hL.nodup_aList hw0 hplace
  obtain ⟨hsegs, hfree, hcount, hkl, hconf, hshape, hkstat⟩ := advanceLink_frame vmp walker afterme
  generalize advanceLink vmp walker afterme = vmp₁ at *
  rw [← hsegs] at hp hn
  obtain ⟨hlist, hsegs', hstock, hstocked, hkl', hconf', hshape', hkstat'⟩ :=
    advanceJoin_frame hp hn
  rw [hsegs] at hsegs' hp hn
  have hmark' : (advanceJoin vmp₁ p n).isMarker = vmp.isMarker := by
    funext y
    by_cases hyp : y = p
    · subst hyp
      simp [Arena.isMarker, hsegs']
    · simp [Arena.isMarker, hsegs', hyp]
  have hsize : (vmp₁.segs n).vsEnd-(vmp₁.segs p).vsStart ≠ 0 := by
    obtain ⟨s, t, -, hs, -⟩ := (hL.joinMarker ha hw hp hn).scan_at rfl
    have hold := ((Scan.step_free (by simpa using hp)).mp hs).1.len_pos
    simp only [update_self, Seg.len, Seg.vsSize] at hold
    rw [hsegs]
    bv_omega
  have hindexed := advanceJoin_indexed hIx (nodup_cons.mp hnd₁).2
    ((hmem p).mpr (by simp [ha, hwp.symm])) ((hmem n).mpr (by simp [ha, hwn.symm])) hpn
    (by rw [hsegs, hp]) (by rw [hsegs, hn]) hsize
  refine ⟨hlayout.ofSame hconf' hlist hkl' hsegs' (by rw [hstock, hfree]), hindexed, hkl'.trans hkl,
    hconf'.trans hconf, hshape'.trans hshape, hkstat'.trans hkstat, ?_, ?_,
    .inr ⟨pre.filter fun vsp => !vmp.isMarker vsp, p, n, post.filter fun vsp => !vmp.isMarker vsp,
      ?_, ?_, hp, hn, hsegs', by rw [hstock, hfree], by rw [hstocked, hcount]⟩⟩
  · intro y
    rw [hsegs']
    by_cases hyp : y = p
    · subst hyp
      simp
    · simp [hyp]
  · intro y hy
    have hyn : y ≠ n := by
      rintro rfl
      simp [hy] at hnm
    rw [hlist, mem_erase_of_ne hyn, hmem y]
  · rw [Arena.body, ha]
    simp [filter_append, hpm, hnm, hw]
  · rw [Arena.body, hlist, hmark', hbody]
    simp [filter_append, hpm]

end

theorem advanceJoin_spec (hL : Layout vmp) (hI : Indexed vmp [])
    (ha : vmp.aList = pre ++ walker :: post) (hw : vmp.isMarker walker = true)
    (hplace : vmp.Place walker afterme) :
    Joined vmp (advanceJoin (advanceLink vmp walker afterme) (pre.getLastD seg0)
      (post.headD seg0)) walker afterme := by
  have hsegs := (advanceLink_frame vmp walker afterme).1
  have hanchor : (vmp.segs seg0).vsType ≠ .free := by simp [hL.anchor]
  by_cases hboth : (vmp.segs (pre.getLastD seg0)).vsType = .free ∧
      (vmp.segs (post.headD seg0)).vsType = .free
  · rcases eq_nil_or_concat pre with rfl | ⟨pre', p, rfl⟩
    · exact absurd hboth.1 hanchor
    rcases post with _ | ⟨n, post⟩
    · exact absurd hboth.2 hanchor
    simp only [concat_eq_append, getLastD_concat, headD_cons] at ha hboth ⊢
    exact advanceJoin_joined hL (by simpa using ha) hw hplace hboth.1 hboth.2 hI
  · rw [advanceJoin, hsegs, if_neg hboth]
    exact advanceJoin_apart hL hI ha hw hplace fun h1 h2 => hboth ⟨h1, h2⟩

end

/-- The effect of `vmem_advance`: after the join, the segment that is left may fill an imported
span, which is then removed. -/
inductive Advanced (vmp : Arena) (walker : SegId) (afterme : Option SegId) :
    Arena → Option Block → Prop
  | kept {vmp' : Arena} (joined : Joined vmp vmp' walker afterme)
      (whole : ∀ y ∈ vmp'.aList, y = vmp.aPrev walker ∨ y = vmp.aNext walker →
        (vmp'.segs y).vsType = .free → isWholeImport vmp' y = false) :
      Advanced vmp walker afterme vmp' none
  | gone {mid vmp' : Arena} {front post : List SegId} {sp w : SegId}
      (joined : Joined vmp mid walker afterme) (split : mid.aList = front ++ sp :: w :: post)
      (span : (mid.segs sp).vsType = .span) (next : (mid.segs (post.headD seg0)).vsType = .span)
      (free : (mid.segs w).vsType = .free) (mark : (mid.segs w).vsImport = true)
      (range : (mid.segs w).vsStart = (mid.segs sp).vsStart ∧
        (mid.segs w).vsSize = (mid.segs sp).vsSize)
      (removed : SpanRemoved (vmemFreelistDelete mid w) vmp' front sp w post)
      (layout : Layout vmp') (indexed : Indexed vmp' []) :
      Advanced vmp walker afterme vmp' (some ⟨(mid.segs sp).vsStart, (mid.segs sp).vsSize⟩)

variable {vmp vmp' mid : Arena} {walker w : SegId} {afterme : Option SegId} {pre post : List SegId}
  {released : Option Block}

theorem Joined.release (h : Joined vmp mid walker afterme) (hw : w ∈ mid.aList)
    (hfree : (mid.segs w).vsType = .free) (hwhole : isWholeImport mid w = true) :
    Advanced vmp walker afterme (vmemSpanDestroy (vmemFreelistDelete mid w) w)
      (some ⟨(mid.segs w).vsStart, mid.vsSize w⟩) := by
  obtain ⟨pre, post, ha⟩ := append_of_mem hw
  obtain ⟨hmark, -, hprev, hnext⟩ := (isWholeImport_iff h.layout ha).mp hwhole
  obtain ⟨s, t, -, hs, -⟩ := h.layout.scan_at ha
  have hsolid : Scan.Solid mid.vmQuantum.toNat (mid.segs w) :=
    ⟨.inl hfree, ((Scan.step_free hfree).mp hs).2.1⟩
  have hI := h.indexed.freelistDelete hw (by simp) hfree
  have hL : Layout (vmemFreelistDelete mid w) :=
    h.layout.ofSame (by simp) (by simp) (by simp) (by simp) (by simp)
  obtain ⟨front, sp, rfl, hsp, hstart, hsize, hr, hL', hI'⟩ := spanDestroy_whole hL hI
    (by simpa using ha) (by simpa using hsolid) (by simpa using hprev) (by simpa using hnext)
  simp only [vmemFreelistDelete_frame] at hsp hstart hsize
  have hblock : (⟨(mid.segs w).vsStart, mid.vsSize w⟩ : Block) =
      ⟨(mid.segs sp).vsStart, (mid.segs sp).vsSize⟩ := by
    rw [Arena.vsSize, hstart, hsize]
  rw [hblock]
  exact .gone h (by simpa using ha) hsp hnext hfree hmark ⟨hstart, hsize⟩ hr hL' hI'

theorem advanceJoin_aList {p n : SegId} (hsegs : mid.segs = vmp.segs) :
    (advanceJoin mid p n).aList =
      if (vmp.segs p).vsType = .free ∧ (vmp.segs n).vsType = .free then mid.aList.erase n
      else mid.aList := by
  rw [advanceJoin, hsegs]
  split <;> simp

/-- A free neighbour of the walker is a segment of the arena, and another one than the walker. -/
theorem mem_advanceLink_of_near (hL : Layout vmp) (hw : vmp.isMarker walker = true)
    (hplace : vmp.Place walker afterme) {y : SegId}
    (hy : y = vmp.aPrev walker ∨ y = vmp.aNext walker) (hfree : (vmp.segs y).vsType = .free) :
    y ∈ (advanceLink vmp walker afterme).aList := by
  have hyw : y ≠ walker := by
    rintro rfl
    rcases isMarker_iff.mp hw with h | h <;> simp [h] at hfree
  have hy0 : y ≠ seg0 := by
    rintro rfl
    simp [hL.anchor] at hfree
  rw [mem_advanceLink hL.nodup_aList hplace, if_neg hyw]
  rcases hy with rfl | rfl
  · exact (mem_cons.mp (Ring.prev_mem vmp.aList)).resolve_left hy0
  · exact (mem_cons.mp (Ring.next_mem vmp.aList)).resolve_left hy0

theorem aPrev_ne_aNext (hL : Layout vmp) (hmem : walker ∈ vmp.aList)
    (hfree : (vmp.segs (vmp.aPrev walker)).vsType = .free) :
    vmp.aPrev walker ≠ vmp.aNext walker := by
  intro he
  obtain ⟨pre, post, ha⟩ := append_of_mem hmem
  have hnd := hL.nodup_aList
  rw [ha] at hnd
  rw [Arena.aPrev, ha, Ring.prev_split hnd] at he hfree
  rw [Arena.aNext, ha, Ring.next_split hnd] at he
  rcases eq_nil_or_concat pre with rfl | ⟨pre', p, rfl⟩
  · simp [hL.anchor] at hfree
  · rw [concat_eq_append] at hnd
    simp only [concat_eq_append, getLastD_concat] at he hfree
    rcases post with _ | ⟨n, post⟩
    · simp [he, hL.anchor] at hfree
    · exact (Ring.nodup_split hnd).2.2.2 p (by simp) (by simp [he])

theorem vmemAdvance_advanced (hL : Layout vmp) (hI : Indexed vmp []) (hmem : walker ∈ vmp.aList)
    (hw : vmp.isMarker walker = true) (hplace : vmp.Place walker afterme)
    (h : vmemAdvance vmp walker afterme = (vmp', released)) :
    Advanced vmp walker afterme vmp' released := by
  obtain ⟨pre, post, ha⟩ := append_of_mem hmem
  have hnd := hL.nodup_aList
  rw [ha] at hnd
  have hprev : vmp.aPrev walker = pre.getLastD seg0 := by
    rw [Arena.aPrev, ha, Ring.prev_split hnd]
  have hnext : vmp.aNext walker = post.headD seg0 := by
    rw [Arena.aNext, ha, Ring.next_split hnd]
  have hj := advanceJoin_spec hL hI ha hw hplace
  rw [← hprev, ← hnext] at hj
  have hsegs := (advanceLink_frame vmp walker afterme).1
  have hlist := advanceJoin_aList (p := vmp.aPrev walker) (n := vmp.aNext walker) hsegs
  have hndl := nodup_advanceLink hL.nodup_aList (Ring.nodup_split hnd).2.2.1 hplace
  unfold vmemAdvance at h
  dsimp only at h
  rw [hsegs] at h
  by_cases hp : (vmp.segs (vmp.aPrev walker)).vsType = .free
  · have hpm : vmp.aPrev walker ∈ (advanceJoin (advanceLink vmp walker afterme)
        (vmp.aPrev walker) (vmp.aNext walker)).aList := by
      rw [hlist]
      split
      · exact (mem_erase_of_ne (aPrev_ne_aNext hL hmem hp)).mpr
          (mem_advanceLink_of_near hL hw hplace (.inl rfl) hp)
      · exact mem_advanceLink_of_near hL hw hplace (.inl rfl) hp
    rw [if_pos hp] at h
    dsimp only at h
    split at h
    · rename_i hwhole
      cases h
      exact hj.release hpm (by rw [hj.types, hp]) hwhole
    · rename_i hwhole
      cases h
      refine .kept hj fun y hy hyn hfree => ?_
      rcases hyn with rfl | rfl
      · simpa using hwhole
      · rw [hj.types] at hfree
        rw [hlist, if_pos ⟨hp, hfree⟩] at hy
        exact absurd hy (nodup_cons.mp hndl).2.not_mem_erase
  · rw [if_neg hp] at h
    by_cases hn : (vmp.segs (vmp.aNext walker)).vsType = .free
    · have hnm : vmp.aNext walker ∈ (advanceJoin (advanceLink vmp walker afterme)
          (vmp.aPrev walker) (vmp.aNext walker)).aList := by
        rw [hlist, if_neg fun h => hp h.1]
        exact mem_advanceLink_of_near hL hw hplace (.inr rfl) hn
      rw [if_pos hn] at h
      dsimp only at h
      split at h
      · rename_i hwhole
        cases h
        exact hj.release hnm (by rw [hj.types, hn]) hwhole
      · rename_i hwhole
        cases h
        refine .kept hj fun y hy hyn hfree => ?_
        rcases hyn with rfl | rfl
        · exact absurd (by rwa [hj.types] at hfree) hp
        · simpa using hwhole
    · rw [if_neg hn] at h
      cases h
      refine .kept hj fun y hy hyn hfree => ?_
      rw [hj.types] at hfree
      rcases hyn with rfl | rfl
      · exact absurd hfree hp
      · exact absurd hfree hn

end Libumem.Vmem
