import Libumem.Slab.Advise
import Libumem.Slab.Shape

/-!
# Idle slabs

A slab that is dirty, clean or being reclaimed has no buffers in use, and the slabs that a pass has
marked stay linked and marked until it takes the lock again. Most steps change one slab, which is not
one of those that a pass has marked.
-/

namespace Libumem.Slab
open Function List Arith Lib
variable {g : Geom} {s s' : State} {ly : Layout} {sp : Word} {list : List Word}

/-- The state of a cache while a pass holds `list`. -/
structure IdleWith (s : State) (list : List Word) : Prop where
  refcnt : ∀ sp ∈ s.live, (s.slabs sp).slabState ≠ .active → (s.slabs sp).slabRefcnt = 0
  nodup : list.Nodup
  marked : ∀ sp ∈ list, sp ∈ s.live ∧ sp ∉ s.built ++ s.dying ∧
    (s.slabs sp).slabState = .reclaiming

def Idle (s : State) : Prop := IdleWith s (s.reclaimList.getD [])

/-- The slab `sp` becomes `sl`, and may leave the list or the cache. -/
structure Touch (s s' : State) (sp : Word) (sl : UmemSlab) : Prop where
  slabs : s'.slabs = update s.slabs sp sl
  base : sl.slabBase = (s.slabs sp).slabBase
  refcnt : sp ∈ s.live → sl.slabState ≠ .active → sl.slabRefcnt = 0
  unmarked : sp ∈ s.live → (s.slabs sp).slabState ≠ .reclaiming ∨ sp ∈ s.built ++ s.dying
  list : s'.reclaimList = s.reclaimList
  live : ∀ sp', sp' ∈ s'.live → sp' ∈ s.live
  stays : ∀ sp', sp' ∈ s.live → sp' ∈ s'.live ∨ sp' = sp
  notLinked : ∀ sp', sp' ∈ s'.built ++ s'.dying → sp' ∈ s.built ++ s.dying ∨ sp' = sp
  bufctls : s'.bufctls ⊆ s.bufctls

namespace Touch
variable {sl : UmemSlab}

theorem slabBase_eq (h : Touch s s' sp sl) (sp' : Word) :
    (s'.slabs sp').slabBase = (s.slabs sp').slabBase := by
  rw [h.slabs]
  by_cases hne : sp' = sp
  · rw [hne, update_self, h.base]
  · rw [update_of_ne hne]

theorem none (hsp : sp ∉ s.live) (hslabs : s'.slabs = s.slabs)
    (hlist : s'.reclaimList = s.reclaimList) (hlive : s'.live = s.live)
    (hbuilt : s'.built = s.built)
    (hdying : s'.dying = s.dying) (hbufctls : s'.bufctls = s.bufctls) :
    Touch s s' sp (s.slabs sp) where
  slabs := by rw [hslabs, update_eq_self]
  base := rfl
  refcnt hin := absurd hin hsp
  unmarked hin := absurd hin hsp
  list := hlist
  live sp' hsp' := hlive ▸ hsp'
  stays sp' hsp' := .inl (hlive ▸ hsp')
  notLinked sp' hsp' := .inl (by rwa [hbuilt, hdying] at hsp')
  bufctls := by rw [hbufctls]; exact Subset.refl _

end Touch

theorem IdleWith.touch {sl : UmemSlab} (h : IdleWith s list) (ht : Touch s s' sp sl) :
    IdleWith s' list where
  refcnt sp' hsp' := by
    rw [ht.slabs]
    have hlive := ht.live sp' hsp'
    by_cases hne : sp' = sp
    · rw [hne, update_self]
      exact ht.refcnt (hne ▸ hlive)
    · rw [update_of_ne hne]
      exact h.refcnt sp' hlive
  nodup := h.nodup
  marked sp' hsp' := by
    obtain ⟨hlive, hlinked, hstate⟩ := h.marked sp' hsp'
    have hne : sp' ≠ sp := by
      rintro rfl
      rcases ht.unmarked hlive with hstate' | hprivate
      · exact hstate' hstate
      · exact hlinked hprivate
    refine ⟨(ht.stays sp' hlive).resolve_right hne, ?_, ?_⟩
    · intro hprivate
      rcases ht.notLinked sp' hprivate with hprivate | heq
      · exact hlinked hprivate
      · exact hne heq
    · rw [ht.slabs, update_of_ne hne]
      exact hstate

theorem Idle.touch {sl : UmemSlab} (h : Idle s) (ht : Touch s s' sp sl) : Idle s' := by
  unfold Idle
  rw [ht.list]
  exact IdleWith.touch h ht

section

variable (h : Inv g s ly)

include h

theorem takeBuffer_touch (hsp : sp ∈ ly.back) (hmark : (s.slabs sp).slabState ≠ .reclaiming) :
    Touch s (takeBuffer g s sp).1 sp (takenSlab g s sp) := by
  obtain ⟨bcp, rest, hfree⟩ := exists_cons_of_ne_nil (h.back sp hsp)
  have hok := h.slab sp (h.mem_live_of_back hsp)
  rw [hfree] at hok
  rw [takeBuffer_eq hok]
  exact
    { slabs := rfl
      base := rfl
      refcnt := fun _ hstate => absurd rfl hstate
      unmarked := fun _ => .inl hmark
      list := rfl
      live := fun _ hsp' => hsp'
      stays := fun _ hsp' => .inl hsp'
      notLinked := fun _ hsp' => .inl hsp'
      bufctls := Subset.refl _ }

theorem umemSlabAlloc_touch : ∃ sp sl, Touch s (umemSlabAlloc g s).1 sp sl := by
  rcases umemSlabAlloc_cases h with ⟨-, heq⟩ | ⟨mid, sp, post, hback, -, hmark, heq, -⟩
  · rw [heq]
    exact ⟨g.nullslab, _, Touch.none h.null_notMem rfl rfl rfl rfl rfl rfl⟩
  · rw [heq]
    exact ⟨sp, _, takeBuffer_touch h (by simp [hback]) hmark⟩

theorem linkNewSlab_touch {r : State × Option Word} (heq : linkNewSlab g s sp = some r) :
    Touch s r.1 sp (takenSlab g s sp) := by
  unfold linkNewSlab at heq
  split at heq
  case isFalse => simp at heq
  rename_i hsp
  cases heq
  have hprivate : sp ∈ s.built ++ s.dying := mem_append_left _ hsp
  obtain ⟨bcp, rest, hfree⟩ := exists_cons_of_ne_nil (h.free_ne_nil hsp)
  have hlinked := h.link hsp
  have hok := hlinked.slab sp (hlinked.mem_live_of_back mem_cons_self)
  have hfree' : (ly.link sp).free sp = bcp :: rest := hfree
  rw [hfree'] at hok
  rw [takeBuffer_eq hok]
  refine
    { slabs := rfl
      base := rfl
      refcnt := fun _ hstate => absurd rfl hstate
      unmarked := fun _ => .inr hprivate
      list := rfl
      live := fun _ hsp' => hsp'
      stays := fun _ hsp' => .inl hsp'
      notLinked := ?_
      bufctls := Subset.refl _ }
  intro sp' hsp'
  left
  rcases mem_append.mp hsp' with hin | hin
  · exact mem_append_left _ (mem_of_mem_erase hin)
  · exact mem_append_right _ hin

theorem Inv.active_of_used (hidle : IdleWith s list) (hsp : sp ∈ s.live) (hused : ly.used sp ≠ []) :
    (s.slabs sp).slabState = .active := by
  by_contra hstate
  have hrefcnt := hidle.refcnt sp hsp hstate
  rw [(h.slab sp hsp).refcnt] at hrefcnt
  exact hused (length_eq_zero_iff.mp (by exact_mod_cast hrefcnt))

theorem umemSlabFree_touch (hidle : Idle s) {buf : Word} (hlegit : LegitFree g s buf)
    (enabled : Bool) : ∃ sp sl, Touch s (umemSlabFree g s buf enabled) sp sl := by
  by_cases hheld : buf ∈ s.held
  · obtain ⟨sp, hsp, bcp, hb, rfl⟩ := (h.held buf).mp hheld
    obtain ⟨s₁, ⟨next, table, hpush⟩, hput, heq⟩ := umemSlabFree_used h hsp hb enabled
    have hactive := h.active_of_used hidle hsp (ne_nil_of_mem hb)
    have hmark : (s.slabs sp).slabState ≠ .reclaiming := by simp [hactive]
    have hpushed : Touch s s₁ sp (s₁.slabs sp) := by
      have hself : s₁.slabs sp =
          { s.slabs sp with slabHead := bcp, slabRefcnt := (s.slabs sp).slabRefcnt-1 } := by
        rw [hpush]
        exact update_self _ _ _
      refine
        { slabs := ?_
          base := by rw [hself]
          refcnt := fun _ hstate => absurd (by rw [hself]; exact hactive) hstate
          unmarked := fun _ => .inl hmark
          list := hpush ▸ rfl
          live := fun _ hsp' => by rwa [hpush] at hsp'
          stays := fun _ hsp' => .inl (by rwa [hpush])
          notLinked := fun _ hsp' => .inl (by rwa [hpush] at hsp')
          bufctls := hpush ▸ Subset.refl _ }
      rw [hself, hpush]
      rfl
    rw [heq]
    split
    · rename_i hrefcnt
      split
      · refine ⟨sp, { s₁.slabs sp with slabState := .dirty, slabIdleTime := 0 },
          { hpushed with slabs := ?_, refcnt := fun _ _ => hrefcnt }⟩
        rw [markDirty, State.setSlab, hpushed.slabs]
        dsimp only
        rw [update_idem, update_self]
      · refine ⟨sp, s₁.slabs sp, { hpushed with notLinked := ?_ }⟩
        intro sp' hsp'
        have hprivate : sp' ∈ s₁.built ++ sp :: s₁.dying := hsp'
        rw [perm_middle.mem_iff, mem_cons] at hprivate
        rcases hprivate with heq' | hprivate
        · exact .inr heq'
        · exact hpushed.notLinked sp' hprivate
    · exact ⟨sp, _, hpushed⟩
  · rw [umemSlabFree_of_notHeld h hlegit hheld]
    exact ⟨g.nullslab, _, Touch.none h.null_notMem rfl rfl rfl rfl rfl rfl⟩

theorem umemSlabDestroy_touch (heq : umemSlabDestroy g s sp = some s') :
    Touch s s' sp (s.slabs sp) := by
  unfold umemSlabDestroy at heq
  split at heq
  case isFalse => simp at heq
  rename_i hsp
  cases heq
  have hprivate : sp ∈ s.built ++ s.dying := mem_append_right _ hsp
  refine
    { slabs := (update_eq_self _ _).symm
      base := rfl
      refcnt := ?_
      unmarked := fun _ => .inr hprivate
      list := rfl
      live := fun _ hsp' => mem_of_mem_erase hsp'
      stays := ?_
      notLinked := ?_
      bufctls := filter_sublist.subset }
  · intro hlive _
    rw [(h.slab sp hlive).refcnt, h.unused sp hprivate]
    rfl
  · intro sp' hsp'
    by_cases hne : sp' = sp
    · exact .inr hne
    · exact .inl ((mem_erase_of_ne hne).mpr hsp')
  · intro sp' hsp'
    left
    rcases mem_append.mp hsp' with hin | hin
    · exact mem_append_left _ hin
    · exact mem_append_right _ (mem_of_mem_erase hin)

theorem umemSlabCreate_idle (hidle : Idle s) {color slab header : Word} {bufctls : List Word}
    (heq : umemSlabCreate g s color slab header bufctls = some s') : Idle s' := by
  have hnew := (umemSlabCreate_inv h heq).1
  obtain ⟨⟨head, hslabs⟩, hlive, hbuilt, hdying, hlist, -⟩ := umemSlabCreate_frame heq
  generalize newSlab g slab header = sp at *
  have hother : ∀ sp', sp' ≠ sp → s'.slabs sp' = s.slabs sp' := fun sp' hne => by
    rw [hslabs, update_of_ne hne]
  have hself : (s'.slabs sp).slabState = .active := by
    rw [hslabs, update_self]
  unfold Idle
  rw [hlist]
  refine ⟨?_, hidle.nodup, ?_⟩
  · intro sp' hsp' hstate'
    rw [hlive] at hsp'
    rcases mem_cons.mp hsp' with rfl | hsp'
    · exact absurd hself hstate'
    · have hne : sp' ≠ sp := fun heq => hnew (heq ▸ hsp')
      rw [hother sp' hne] at hstate' ⊢
      exact hidle.refcnt sp' hsp' hstate'
  · intro sp' hsp'
    obtain ⟨hin, hlinked, hmark⟩ := hidle.marked sp' hsp'
    have hne : sp' ≠ sp := fun heq => hnew (heq ▸ hin)
    rw [hlive, hbuilt, hdying, hother sp' hne]
    refine ⟨mem_cons_of_mem _ hin, ?_, hmark⟩
    rw [cons_append, mem_cons, not_or]
    exact ⟨hne, hlinked⟩

end

variable (interval delay : BitVec 32)

/-- A turn of the walk on a slab that is linked. -/
theorem IdleWith.reclaimTurn {r : State × List Word} (h : IdleWith r.1 r.2) (hsp : sp ∈ r.1.live)
    (hlinked : sp ∉ r.1.built ++ r.1.dying) :
    IdleWith (reclaimTurn interval delay sp r).1
      (reclaimTurn interval delay sp r).2 := by
  unfold Slab.reclaimTurn
  dsimp only
  split
  · exact h
  · rename_i hrefcnt
    have hzero : (r.1.slabs sp).slabRefcnt = 0 := not_not.mp hrefcnt
    -- a slab without buffers in use that is not marked gets another time
    have htime : ∀ time, (r.1.slabs sp).slabState ≠ .reclaiming →
        Touch r.1 (r.1.setSlab sp fun sl => { sl with slabIdleTime := time }) sp
          { r.1.slabs sp with slabIdleTime := time } := fun time hmark =>
      { slabs := rfl
        base := rfl
        refcnt := fun _ _ => hzero
        unmarked := fun _ => .inl hmark
        list := rfl
        live := fun _ hsp' => hsp'
        stays := fun _ hsp' => .inl hsp'
        notLinked := fun _ hsp' => .inl hsp'
        bufctls := Subset.refl _ }
    split
    · rename_i hdirty
      have hmark : (r.1.slabs sp).slabState ≠ .reclaiming := by simp [hdirty]
      have hnot : sp ∉ r.2 := fun hin => hmark (h.marked sp hin).2.2
      split
      · -- the slab joins the list
        refine ⟨?_, nodup_cons.mpr ⟨hnot, h.nodup⟩, ?_⟩
        · intro sp' hsp' hstate
          by_cases hne : sp' = sp
          · rw [hne, State.setSlab_self]
            exact hzero
          · rw [State.setSlab_of_ne _ _ hne] at hstate ⊢
            exact h.refcnt sp' hsp' hstate
        · intro sp' hsp'
          rcases mem_cons.mp hsp' with rfl | hsp'
          · exact ⟨hsp, hlinked, by rw [State.setSlab_self]⟩
          · have hne : sp' ≠ sp := fun heq => hnot (heq ▸ hsp')
            rw [State.setSlab_of_ne _ _ hne]
            exact h.marked sp' hsp'
      · exact h.touch (htime _ hmark)
    · rename_i hclean
      have hmark : (r.1.slabs sp).slabState ≠ .reclaiming := by simp [hclean]
      split
      · have hretire : Touch r.1 (retireSlab (r.1.setSlab sp fun sl =>
            { sl with slabIdleTime := (r.1.slabs sp).slabIdleTime+interval }) sp) sp
            { r.1.slabs sp with slabIdleTime := (r.1.slabs sp).slabIdleTime+interval } := by
          refine { htime _ hmark with notLinked := ?_ }
          intro sp' hsp'
          have hprivate : sp' ∈ r.1.built ++ sp :: r.1.dying := hsp'
          rw [perm_middle.mem_iff, mem_cons] at hprivate
          exact hprivate.symm
        exact h.touch hretire
      · exact h.touch (htime _ hmark)
    · exact h

theorem reclaimTurn_frame (sp : Word) (r : State × List Word) :
    (reclaimTurn interval delay sp r).1.live = r.1.live ∧
    (reclaimTurn interval delay sp r).1.bufctls = r.1.bufctls ∧
    (∀ sp', ((reclaimTurn interval delay sp r).1.slabs sp').slabBase =
      (r.1.slabs sp').slabBase) ∧
    ∀ sp' ≠ sp, sp' ∉ r.1.built ++ r.1.dying →
      sp' ∉ (reclaimTurn interval delay sp r).1.built ++
        (reclaimTurn interval delay sp r).1.dying := by
  have hbase : ∀ sl : UmemSlab, sl.slabBase = (r.1.slabs sp).slabBase → ∀ sp',
      (update r.1.slabs sp sl sp').slabBase = (r.1.slabs sp').slabBase := by
    intro sl hsl sp'
    by_cases hne : sp' = sp
    · rw [hne, update_self, hsl]
    · rw [update_of_ne hne]
  let idle := (r.1.slabs sp).slabIdleTime+interval
  have htime := hbase { r.1.slabs sp with slabIdleTime := idle } rfl
  have hmark := hbase { r.1.slabs sp with slabIdleTime := idle, slabState := .reclaiming } rfl
  unfold reclaimTurn
  dsimp only
  split
  · exact ⟨rfl, rfl, fun _ => rfl, fun _ _ => id⟩
  · split
    · split
      · exact ⟨rfl, rfl, hmark, fun _ _ => id⟩
      · exact ⟨rfl, rfl, htime, fun _ _ => id⟩
    · split
      · refine ⟨rfl, rfl, htime, ?_⟩
        intro sp' hne hnot hmem
        have hprivate : sp' ∈ r.1.built ++ sp :: r.1.dying := hmem
        rw [perm_middle.mem_iff, mem_cons] at hprivate
        rcases hprivate with heq | hprivate
        · exact hne heq
        · exact hnot hprivate
      · exact ⟨rfl, rfl, htime, fun _ _ => id⟩
    · exact ⟨rfl, rfl, fun _ => rfl, fun _ _ => id⟩

theorem IdleWith.reclaimWalk (h : IdleWith s []) (order : List Word) (hnd : order.Nodup)
    (hlinked : ∀ sp ∈ order, sp ∈ s.live ∧ sp ∉ s.built ++ s.dying) :
    let r := order.foldr (Slab.reclaimTurn interval delay) (s, [])
    IdleWith r.1 r.2 ∧ r.1.live = s.live ∧ r.1.bufctls = s.bufctls ∧
      (∀ sp, (r.1.slabs sp).slabBase = (s.slabs sp).slabBase) ∧
      ∀ sp ∉ order, sp ∉ s.built ++ s.dying → sp ∉ r.1.built ++ r.1.dying := by
  induction order with
  | nil => exact ⟨h, rfl, rfl, fun _ => rfl, fun _ _ => id⟩
  | cons sp order ih =>
    obtain ⟨hnot, hnd⟩ := nodup_cons.mp hnd
    obtain ⟨hinv, hlive, hbufctls, hbase, hprivate⟩ :=
      ih hnd fun sp' hsp' => hlinked sp' (mem_cons_of_mem _ hsp')
    obtain ⟨hsp, hsplinked⟩ := hlinked sp mem_cons_self
    rw [foldr_cons]
    generalize order.foldr (Slab.reclaimTurn interval delay) (s, []) = r at *
    obtain ⟨flive, fbufctls, fbase, fprivate⟩ := reclaimTurn_frame interval delay sp r
    refine ⟨hinv.reclaimTurn interval delay (hlive ▸ hsp) (hprivate sp hnot hsplinked),
      flive.trans hlive, fbufctls.trans hbufctls, fun sp' => (fbase sp').trans (hbase sp'), ?_⟩
    intro sp' hsp' hnotin
    rw [mem_cons, not_or] at hsp'
    exact fprivate sp' hsp'.1 (hprivate sp' hsp'.2 hnotin)

theorem startReclaim_idle (h : Inv g s ly) (hidle : Idle s)
    (heq : startReclaim g interval delay s = some s') :
    Idle s' ∧ s'.live = s.live ∧ s'.bufctls = s.bufctls ∧
      ∀ sp, (s'.slabs sp).slabBase = (s.slabs sp).slabBase := by
  obtain ⟨hnone, rfl⟩ := startReclaim_eq h.cycle h.length_order_le heq
  have hbefore : IdleWith s [] := by
    have := hidle
    unfold Idle at this
    rwa [hnone] at this
  obtain ⟨hinv, hlive, hbufctls, hbase, -⟩ := hbefore.reclaimWalk interval delay ly.order
    h.order_nodup fun sp hsp => ⟨h.mem_live_of_order hsp, h.notMem_private hsp⟩
  exact ⟨⟨hinv.refcnt, hinv.nodup, hinv.marked⟩, hlive, hbufctls, hbase⟩

theorem finishReclaim_idle (hidle : Idle s) (heq : finishReclaim s = some s') :
    Idle s' ∧ s'.live = s.live ∧ s'.bufctls = s.bufctls ∧
      ∀ sp, (s'.slabs sp).slabBase = (s.slabs sp).slabBase := by
  unfold finishReclaim at heq
  obtain ⟨list, hlist, rfl⟩ := Option.map_eq_some_iff.mp heq
  have hmarked := hidle.marked
  rw [hlist] at hmarked
  -- only slabs that a pass has marked become clean, and those have no buffers in use
  have hfold : ∀ (l : List Word) (t : State),
      (∀ sp ∈ t.live, (t.slabs sp).slabState ≠ .active → (t.slabs sp).slabRefcnt = 0) →
      (∀ sp ∈ l, (t.slabs sp).slabRefcnt = 0) →
      let t' := l.foldl (fun s sp => s.setSlab sp fun sl => { sl with slabState := .clean }) t
      (∀ sp ∈ t'.live, (t'.slabs sp).slabState ≠ .active → (t'.slabs sp).slabRefcnt = 0) ∧
        t'.live = t.live ∧ t'.bufctls = t.bufctls ∧
        ∀ sp, (t'.slabs sp).slabBase = (t.slabs sp).slabBase := by
    intro l
    induction l with
    | nil => exact fun t ht _ => ⟨ht, rfl, rfl, fun _ => rfl⟩
    | cons a l ih =>
      intro t ht hzero
      have hrefcnt : ∀ sp, ((t.setSlab a fun sl => { sl with slabState := .clean }).slabs
          sp).slabRefcnt = (t.slabs sp).slabRefcnt := by
        intro sp
        by_cases hne : sp = a
        · rw [hne, State.setSlab_self]
        · rw [State.setSlab_of_ne _ _ hne]
      obtain ⟨hstates, hlive, hbufctls, hbase⟩ := ih
        (t.setSlab a fun sl => { sl with slabState := .clean })
        (fun sp hsp hstate => by
          rw [hrefcnt]
          by_cases hne : sp = a
          · exact hzero sp (hne ▸ mem_cons_self)
          · rw [State.setSlab_of_ne _ _ hne] at hstate
            exact ht sp hsp hstate)
        (fun sp hsp => (hrefcnt sp).trans (hzero sp (mem_cons_of_mem _ hsp)))
      refine ⟨hstates, hlive, hbufctls, fun sp => (hbase sp).trans ?_⟩
      by_cases hne : sp = a
      · rw [hne, State.setSlab_self]
      · rw [State.setSlab_of_ne _ _ hne]
  obtain ⟨hstates, hlive, hbufctls, hbase⟩ := hfold list s hidle.refcnt (by
    intro sp hsp
    obtain ⟨hlive, -, hstate⟩ := hmarked sp hsp
    exact hidle.refcnt sp hlive (by simp [hstate]))
  exact ⟨⟨hstates, nodup_nil, by simp⟩, hlive, hbufctls, hbase⟩

end Libumem.Slab
