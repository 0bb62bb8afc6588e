import Libumem.Slab.Conserve

/-!
# The shape of the slab list

Slabs without a free buffer come first, and the free list begins at the first slab that has one. So
`umem_slab_alloc` finds every free buffer from the free list, except for those of slabs that a pass is
reclaiming.

This fails when an allocation passes over a slab that is being reclaimed and takes the last buffer of
a slab behind it: the free list then goes on behind that slab, and the slab that was passed over is
lost to it.
-/

namespace Libumem.Slab
open Function List Option Arith Lib
variable {g : Geom} {s s' : State} {ly : Layout} {sp : Word}

/-- Slabs that are marked as being reclaimed belong to a pass that is not finished. -/
def Pending (s : State) : Prop :=
  ∀ sp ∈ s.live, (s.slabs sp).slabState = .reclaiming → ∃ list, s.reclaimList = some list ∧ sp ∈ list

/-- No slab is marked, and no pass begins or ends. -/
structure Quiet (s s' : State) : Prop where
  list : s'.reclaimList = s.reclaimList
  state : ∀ sp ∈ s'.live, (s'.slabs sp).slabState = .reclaiming →
    sp ∈ s.live ∧ (s.slabs sp).slabState = .reclaiming

theorem Pending.quiet (h : Pending s) (hquiet : Quiet s s') : Pending s' := by
  intro sp hsp hstate
  obtain ⟨hlive, hstate⟩ := hquiet.state sp hsp hstate
  rw [hquiet.list]
  exact h sp hlive hstate

theorem Quiet.of_same (hlist : s'.reclaimList = s.reclaimList) (hlive : s'.live ⊆ s.live)
    (hstate : ∀ sp, (s'.slabs sp).slabState = (s.slabs sp).slabState) : Quiet s s' where
  list := hlist
  state sp hsp hmark := ⟨hlive hsp, (hstate sp).symm.trans hmark⟩

theorem Quiet.of_update (sl : UmemSlab) (hlist : s'.reclaimList = s.reclaimList)
    (hlive : s'.live ⊆ sp :: s.live) (hslabs : s'.slabs = update s.slabs sp sl)
    (hstate : sl.slabState ≠ .reclaiming) : Quiet s s' where
  list := hlist
  state sp' hsp' hmark := by
    rw [hslabs] at hmark
    by_cases hne : sp' = sp
    · rw [hne, update_self] at hmark
      exact absurd hmark hstate
    · rw [update_of_ne hne] at hmark
      exact ⟨(mem_cons.mp (hlive hsp')).resolve_left hne, hmark⟩

theorem Quiet.trans {s'' : State} (h : Quiet s s') (h' : Quiet s' s'') : Quiet s s'' where
  list := h'.list.trans h.list
  state sp hsp hmark := by
    obtain ⟨hlive, hmark⟩ := h'.state sp hsp hmark
    exact h.state sp hlive hmark

theorem Inv.takeBuffer_quiet (h : Inv g s ly) (hsp : sp ∈ ly.back) : Quiet s (takeBuffer g s sp).1 := by
  obtain ⟨bcp, rest, hfree⟩ := exists_cons_of_ne_nil (h.back sp hsp)
  have hok := h.slab sp (h.mem_live_of_back hsp)
  rw [hfree] at hok
  rw [takeBuffer_eq hok]
  refine Quiet.of_update (takenSlab g s sp) rfl (subset_cons_self sp s.live) rfl ?_
  simp [takenSlab, reactivate]

theorem umemSlabAlloc_quiet (h : Inv g s ly) : Quiet s (umemSlabAlloc g s).1 := by
  rcases umemSlabAlloc_cases h with ⟨-, heq⟩ | ⟨mid, sp, post, hback, -, -, heq, -⟩
  · rw [heq]
    exact Quiet.of_same rfl (Subset.refl _) fun _ => rfl
  · rw [heq]
    exact h.takeBuffer_quiet (by simp [hback])

theorem linkNewSlab_quiet (h : Inv g s ly) {r : State × Option Word}
    (heq : linkNewSlab g s sp = some r) : Quiet s r.1 := by
  obtain ⟨hsp, heq⟩ := ite_none_right_eq_some.mp heq
  cases heq
  have hlinked : Quiet s (State.linkSlab { s with
      built := s.built.erase sp
      buftotal := s.buftotal+(s.slabs sp).slabChunks } sp) :=
    Quiet.of_same rfl (Subset.refl _) fun _ => rfl
  exact hlinked.trans ((h.link hsp).takeBuffer_quiet mem_cons_self)

theorem umemSlabCreate_quiet {color slab header : Word} {bufctls : List Word}
    (heq : umemSlabCreate g s color slab header bufctls = some s') : Quiet s s' := by
  obtain ⟨⟨head, hslabs⟩, hlive, -, -, hlist, -⟩ := umemSlabCreate_frame heq
  exact Quiet.of_update _ hlist (by rw [hlive]; exact Subset.refl _) hslabs (by simp)

theorem findBufctl_quiet (buf : Word) : Quiet s (findBufctl g s buf).1 := by
  unfold findBufctl
  split
  · unfold leaveHash
    dsimp only
    split <;> exact Quiet.of_same rfl (Subset.refl _) fun _ => rfl
  · exact Quiet.of_same rfl (Subset.refl _) fun _ => rfl

theorem putBuffer_quiet (buf bcp : Word) (enabled : Bool) :
    Quiet s (putBuffer g s buf bcp sp enabled) := by
  have hpush : Quiet s (pushBuffer g s buf bcp sp) := by
    refine Quiet.of_same rfl (Subset.refl _) ?_
    intro sp'
    rw [pushBuffer]
    dsimp only
    by_cases hne : sp' = sp
    · rw [hne, update_self]
    · rw [update_of_ne hne]
  unfold putBuffer
  dsimp only
  split
  · split
    · exact hpush.trans (Quiet.of_update _ rfl (subset_cons_self _ _) rfl (by simp))
    · exact hpush.trans (Quiet.of_same rfl (Subset.refl _) fun _ => rfl)
  · exact hpush

theorem umemSlabFree_quiet (buf : Word) (enabled : Bool) :
    Quiet s (umemSlabFree g s buf enabled) := by
  have hfind := findBufctl_quiet (g := g) (s := s) buf
  unfold umemSlabFree
  generalize findBufctl g s buf = found at hfind ⊢
  obtain ⟨s₁, _ | ⟨bcp, sp⟩⟩ := found
  · exact hfind
  · dsimp only
    split
    · exact hfind
    · exact hfind.trans (putBuffer_quiet buf bcp enabled)

/-- A pass has noted the slabs that are marked. -/
def Noted (r : State × List Word) : Prop :=
  ∀ sp ∈ r.1.live, (r.1.slabs sp).slabState = .reclaiming → sp ∈ r.2

theorem Noted.setSlab {r : State × List Word} (h : Noted r) (sp : Word) {f : UmemSlab → UmemSlab}
    {list : List Word} (hlist : r.2 ⊆ list)
    (hf : (f (r.1.slabs sp)).slabState = .reclaiming →
      (r.1.slabs sp).slabState = .reclaiming ∨ sp ∈ list) : Noted (r.1.setSlab sp f, list) := by
  intro sp' hsp' hmark
  by_cases hne : sp' = sp
  · rw [hne, State.setSlab_self] at hmark
    rw [hne] at hsp' ⊢
    rcases hf hmark with hold | hin
    · exact hlist (h sp hsp' hold)
    · exact hin
  · rw [State.setSlab_of_ne _ _ hne] at hmark
    exact hlist (h sp' hsp' hmark)

theorem Noted.reclaimTurn {r : State × List Word} (h : Noted r) (interval delay : BitVec 32)
    (sp : Word) : Noted (reclaimTurn interval delay sp r) := by
  unfold Slab.reclaimTurn
  dsimp only
  split
  · exact h
  · split
    · split
      · exact h.setSlab sp (subset_cons_self sp r.2) fun _ => .inr mem_cons_self
      · exact h.setSlab sp (Subset.refl _) .inl
    · have hidle : Noted (r.1.setSlab sp fun sl =>
          { sl with slabIdleTime := (r.1.slabs sp).slabIdleTime+interval }, r.2) :=
        h.setSlab sp (Subset.refl _) .inl
      split
      · exact hidle
      · exact hidle
    · exact h

theorem Noted.reclaimWalk {r : State × List Word} (h : Noted r) (interval delay : BitVec 32)
    (n : Nat) (sp : Word) : Noted (reclaimWalk g interval delay n sp r) := by
  induction n generalizing sp r with
  | zero => exact h
  | succ n ih =>
    unfold Slab.reclaimWalk
    split
    · exact h
    · exact ih (h.reclaimTurn interval delay sp) _

theorem Pending.startReclaim (h : Pending s) {interval delay : BitVec 32}
    (heq : startReclaim g interval delay s = some s') : Pending s' := by
  unfold Slab.startReclaim at heq
  split at heq
  case isFalse => simp at heq
  rename_i hnone
  cases heq
  have hstart : Noted (s, []) := by
    intro sp hsp hmark
    obtain ⟨list, hlist, -⟩ := h sp hsp hmark
    rw [hnone] at hlist
    simp at hlist
  intro sp hsp hmark
  exact ⟨_, rfl, hstart.reclaimWalk interval delay s.buftotal _ sp hsp hmark⟩

theorem Pending.finishReclaim (h : Pending s) (heq : finishReclaim s = some s') : Pending s' := by
  unfold Slab.finishReclaim at heq
  obtain ⟨list, hlist, rfl⟩ := map_eq_some_iff.mp heq
  -- what is still marked after a part of the list is marked before it and comes later
  have hfold : ∀ (l : List Word) (s : State), (∀ sp ∈ s.live,
      (s.slabs sp).slabState = .reclaiming → sp ∈ l) →
      ∀ sp ∈ (l.foldl (fun s sp => s.setSlab sp fun sl => { sl with slabState := .clean }) s).live,
      ((l.foldl (fun s sp => s.setSlab sp fun sl => { sl with slabState := .clean }) s).slabs
        sp).slabState ≠ .reclaiming := by
    intro l
    induction l with
    | nil => exact fun s hs sp hsp hmark => by simpa using hs sp hsp hmark
    | cons a l ih =>
      intro s hs
      apply ih
      intro sp hsp hmark
      by_cases hne : sp = a
      · rw [hne, State.setSlab_self] at hmark
        simp at hmark
      · rw [State.setSlab_of_ne _ _ hne] at hmark
        exact (mem_cons.mp (hs sp hsp hmark)).resolve_left hne
  intro sp hsp hmark
  refine absurd hmark (hfold list s ?_ sp hsp)
  intro sp hsp hmark
  obtain ⟨list', hlist', hin⟩ := h sp hsp hmark
  rw [hlist] at hlist'
  exact some.inj hlist' ▸ hin

theorem Pending.step (hpending : Pending s) (h : Inv g s ly) {e : Event}
    (hstep : step g s e = some s') : Pending s' := by
  cases e with
  | alloc =>
    cases hstep
    exact hpending.quiet (umemSlabAlloc_quiet h)
  | color =>
    obtain ⟨-, hstep⟩ := ite_none_left_eq_some.mp hstep
    cases hstep
    exact hpending
  | create color slab header bufctls => exact hpending.quiet (umemSlabCreate_quiet hstep)
  | createFail color =>
    obtain ⟨-, hstep⟩ := ite_none_right_eq_some.mp hstep
    cases hstep
    exact hpending
  | link sp =>
    obtain ⟨r, hlink, rfl⟩ := map_eq_some_iff.mp hstep
    exact hpending.quiet (linkNewSlab_quiet h hlink)
  | free buf enabled =>
    cases hstep
    exact hpending.quiet (umemSlabFree_quiet buf enabled)
  | destroy sp =>
    obtain ⟨-, hstep⟩ := ite_none_right_eq_some.mp hstep
    cases hstep
    exact hpending.quiet (Quiet.of_same rfl (erase_subset) fun _ => rfl)
  | startReclaim interval delay => exact hpending.startReclaim hstep
  | finishReclaim => exact hpending.finishReclaim hstep
  | write buf val =>
    obtain ⟨-, hstep⟩ := ite_none_right_eq_some.mp hstep
    cases hstep
    exact hpending

/-- The slabs of the cache: those without a free buffer, and from the free list on those with one. -/
structure ListShape (g : Geom) (s : State) (front back : List Word) : Prop where
  cycle : s.links.Cycle g.nullslab (front ++ back)
  freelist : s.freelist = back.headD g.nullslab
  full : ∀ sp ∈ front, (s.slabs sp).slabHead = 0
  free : ∀ sp ∈ back, (s.slabs sp).slabHead ≠ 0
  /-- when `umem_slab_alloc` goes on to create a slab, a pass is reclaiming all slabs with a free
  buffer -/
  create : (umemSlabAlloc g s).1.wanting ≠ s.wanting → ∀ sp ∈ front ++ back,
    (s.slabs sp).slabHead ≠ 0 → ∃ list, s.reclaimList = some list ∧ sp ∈ list

theorem Inv.listShape (h : Inv g s ly) (hshape : ly.Shaped) (hpending : Pending s) :
    ListShape g s ly.front ly.back where
  cycle := h.cycle
  freelist := h.freelist
  full sp hsp := by
    have hlive := h.mem_live_of_order (mem_append_left _ hsp)
    exact (h.slab sp hlive).head_eq_zero_iff.mpr (hshape sp hsp)
  free sp hsp := h.head_ne_zero hsp
  create hwanting sp hsp hhead := by
    have hlive := h.mem_live_of_order hsp
    have hback : sp ∈ ly.back := by
      rcases mem_append.mp hsp with hfront | hback
      · exact absurd ((h.slab sp hlive).head_eq_zero_iff.mpr (hshape sp hfront)) hhead
      · exact hback
    rcases umemSlabAlloc_cases h with ⟨hall, -⟩ | ⟨mid, sp', post, hsplit, -, -, heq, -⟩
    · exact hpending sp hlive (hall sp hback)
    · have hsp' : sp' ∈ ly.back := by simp [hsplit]
      obtain ⟨bcp, rest, hfree⟩ := exists_cons_of_ne_nil (h.back sp' hsp')
      have hok := h.slab sp' (h.mem_live_of_back hsp')
      rw [hfree] at hok
      rw [heq, takeBuffer_eq hok] at hwanting
      exact absurd rfl hwanting

/-- A step of a run in which buffers are given back as they should be, and no last buffer is taken
behind slabs that are being reclaimed. -/
def ShapedStep (g : Geom) (s : State) (e : Event) (s' : State) : Prop :=
  (e.Legit g s ∧ e.LeavesOne g s) ∧ step g s e = some s'

/-- In every state that such a run reaches, the list has its shape. -/
theorem slab_list_shape (g : Geom) (memory : State) {events : List Event} {s : State}
    (hrun : Runs (ShapedStep g) (initial g memory) events s) :
    ∃ front back, ListShape g s front back := by
  have hinv : ∃ ly, Inv g s ly ∧ ly.Shaped ∧ Pending s := by
    apply Runs.invariant _ hrun
    · refine ⟨_, initial_inv g memory, by simp [Layout.Shaped], ?_⟩
      intro sp hsp
      simp [initial] at hsp
    · rintro s e s' ⟨ly, h, hshape, hpending⟩ ⟨⟨hlegit, hleaves⟩, hstep⟩
      obtain ⟨ly', h', hshape', -⟩ := h.step hlegit hstep
      exact ⟨ly', h', hshape' hleaves hshape, hpending.step h hstep⟩
  obtain ⟨ly, h, hshape, hpending⟩ := hinv
  exact ⟨ly.front, ly.back, h.listShape hshape hpending⟩

instance (g : Geom) (s : State) : (e : Event) → Decidable (e.LeavesOne g s)
  | .alloc => inferInstanceAs (Decidable (_ → _))
  | .color | .create .. | .createFail _ | .link _ | .free .. | .destroy _ | .startReclaim ..
  | .finishReclaim | .write .. => .isTrue trivial

/-- Two slabs are made, and the buffers of the first one are given back. -/
def twoSlabs : List Event :=
  firstSlab ++ [.alloc, .alloc, .color, .create 16 0x20000 0 [], .link 0x20fb8, .free 0x107d8 true,
    .free 0x10008 true]

/-- The second slab has all its buffers back when one of them is taken behind the first slab, which is
being reclaimed. -/
theorem slab_list_shape_reclaiming : ∃ s,
    Runs (ShapedStep pageCache) (initial pageCache zeroMemory)
      (twoSlabs ++ [.startReclaim 10 10, .free 0x207e0 true, .alloc]) s ∧
    (∃ front back, ListShape pageCache s front back) ∧
      (s.slabs s.freelist).slabState = .reclaiming ∧ s.held = [0x207e0] := by
  obtain ⟨s, hrun, hs⟩ := exists_runs
    (P := fun s e => Event.Legit pageCache s e ∧ Event.LeavesOne pageCache s e) (f := step pageCache)
    (initial pageCache zeroMemory) (twoSlabs ++ [.startReclaim 10 10, .free 0x207e0 true, .alloc])
    (fun s => ((s.slabs s.freelist).slabState, s.held)) (.reclaiming, [0x207e0]) (by decide +kernel)
  simp only [Prod.mk.injEq] at hs
  exact ⟨s, hrun, slab_list_shape pageCache zeroMemory hrun, hs⟩

/-- The last buffer of the second slab is taken while the first slab is being reclaimed. After that the
first slab has two free buffers and is not on the free list, and the next allocation wants a new
slab although no pass is going on. -/
theorem slab_list_shape_lost : ∃ s,
    Runs (LegitStep pageCache) (initial pageCache zeroMemory)
      (twoSlabs ++ [.startReclaim 10 10, .alloc, .finishReclaim]) s ∧
    s.reclaimList = none ∧ (umemSlabAlloc pageCache s).1.wanting ≠ s.wanting ∧
    ¬ ∃ front back, ListShape pageCache s front back := by
  obtain ⟨s, hrun, hs⟩ := exists_runs (P := fun s e => Event.Legit pageCache s e)
    (f := step pageCache) (initial pageCache zeroMemory)
    (twoSlabs ++ [.startReclaim 10 10, .alloc, .finishReclaim])
    (fun s => (s.reclaimList, decide ((umemSlabAlloc pageCache s).1.wanting ≠ s.wanting),
      s.links.next pageCache.nullslab, decide ((s.slabs 0x10fb8).slabHead ≠ 0)))
    (none, true, some 0x10fb8, true) (by decide +kernel)
  simp only [Prod.mk.injEq, decide_eq_true_eq] at hs
  obtain ⟨hlist, hwanting, hnext, hhead⟩ := hs
  refine ⟨s, hrun, hlist, hwanting, ?_⟩
  rintro ⟨front, back, h⟩
  have hfirst := h.cycle.path.next_start
  rw [hnext] at hfirst
  have hmem : 0x10fb8 ∈ front ++ back := by
    cases horder : front ++ back with
    | nil =>
      rw [horder] at hfirst
      exact absurd (some.inj hfirst) (by decide)
    | cons a l =>
      rw [horder] at hfirst
      rw [some.inj hfirst]
      exact mem_cons_self
  obtain ⟨list, hsome, -⟩ := h.create hwanting _ hmem hhead
  rw [hlist] at hsome
  simp at hsome

end Libumem.Slab
