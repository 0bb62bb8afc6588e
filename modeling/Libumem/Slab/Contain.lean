import Libumem.Slab.Idle

/-!
# A corrupted link is contained

`umem_slab_alloc` tests the link behind the buffer that it takes. When something has written over the
link, the list of the slab is cut off and the allocation fails. If the cache has no hash table, the
slab is the first one of the free list and one of its buffers is in use, nothing else goes wrong: the
other slabs are left alone, the slab goes on with the buffers that come back to it, and it leaves the
cache when the last one has come back.

Without a buffer in use the slab is active forever, so that no pass reclaims it; with a hash table the
bufctls that were on the list stay behind when the slab is destroyed; and when slabs that are being
reclaimed come first on the free list, they drop out of it.
-/

namespace Libumem.Slab
open Function List Option Arith Lib
variable {g : Geom} {s s' s₁ : State} {ly : Layout} {t sp bcp buf : Word}

/-- The link behind the first free buffer of a slab. -/
def headLink (g : Geom) (s : State) (sp : Word) : Word :=
  g.linkMangle (s.slabs sp).slabHead (s.bcNext (s.slabs sp).slabHead)

theorem takeBuffer_invalid (h : g.umemSlabLinkValid (s.slabs sp) (headLink g s sp) = false) :
    takeBuffer g s sp = ({ s.setSlab sp fun sl => { reactivate sl with slabHead := 0 } with
      freelist := s.nextOf sp }, none) := by
  have htwice : (s.setSlab sp reactivate).setSlab sp (fun sl => { sl with slabHead := 0 }) =
      s.setSlab sp fun sl => { reactivate sl with slabHead := 0 } := by
    simp only [State.setSlab, update_self, update_idem]
  have hself : (s.setSlab sp reactivate).slabs sp = reactivate (s.slabs sp) := update_self _ _ _
  unfold takeBuffer
  simp only [hself, htwice]
  exact if_pos h

/-- The slab from which `umem_slab_alloc` takes a buffer, if it does not create one. -/
def allocSlab (g : Geom) (s : State) : Option Word :=
  let sp := s.freelist
  if (s.slabs sp).slabHead = 0 then none
  else if (s.slabs sp).slabState = .reclaiming then
    let sp := firstUsable g s s.buftotal (s.nextOf sp)
    if sp = g.nullslab ∨ (s.slabs sp).slabHead = 0 then none else some sp
  else some sp

theorem umemSlabAlloc_of_allocSlab (h : allocSlab g s = some t) :
    umemSlabAlloc g s = takeBuffer g s t := by
  unfold allocSlab at h
  unfold umemSlabAlloc
  dsimp only at h ⊢
  split at h
  · simp at h
  · rename_i hhead
    rw [if_neg hhead]
    split at h
    · rename_i hstate
      rw [if_pos hstate]
      split at h
      · simp at h
      · rename_i hfound
        rw [if_neg hfound, Option.some.inj h]
    · rename_i hstate
      rw [if_neg hstate, Option.some.inj h]

theorem freelist_of_allocSlab (h : allocSlab g s = some t)
    (hstate : (s.slabs s.freelist).slabState ≠ .reclaiming) : s.freelist = t := by
  unfold allocSlab at h
  dsimp only at h
  rw [if_neg hstate] at h
  split at h
  · simp at h
  · exact Option.some.inj h

/-- Something has written over links of the list of a slab, and the first of them is none any more. -/
structure Corrupted (g : Geom) (s s₁ : State) (t : Word) : Prop where
  head : (s.slabs t).slabHead ≠ 0
  memory : ∃ next free, s₁ = { s with bcNext := next } ∧
    Chain (s.freeLink g) (ptr (s.slabs t).slabHead) free ∧ ∀ b ∉ free, next b = s.bcNext b
  invalid : g.umemSlabLinkValid (s.slabs t) (headLink g s₁ t) = false

theorem Corrupted.slabs_eq (h : Corrupted g s s₁ t) : s₁.slabs = s.slabs := by
  obtain ⟨next, free, rfl, -, -⟩ := h.memory
  rfl

theorem Corrupted.link_invalid (h : Corrupted g s s₁ t) :
    g.umemSlabLinkValid (s₁.slabs t) (headLink g s₁ t) = false := by
  rw [h.slabs_eq]
  exact h.invalid

/-- The chunks on the list of the slab are lost. -/
def Layout.cut (g : Geom) (s : State) (ly : Layout) (t : Word) (post : List Word) : Layout where
  front := ly.front ++ [t]
  back := post
  free := update ly.free t []
  used := ly.used
  lost := update ly.lost t ((ly.free t).map (s.addrOf g) ++ ly.lost t)

theorem SlabOk.cut {free used lost : List Word} (h : SlabOk g s t free used lost)
    (hself : s'.slabs t = { reactivate (s.slabs t) with slabHead := 0 })
    (haddr : ∀ b, s'.addrOf g b = s.addrOf g b) (hslabOf : ∀ b, s'.slabOf g b = s.slabOf g b) :
    SlabOk g s' t [] used (free.map (s.addrOf g) ++ lost) := by
  refine ⟨?_, ?_, ?_, ?_, ?_, ?_, ?_⟩
  · rw [hself]
    exact h.cache
  · rw [hself]
    exact h.span.congr rfl rfl
  · rw [hself]
    exact h.header
  · rw [hself]
    exact ptr_zero
  · have htiles := h.tiles
    rw [map_append, append_assoc] at htiles
    rw [nil_append, map_congr_left fun b _ => haddr b, hself]
    exact (perm_append_comm_assoc _ _ _).trans htiles
  · rw [hself]
    exact h.refcnt
  · intro b hb
    rw [hslabOf]
    exact h.bufctl b (mem_append_right _ hb)

/-- The list is cut off, and nothing but the chunks on it is lost. -/
theorem Inv.cut (h : Inv g s ly) (hhash : g.hash = false) (hcorrupt : Corrupted g s s₁ t)
    (hfront : s.freelist = t) : ∃ post, Inv g (takeBuffer g s₁ t).1 (ly.cut g s t post) := by
  obtain ⟨hhead, ⟨next, free, rfl, hchain, hnext⟩, hinvalid⟩ := hcorrupt
  -- the slab is the first one of the free list
  obtain ⟨post, hback⟩ : ∃ post, ly.back = t :: post := by
    cases hback : ly.back with
    | nil =>
      have hnull := h.freelist
      rw [hback, headD_nil, hfront] at hnull
      rw [hnull, h.null_head] at hhead
      exact absurd rfl hhead
    | cons sp post =>
      have hsp := h.freelist
      rw [hback, headD_cons, hfront] at hsp
      exact ⟨post, by rw [hsp]⟩
  have hmem : t ∈ ly.back := by simp [hback]
  have hlive := h.mem_live_of_back hmem
  have hok := h.slab t hlive
  obtain rfl := hok.chain.unique hchain
  have hcycle := h.cycle
  rw [Layout.order, hback] at hcycle
  refine ⟨post, ?_⟩
  rw [takeBuffer_invalid hinvalid]
  apply h.change_slab (mem_append_right _ hmem)
  case hlive => rfl
  case hbuilt => rfl
  case hdying => rfl
  case hbufctls => rfl
  case htotal => rfl
  case hcolors => exact ⟨rfl, rfl⟩
  case hsame => exact fun sp hne => update_of_ne hne _ _
  case hbase => simp only [State.setSlab, update_self, reactivate]
  case hchunks => simp only [State.setSlab, update_self, reactivate]
  case haddr => exact fun _ => rfl
  case hslabOf => exact fun _ => rfl
  case hlink =>
    intro sp hsp hne b hb
    have hnot : b ∉ ly.free t := fun hbt =>
      hne (h.slab_unique hsp hlive (mem_append_left _ hb) (mem_append_left _ hbt))
    exact congrArg (fun w => ptr (g.linkMangle b w)) (hnext b hnot)
  case hfree => exact fun sp hne => update_of_ne hne _ _
  case hused => exact fun _ _ => rfl
  case hlost => exact fun sp hne => update_of_ne hne _ _
  case hperm => exact fun h' => by simp [hhash] at h'
  case horder => simp [Layout.order, Layout.cut, hback]
  case hok =>
    simp only [Layout.cut, update_self]
    exact hok.cut (update_self _ _ _) (fun _ => rfl) fun _ => rfl
  case hcycle =>
    have heq : (ly.cut g s t post).order = ly.front ++ t :: post := by
      simp [Layout.order, Layout.cut]
    rw [heq]
    exact hcycle
  case hfreelist =>
    change s.nextOf t = post.headD g.nullslab
    rw [State.nextOf, hcycle.next_eq, getD_some]
  case hback =>
    intro sp hsp
    have hne : sp ≠ t := by
      rintro rfl
      have hnd := h.order_nodup
      rw [Layout.order, hback] at hnd
      exact (nodup_cons.mp (nodup_append.mp hnd).2.1).1 hsp
    have hold : sp ∈ ly.back := by
      rw [hback]
      exact mem_cons_of_mem _ hsp
    have hfree : (ly.cut g s t post).free sp = ly.free sp := update_of_ne hne _ _
    rw [hfree]
    exact h.back sp hold
  case hheld => exact h.held
  case hnodup => exact h.held_nodup
  case htable => exact fun h' => by simp [hhash] at h'

/-- A linked slab after its list was cut off: the list it has now holds different buffers that nobody
holds, the reference count counts those in use, and the last one to come back makes it idle. -/
structure CutSlab (g : Geom) (t : Word) (s : State) : Prop where
  chain : ∃ free, Chain (s.freeLink g) (ptr (s.slabs t).slabHead) free ∧
    (free.map (s.addrOf g)).Nodup ∧
    ∀ bcp ∈ free, s.addrOf g bcp ∈ g.chunkStarts (s.slabs t) ∧ s.addrOf g bcp ∉ s.held
  refcnt : (s.slabs t).slabRefcnt = (s.held.filter (· ∈ g.chunkStarts (s.slabs t))).length
  last : ∀ buf ∈ s.held, buf ∈ g.chunkStarts (s.slabs t) → (s.slabs t).slabRefcnt = 1 →
    ((umemSlabFree g s buf true).slabs t).slabState = .dirty ∧
      t ∈ (umemSlabFree g s buf false).dying

/-- An unlinked slab: it is on the list no more, nobody holds a buffer of it, and its bufctls go back
with it. -/
structure DyingSlab (g : Geom) (t : Word) (s : State) : Prop where
  unlinked : ∃ order, s.links.Cycle g.nullslab order ∧ t ∉ order
  notHeld : ∀ buf ∈ s.held, buf ∉ g.chunkStarts (s.slabs t)
  destroy : ∃ s', umemSlabDestroy g s t = some s' ∧ t ∉ s'.live ∧
    ∀ b ∈ s'.bufctls, s'.slabOf g b ≠ t

structure Contained (g : Geom) (t : Word) (s : State) : Prop where
  others : ∀ sp ∈ s.live, sp ≠ t → ∃ free, SlabConserved g s sp free
  buftotal : ∃ order, s.links.Cycle g.nullslab order ∧ order ⊆ s.live ∧
    s.buftotal = (order.map fun sp => (s.slabs sp).slabChunks).sum
  linked : t ∈ s.live → t ∉ s.dying → CutSlab g t s
  dying : t ∈ s.dying → DyingSlab g t s
  /-- what an allocation returns is not in use -/
  alloc : ∀ buf, (umemSlabAlloc g s).2 = some buf → buf ∉ s.held
  link : ∀ sp s' buf, linkNewSlab g s sp = some (s', some buf) → buf ∉ s.held
  foreign : ∀ buf reclaimEnabled, HeaderOk g s buf → ¬ IsChunk g s buf →
    umemSlabFree g s buf reclaimEnabled = s
  /-- the `ASSERT`s hold for the buffers of the other slabs -/
  free : ∀ ndebug, ∀ buf ∈ s.held, ndebug = true ∨ buf ∉ g.chunkStarts (s.slabs t) →
    ∀ reclaimEnabled, ∃ s', umemSlabFreeIn g ndebug s buf reclaimEnabled = some s' ∧
      s'.held = s.held.erase buf

/-- A slab that is not destroyed yet. When no buffer of it is in use, it is unlinked or idle, and then
the passes of `umem_cache_reclaim_pages` reclaim its pages and unlink it after their delays. -/
structure Awaited (g : Geom) (t : Word) (s : State) : Prop where
  live : t ∈ s.live
  idle : (s.slabs t).slabRefcnt = 0 → t ∈ s.dying ∨ (s.slabs t).slabState ≠ .active
  reclaimed : t ∉ s.dying → (s.slabs t).slabRefcnt = 0 → (s.slabs t).slabState = .dirty →
    ∀ reapInterval reclaimDelay s', startReclaim g reapInterval reclaimDelay s = some s' →
    reclaimDelay ≤ (s.slabs t).slabIdleTime + reapInterval →
    (s'.slabs t).slabState = .reclaiming ∧ ∃ list, s'.reclaimList = some list ∧ t ∈ list
  unlinked : t ∉ s.dying → (s.slabs t).slabRefcnt = 0 → (s.slabs t).slabState = .clean →
    ∀ reapInterval reclaimDelay s', startReclaim g reapInterval reclaimDelay s = some s' →
    reclaimDelay * 2 ≤ (s.slabs t).slabIdleTime + reapInterval → t ∈ s'.dying

theorem umemSlabFree_chunk (hhash : g.hash = false)
    (hcache : (s.slabs (g.umemSlab buf)).slabCache = g.cp)
    (hchunk : g.slabChunk (s.slabs (g.umemSlab buf)) buf = true) (enabled : Bool) :
    umemSlabFree g s buf enabled =
      putBuffer g s buf (buf+g.bufctl) (g.umemSlab buf) enabled := by
  unfold umemSlabFree findBufctl
  rw [if_neg (by simp [hhash])]
  exact if_neg (by simp [hcache, hchunk])

theorem Inv.free_embedded (h : Inv g s ly) (hhash : g.hash = false) (hbuf : buf ∈ s.held) :
    (s.slabs (g.umemSlab buf)).slabCache = g.cp ∧
      g.slabChunk (s.slabs (g.umemSlab buf)) buf = true := by
  obtain ⟨hlive, hused, haddr⟩ := h.held_embedded hhash hbuf
  have hok := h.slab _ hlive
  have hmem := hok.addr_mem (mem_append_right _ hused)
  rw [haddr] at hmem
  exact ⟨hok.cache, (Geom.slabChunk_iff hok.span).mpr hmem⟩

theorem Inv.free_eq (h : Inv g s ly) (hhash : g.hash = false) (hbuf : buf ∈ s.held)
    (enabled : Bool) :
    umemSlabFree g s buf enabled =
      putBuffer g s buf (buf+g.bufctl) (g.umemSlab buf) enabled := by
  obtain ⟨hcache, hchunk⟩ := h.free_embedded hhash hbuf
  exact umemSlabFree_chunk hhash hcache hchunk enabled

/-- The slab of a buffer in use counts all of its chunks when none of them is free, and then it is not
the first one of the free list. -/
theorem Inv.putAsserts_embedded (h : Inv g s ly) (hhash : g.hash = false) (hbuf : buf ∈ s.held)
    (hlost : ly.lost (g.umemSlab buf) = []) : putAsserts s (g.umemSlab buf) = true := by
  obtain ⟨hlive, hused, -⟩ := h.held_embedded hhash hbuf
  have hok := h.slab _ hlive
  have hrefcnt := hok.refcnt
  have hpos := length_pos_of_mem hused
  have hsum := hok.length_add
  simp only [putAsserts, Bool.and_eq_true, Bool.or_eq_true, decide_eq_true_eq]
  refine ⟨?_, by omega⟩
  by_cases hhead : (s.slabs (g.umemSlab buf)).slabHead = 0
  · have hnil := hok.head_eq_zero_iff.mp hhead
    rw [hnil, hlost, length_nil] at hsum
    refine .inr ⟨by omega, fun hfirst => ?_⟩
    rw [h.freelist] at hfirst
    cases hback : ly.back with
    | nil =>
      rw [hback] at hfirst
      exact h.null_notMem ((show g.nullslab = _ from hfirst) ▸ hlive)
    | cons sp post =>
      rw [hback] at hfirst
      exact h.back sp (by simp [hback]) ((show sp = _ from hfirst) ▸ hnil)
  · exact .inl hhead

theorem freeAsserts_chunk (hhash : g.hash = false)
    (hcache : (s.slabs (g.umemSlab buf)).slabCache = g.cp)
    (hchunk : g.slabChunk (s.slabs (g.umemSlab buf)) buf = true) :
    freeAsserts g s buf = putAsserts s (g.umemSlab buf) := by
  simp [freeAsserts, findBufctl, hhash, hcache, hchunk]

theorem putBuffer_held (g : Geom) (s : State) (buf bcp sp : Word) (enabled : Bool) :
    (putBuffer g s buf bcp sp enabled).held = s.held.erase buf := by
  unfold putBuffer
  dsimp only
  split
  · split <;> rfl
  · rfl

theorem putBuffer_last (hcount : (s.slabs sp).slabRefcnt = 1) :
    ((putBuffer g s buf bcp sp true).slabs sp).slabState = .dirty ∧
      sp ∈ (putBuffer g s buf bcp sp false).dying := by
  have hzero : ((pushBuffer g s buf bcp sp).slabs sp).slabRefcnt = 0 := by
    simp only [pushBuffer, update_self, hcount, sub_self]
  simp only [putBuffer, hzero, if_true, Bool.false_eq_true, if_false]
  refine ⟨?_, mem_cons_self⟩
  rw [markDirty, State.setSlab_self]

theorem SlabOk.umemSlab_eq {free used lost : List Word} (h : SlabOk g s sp free used lost)
    (hhash : g.hash = false) (hbuf : buf ∈ g.chunkStarts (s.slabs sp)) : g.umemSlab buf = sp := by
  rw [h.span.umemSlab_chunk hhash hbuf]
  exact h.header hhash

theorem Inv.held_filter (h : Inv g s ly) (hsp : sp ∈ s.live) :
    (s.held.filter (· ∈ g.chunkStarts (s.slabs sp))).Perm ((ly.used sp).map (s.addrOf g)) := by
  have hok := h.slab sp hsp
  have hnd := hok.addr_nodup
  rw [map_append] at hnd
  apply (perm_ext_iff_of_nodup (h.held_nodup.filter _) (nodup_append.mp hnd).2.1).mpr
  intro buf
  rw [mem_filter, decide_eq_true_eq, h.held, List.mem_map]
  constructor
  · rintro ⟨⟨sp', hsp', b, hb, rfl⟩, hchunk⟩
    obtain rfl := h.chunk_unique hsp hsp' hchunk ((h.slab sp' hsp').addr_mem (mem_append_right _ hb))
    exact ⟨b, hb, rfl⟩
  · rintro ⟨b, hb, rfl⟩
    exact ⟨⟨sp, hsp, b, hb, rfl⟩, hok.addr_mem (mem_append_right _ hb)⟩

section
variable (h : Inv g s ly) (hhash : g.hash = false)
include h hhash

theorem Inv.cutSlab (ht : t ∈ s.live) : CutSlab g t s where
  chain := ⟨ly.free t, (h.slab t ht).chain, (h.slab t ht).free_nodup, fun _ hb =>
    ⟨(h.slab t ht).addr_mem (mem_append_left _ hb), h.free_notHeld ht hb⟩⟩
  refcnt := by rw [(h.held_filter ht).length_eq, length_map, (h.slab t ht).refcnt]
  last buf hbuf hchunk hone := by
    rw [h.free_eq hhash hbuf, h.free_eq hhash hbuf, (h.slab t ht).umemSlab_eq hhash hchunk]
    exact putBuffer_last hone

theorem Inv.dyingSlab (ht : t ∈ s.dying) : DyingSlab g t s where
  unlinked := ⟨ly.order, h.cycle, fun hmem => h.notMem_private hmem (mem_append_right _ ht)⟩
  notHeld buf hbuf hchunk := by
    have hprivate : t ∈ s.built ++ s.dying := mem_append_right _ ht
    obtain ⟨-, hused, -⟩ := h.held_embedded hhash hbuf
    rw [(h.slab t (h.mem_live_of_private hprivate)).umemSlab_eq hhash hchunk,
      h.unused t hprivate] at hused
    simp at hused
  destroy := by
    have hdestroy : umemSlabDestroy g s t = some _ := if_pos ht
    have hinv := umemSlabDestroy_inv h hdestroy
    have hgone : t ∉ s.live.erase t := h.live_nodup.not_mem_erase
    refine ⟨_, hdestroy, hgone, ?_⟩
    intro b hb
    obtain ⟨sp, hsp, hmem⟩ := (hinv.bufctls b).mp hb
    rw [Owns, if_neg (by simp [hhash])] at hmem
    rw [State.slabOf, if_neg (by simp [hhash]), (hinv.slab sp hsp).umemSlab_eq hhash hmem]
    rintro rfl
    exact hgone hsp

theorem Inv.contained (hothers : ∀ sp ≠ t, ly.lost sp = []) : Contained g t s where
  others sp hsp hne := ⟨_, h.slabConserved hsp (hothers sp hne)⟩
  buftotal := ⟨ly.order, h.cycle, fun _ hsp => h.mem_live_of_order hsp, h.total⟩
  linked ht _ := h.cutSlab hhash ht
  dying ht := h.dyingSlab hhash ht
  alloc _ hbuf := h.alloc_notHeld hbuf
  link _ _ _ hlink := h.link_notHeld hlink
  foreign _ enabled hheader hchunk := umemSlabFree_foreign h hheader hchunk enabled
  free ndebug buf hbuf hbuild enabled := by
    have hruns : (ndebug || freeAsserts g s buf) = true := by
      rcases hbuild with rfl | hother
      · rfl
      · obtain ⟨hlive, hused, haddr⟩ := h.held_embedded hhash hbuf
        have hne : g.umemSlab buf ≠ t := by
          intro heq
          have hmem := (h.slab _ hlive).addr_mem (mem_append_right _ hused)
          rw [haddr, heq] at hmem
          exact hother hmem
        obtain ⟨hcache, hchunk⟩ := h.free_embedded hhash hbuf
        rw [freeAsserts_chunk hhash hcache hchunk,
          h.putAsserts_embedded hhash hbuf (hothers _ hne), Bool.or_true]
    exact ⟨_, if_pos hruns, by rw [h.free_eq hhash hbuf, putBuffer_held]⟩

end

section
variable {interval delay : BitVec 32}

theorem reclaimTurn_dying {r : State × List Word} (h : t ∈ r.1.dying) :
    t ∈ (reclaimTurn interval delay sp r).1.dying := by
  unfold reclaimTurn
  dsimp only
  split
  · exact h
  · split
    · split <;> exact h
    · split
      · exact mem_cons_of_mem sp h
      · exact h
    · exact h

theorem reclaimTurn_slabs_of_ne (r : State × List Word) (hne : t ≠ sp) :
    ((reclaimTurn interval delay sp r).1.slabs t) = r.1.slabs t := by
  unfold reclaimTurn
  dsimp only
  split
  · rfl
  · split
    · split <;> exact update_of_ne hne _ _
    · split
      · exact update_of_ne hne _ _
      · exact update_of_ne hne _ _
    · rfl

theorem reclaimTurn_subset (r : State × List Word) : r.2 ⊆ (reclaimTurn interval delay sp r).2 := by
  unfold reclaimTurn
  dsimp only
  split
  · exact Subset.refl _
  · split
    · split
      · exact subset_cons_self _ _
      · exact Subset.refl _
    · split <;> exact Subset.refl _
    · exact Subset.refl _

theorem reclaimTurns_of_notMem {l : List Word} (r : State × List Word) (ht : t ∉ l) :
    (l.foldr (reclaimTurn interval delay) r).1.slabs t = r.1.slabs t ∧
      (t ∈ r.1.dying → t ∈ (l.foldr (reclaimTurn interval delay) r).1.dying) ∧
      r.2 ⊆ (l.foldr (reclaimTurn interval delay) r).2 := by
  induction l with
  | nil => exact ⟨rfl, id, Subset.refl _⟩
  | cons sp l ih =>
    obtain ⟨hne, hnot⟩ := not_or.mp (fun h => ht (mem_cons.mpr h))
    obtain ⟨hslab, hdying, hlist⟩ := ih hnot
    rw [foldr_cons]
    refine ⟨?_, ?_, ?_⟩
    · rw [reclaimTurn_slabs_of_ne _ hne, hslab]
    · exact fun h => reclaimTurn_dying (hdying h)
    · exact fun sp' hmem => reclaimTurn_subset _ (hlist hmem)

section
variable {order : List Word} (h : s.links.Cycle g.nullslab order) (hlen : order.length ≤ s.buftotal)
  (ht : t ∈ order)
include h hlen ht

theorem startReclaim_turn (heq : startReclaim g interval delay s = some s') :
    ∃ r : State × List Word, r.1.slabs t = s.slabs t ∧
      s'.slabs t = (reclaimTurn interval delay t r).1.slabs t ∧
      (t ∈ (reclaimTurn interval delay t r).1.dying → t ∈ s'.dying) ∧
      ∃ list, s'.reclaimList = some list ∧ (reclaimTurn interval delay t r).2 ⊆ list := by
  obtain ⟨-, rfl⟩ := startReclaim_eq h hlen heq
  obtain ⟨pre, post, rfl⟩ := append_of_mem ht
  have hnot : t ∉ pre ++ post :=
    (nodup_cons.mp (nodup_middle.mp (nodup_cons.mp h.nodup).2)).1
  obtain ⟨hpre, hpost⟩ := not_or.mp (fun hmem => hnot (mem_append.mpr hmem))
  rw [foldr_append, foldr_cons]
  obtain ⟨hslab, hdying, hlist⟩ := reclaimTurns_of_notMem
    (reclaimTurn interval delay t
      (post.foldr (reclaimTurn interval delay) (s, []))) hpre
  exact ⟨_, (reclaimTurns_of_notMem (s, []) hpost).1, hslab, hdying, _, rfl, hlist⟩

theorem startReclaim_dirty (hzero : (s.slabs t).slabRefcnt = 0)
    (hstate : (s.slabs t).slabState = .dirty) (heq : startReclaim g interval delay s = some s')
    (hdelay : delay ≤ (s.slabs t).slabIdleTime+interval) :
    (s'.slabs t).slabState = .reclaiming ∧ ∃ list, s'.reclaimList = some list ∧ t ∈ list := by
  obtain ⟨r, hslab, hslab', -, list, hlist, hsub⟩ := startReclaim_turn h hlen ht heq
  have hturn : reclaimTurn interval delay t r = (r.1.setSlab t fun sl => { sl with
      slabIdleTime := (s.slabs t).slabIdleTime+interval, slabState := .reclaiming },
      t :: r.2) := by
    unfold reclaimTurn
    dsimp only
    rw [hslab, if_neg (by simp [hzero]), hstate]
    exact if_pos hdelay
  rw [hturn] at hslab' hsub
  refine ⟨?_, list, hlist, hsub mem_cons_self⟩
  rw [hslab', State.setSlab_self]

theorem startReclaim_clean (hzero : (s.slabs t).slabRefcnt = 0)
    (hstate : (s.slabs t).slabState = .clean) (heq : startReclaim g interval delay s = some s')
    (hdelay : delay * 2 ≤ (s.slabs t).slabIdleTime+interval) : t ∈ s'.dying := by
  obtain ⟨r, hslab, -, hdying, -⟩ := startReclaim_turn h hlen ht heq
  apply hdying
  unfold reclaimTurn
  dsimp only
  rw [hslab, if_neg (by simp [hzero]), hstate]
  dsimp only
  rw [if_pos hdelay]
  exact mem_cons_self

end
end

/-- The slab is not destroyed yet, and it is unlinked or idle when no buffer of it is in use. -/
structure Waits (s : State) (t : Word) : Prop where
  live : t ∈ s.live
  linked : t ∉ s.built
  idle : (s.slabs t).slabRefcnt = 0 → t ∈ s.dying ∨ (s.slabs t).slabState ≠ .active

namespace Waits

theorem awaited (hw : Waits s t) (h : Inv g s ly) : Awaited g t s := by
  have horder : t ∉ s.dying → t ∈ ly.order := by
    intro hnot
    rcases mem_append.mp (h.live_perm.mem_iff.mp hw.live) with hmem | hmem
    · exact hmem
    · exact absurd hmem (mem_append.not.mpr (not_or.mpr ⟨hw.linked, hnot⟩))
  exact
    { live := hw.live
      idle := hw.idle
      reclaimed := fun hnot hzero hstate _ _ _ heq hdelay =>
        startReclaim_dirty h.cycle h.length_order_le (horder hnot) hzero hstate heq hdelay
      unlinked := fun hnot hzero hstate _ _ _ heq hdelay =>
        startReclaim_clean h.cycle h.length_order_le (horder hnot) hzero hstate heq hdelay }

section
variable (hw : Waits s t)
include hw

theorem of_frame (hslab : s'.slabs t = s.slabs t) (hlive : t ∈ s.live → t ∈ s'.live)
    (hbuilt : t ∈ s'.built → t ∈ s.built) (hdying : t ∈ s.dying → t ∈ s'.dying) : Waits s' t where
  live := hlive hw.live
  linked hin := hw.linked (hbuilt hin)
  idle hzero := by
    rw [hslab] at hzero ⊢
    exact (hw.idle hzero).imp_left hdying

theorem setSlab (sp : Word) {f : UmemSlab → UmemSlab} (hf : (f (s.slabs sp)).slabState ≠ .active) :
    Waits (s.setSlab sp f) t := by
  by_cases hne : t = sp
  · subst hne
    refine ⟨hw.live, hw.linked, fun _ => .inr ?_⟩
    rwa [State.setSlab_self]
  · exact hw.of_frame (State.setSlab_of_ne _ _ hne) id id id

theorem takeBuffer (h : Inv g s ly) (hsp : sp ∈ ly.back) : Waits (takeBuffer g s sp).1 t := by
  obtain ⟨b, rest, hfree⟩ := exists_cons_of_ne_nil (h.back sp hsp)
  have hok := h.slab sp (h.mem_live_of_back hsp)
  have hrefcnt := hok.refcnt
  rw [hfree] at hok
  rw [takeBuffer_eq hok]
  by_cases hne : t = sp
  · subst hne
    refine ⟨hw.live, hw.linked, fun hzero => ?_⟩
    change (update s.slabs t (takenSlab g s t) t).slabRefcnt = 0 at hzero
    rw [update_self] at hzero
    change (s.slabs t).slabRefcnt+1 = 0 at hzero
    omega
  · exact hw.of_frame (update_of_ne hne _ _) id id id

theorem umemSlabAlloc (h : Inv g s ly) : Waits (umemSlabAlloc g s).1 t := by
  rcases umemSlabAlloc_cases h with ⟨-, heq⟩ | ⟨mid, sp, post, hback, -, -, heq, -⟩
  · rw [heq]
    exact hw.of_frame rfl id id id
  · rw [heq]
    exact hw.takeBuffer h (by simp [hback])

theorem putBuffer (bcp sp : Word) (enabled : Bool) :
    Waits (putBuffer g s buf bcp sp enabled) t := by
  unfold Slab.putBuffer
  dsimp only
  by_cases hne : t = sp
  · subst hne
    split
    · split
      · refine ⟨hw.live, hw.linked, fun _ => .inr ?_⟩
        rw [markDirty, State.setSlab_self]
        simp
      · exact ⟨hw.live, hw.linked, fun _ => .inl mem_cons_self⟩
    · rename_i hcount
      exact ⟨hw.live, hw.linked, fun hzero => absurd hzero hcount⟩
  · have hpush : Waits (pushBuffer g s buf bcp sp) t := hw.of_frame (update_of_ne hne _ _) id id id
    split
    · split
      · exact hpush.setSlab sp (by simp)
      · exact hpush.of_frame rfl id id (mem_cons_of_mem _)
    · exact hpush

theorem umemSlabFree (hhash : g.hash = false) (enabled : Bool) :
    Waits (umemSlabFree g s buf enabled) t := by
  unfold Slab.umemSlabFree findBufctl
  rw [if_neg (by simp [hhash])]
  dsimp only
  split
  · exact hw
  · exact hw.putBuffer _ _ enabled

end

theorem reclaimTurn {r : State × List Word} (hw : Waits r.1 t) (interval delay : BitVec 32)
    (sp : Word) : Waits (reclaimTurn interval delay sp r).1 t := by
  unfold Slab.reclaimTurn
  dsimp only
  split
  · exact hw
  · split
    · rename_i hdirty
      split
      · dsimp only
        exact hw.setSlab sp (by simp)
      · dsimp only
        exact hw.setSlab sp (by simp [hdirty])
    · rename_i hclean
      have hidle : Waits (r.1.setSlab sp fun sl =>
          { sl with slabIdleTime := (r.1.slabs sp).slabIdleTime+interval }) t :=
        hw.setSlab sp (by simp [hclean])
      split
      · exact hidle.of_frame rfl id id (mem_cons_of_mem _)
      · exact hidle
    · exact hw

theorem reclaimWalk {r : State × List Word} (hw : Waits r.1 t) (interval delay : BitVec 32) (n : Nat)
    (sp : Word) : Waits (reclaimWalk g interval delay n sp r).1 t := by
  induction n generalizing sp r with
  | zero => exact hw
  | succ n ih =>
    unfold Slab.reclaimWalk
    split
    · exact hw
    · exact ih (hw.reclaimTurn interval delay sp) _

theorem step (hw : Waits s t) (h : Inv g s ly) (hhash : g.hash = false) {e : Event}
    (hne : e ≠ .destroy t) (hstep : step g s e = some s') : Waits s' t := by
  cases e with
  | alloc =>
    cases hstep
    exact hw.umemSlabAlloc h
  | color =>
    obtain ⟨-, hstep⟩ := ite_none_left_eq_some.mp hstep
    cases hstep
    exact hw.of_frame rfl id id id
  | create color slab header bufctls =>
    have hnew := (umemSlabCreate_inv h hstep).1
    have hother : t ≠ newSlab g slab header := fun heq => hnew (heq ▸ hw.live)
    obtain ⟨⟨head, hslabs⟩, hlive, hbuilt, hdying, -⟩ := umemSlabCreate_frame hstep
    refine hw.of_frame ?_ ?_ ?_ ?_
    · rw [hslabs, update_of_ne hother]
    · rw [hlive]
      exact mem_cons_of_mem _
    · rw [hbuilt, mem_cons]
      exact fun hin => hin.resolve_left hother
    · rw [hdying]
      exact id
  | createFail color =>
    obtain ⟨-, hstep⟩ := ite_none_right_eq_some.mp hstep
    cases hstep
    exact hw.of_frame rfl id id id
  | link sp =>
    obtain ⟨r, hlink, rfl⟩ := map_eq_some_iff.mp hstep
    obtain ⟨hbuilt, hlink⟩ := ite_none_right_eq_some.mp hlink
    cases hlink
    have hlinked : Waits (State.linkSlab { s with
        built := s.built.erase sp
        buftotal := s.buftotal+(s.slabs sp).slabChunks } sp) t :=
      hw.of_frame rfl id mem_of_mem_erase id
    exact hlinked.takeBuffer (h.link hbuilt) mem_cons_self
  | free buf enabled =>
    cases hstep
    exact hw.umemSlabFree hhash enabled
  | destroy sp =>
    obtain ⟨-, hstep⟩ := ite_none_right_eq_some.mp hstep
    cases hstep
    have hother : t ≠ sp := fun heq => hne (heq ▸ rfl)
    exact hw.of_frame rfl (mem_erase_of_ne hother).mpr id (mem_erase_of_ne hother).mpr
  | startReclaim interval delay =>
    obtain ⟨-, hstep⟩ := ite_none_right_eq_some.mp hstep
    cases hstep
    exact (hw.reclaimWalk interval delay _ _).of_frame rfl id id id
  | finishReclaim =>
    obtain ⟨list, -, rfl⟩ := map_eq_some_iff.mp hstep
    have hfold : Waits
        (list.foldl (fun s sp => s.setSlab sp fun sl => { sl with slabState := .clean }) s) t := by
      clear hstep h
      induction list generalizing s with
      | nil => exact hw
      | cons sp list ih => exact ih (hw.setSlab sp (by simp))
    exact hfold.of_frame rfl id id id
  | write buf val =>
    obtain ⟨-, hstep⟩ := ite_none_right_eq_some.mp hstep
    cases hstep
    exact hw.of_frame rfl id id id

theorem runs {events : List Event} (hw : Waits s t) (h : Inv g s ly) (hhash : g.hash = false)
    (hrun : Runs (LegitStep g) s events s') (hnot : .destroy t ∉ events) : Awaited g t s' := by
  induction events generalizing s ly with
  | nil =>
    obtain rfl := hrun
    exact hw.awaited h
  | cons e events ih =>
    obtain ⟨m, ⟨hlegit, hstep⟩, hrest⟩ := hrun
    obtain ⟨hne, hnot⟩ := not_or.mp (mem_cons.not.mp hnot)
    obtain ⟨ly', h', -⟩ := h.step hlegit hstep
    exact ih (hw.step h hhash (Ne.symm hne) hstep) h' hrest hnot

end Waits

/-- A run that begins when only the slab `t` has lost chunks. -/
theorem Inv.runs_contained {events : List Event} (h : Inv g s ly) (hhash : g.hash = false)
    (hothers : ∀ sp ≠ t, ly.lost sp = []) (hrun : Runs (LegitStep g) s events s') :
    Contained g t s' := by
  have hinv : ∃ ly', Inv g s' ly' ∧ ∀ sp ≠ t, ly'.lost sp = [] := by
    apply Runs.invariant _ hrun ⟨ly, h, hothers⟩
    rintro s e s' ⟨ly, h, hothers⟩ ⟨hlegit, hstep⟩
    obtain ⟨ly', h', -, hlost⟩ := h.step hlegit hstep
    exact ⟨ly', h', fun sp hne => hlost sp (hothers sp hne)⟩
  obtain ⟨ly', h', hothers'⟩ := hinv
  exact h'.contained hhash hothers'

/-- An allocation meets a corrupted link of the slab `t`, after a run of the cache. -/
structure Meeting (g : Geom) (memory : State) (events : List Event) (s s₁ : State) (t : Word) :
    Prop where
  run : Runs (LegitStep g) (initial g memory) events s
  corrupted : Corrupted g s s₁ t
  meets : allocSlab g s₁ = some t

/-- What the allocation does: it fails, and cuts off the list. The other slabs stay as they are, and
those on the free list stay there. -/
structure CutsOff (g : Geom) (s : State) (t : Word) : Prop where
  fails : (umemSlabAlloc g s).2 = none
  head : ((umemSlabAlloc g s).1.slabs t).slabHead = 0
  refcnt : ((umemSlabAlloc g s).1.slabs t).slabRefcnt = (s.slabs t).slabRefcnt
  others : ∀ sp ≠ t, (umemSlabAlloc g s).1.slabs sp = s.slabs sp
  links : (umemSlabAlloc g s).1.links = s.links
  freelist : ∀ front back, s.links.Cycle g.nullslab (front ++ back) →
    s.freelist = back.headD g.nullslab →
    (umemSlabAlloc g s).1.freelist = (back.erase t).headD g.nullslab
  held : (umemSlabAlloc g s).1.held = s.held

theorem cutsOff_of_allocSlab (h : allocSlab g s = some t) (hfront : s.freelist = t)
    (hnull : t ≠ g.nullslab)
    (hinvalid : g.umemSlabLinkValid (s.slabs t) (headLink g s t) = false) : CutsOff g s t := by
  have heq := (umemSlabAlloc_of_allocSlab h).trans (takeBuffer_invalid hinvalid)
  have hself : (umemSlabAlloc g s).1.slabs t = { reactivate (s.slabs t) with slabHead := 0 } := by
    rw [heq]
    exact update_self _ _ _
  refine
    { fails := by rw [heq]
      head := by rw [hself]
      refcnt := by rw [hself]; rfl
      others := fun sp hne => by rw [heq]; exact update_of_ne hne _ _
      links := by rw [heq]; rfl
      freelist := ?_
      held := by rw [heq]; rfl }
  intro front back hcycle hfirst
  rw [hfront] at hfirst
  cases back with
  | nil => exact absurd hfirst hnull
  | cons sp post =>
    obtain rfl : t = sp := hfirst
    rw [heq, erase_cons_head]
    change s.nextOf t = _
    rw [State.nextOf, hcycle.next_eq, Option.getD_some]

/-- The slab has more chunks than buffers in use, and a build without `NDEBUG` finds that wrong when
the first of them comes back. -/
theorem Inv.cut_aborts (h : Inv g s ly) (hhash : g.hash = false) (hcorrupt : Corrupted g s s₁ t)
    (hcut : umemSlabAlloc g s₁ = takeBuffer g s₁ t) (hbuf : buf ∈ s.held)
    (hhome : g.umemSlab buf = t)
    (enabled : Bool) : umemSlabFreeIn g false (umemSlabAlloc g s₁).1 buf enabled = none := by
  obtain ⟨hlive, -, -⟩ := h.held_embedded hhash hbuf
  obtain ⟨hcache, hchunk⟩ := h.free_embedded hhash hbuf
  rw [hhome] at hlive hcache hchunk
  have hok := h.slab t hlive
  have hself : (umemSlabAlloc g s₁).1.slabs t = { reactivate (s.slabs t) with slabHead := 0 } := by
    rw [hcut, takeBuffer_invalid hcorrupt.link_invalid, ← hcorrupt.slabs_eq]
    exact update_self _ _ _
  have hless : (s.slabs t).slabRefcnt ≠ (s.slabs t).slabChunks := by
    have hfree : ly.free t ≠ [] := fun hnil => hcorrupt.head (hok.head_eq_zero_iff.mpr hnil)
    have hpos := length_pos_iff.mpr hfree
    have hsum := hok.length_add
    rw [hok.refcnt]
    omega
  have hasserts : freeAsserts g (umemSlabAlloc g s₁).1 buf = false := by
    rw [freeAsserts_chunk hhash (by rw [hhome, hself]; exact hcache)
      (by rw [hhome, hself]; exact hchunk), putAsserts, hhome, hself]
    simp [reactivate, hless]
  rw [umemSlabFreeIn, hasserts]
  rfl

/-- A cache without a hash table, in which the first slab of the free list has a buffer in use, copes
with a corrupted link of that slab in a build with `NDEBUG`. Another build aborts when a buffer of the
slab comes back. -/
theorem corrupted_link_contained (g : Geom) (memory : State) {events events' : List Event}
    {s s₁ s' : State} {t : Word} (hmeeting : Meeting g memory events s s₁ t)
    (hhash : g.hash = false) (hfront : (s.slabs s.freelist).slabState ≠ .reclaiming)
    (hused : 0 < (s.slabs t).slabRefcnt)
    (hrun' : Runs (LegitStep g) (umemSlabAlloc g s₁).1 events' s') :
    CutsOff g s₁ t ∧ Contained g t s' ∧ (.destroy t ∉ events' → Awaited g t s') ∧
    ∀ buf ∈ s.held, g.umemSlab buf = t → ∀ reclaimEnabled,
      umemSlabFreeIn g false (umemSlabAlloc g s₁).1 buf reclaimEnabled = none := by
  obtain ⟨hrun, hcorrupt, hmeets⟩ := hmeeting
  obtain ⟨ly, h, hwhole⟩ := exists_inv hrun
  obtain ⟨next, free, hmemory, -, -⟩ := hcorrupt.memory
  have hfreelist₁ : s₁.freelist = s.freelist := by rw [hmemory]
  have hfreelist : s.freelist = t := by
    rw [← hfreelist₁]
    apply freelist_of_allocSlab hmeets
    rw [hcorrupt.slabs_eq, hfreelist₁]
    exact hfront
  have hnull : t ≠ g.nullslab := by
    rintro rfl
    exact hcorrupt.head h.null_head
  have hcut := cutsOff_of_allocSlab hmeets (hfreelist₁.trans hfreelist) hnull hcorrupt.link_invalid
  obtain ⟨post, h'⟩ := h.cut hhash hcorrupt hfreelist
  rw [← umemSlabAlloc_of_allocSlab hmeets] at h'
  have hothers : ∀ sp ≠ t, (ly.cut g s t post).lost sp = [] := fun sp hne =>
    (update_of_ne hne _ _).trans (hwhole sp)
  -- the slab is linked, and a buffer of it is in use
  have horder : t ∈ (ly.cut g s t post).order := by simp [Layout.order, Layout.cut]
  have hwaits : Waits (umemSlabAlloc g s₁).1 t := by
    refine ⟨h'.mem_live_of_order horder, ?_, ?_⟩
    · exact fun hin => h'.notMem_private horder (mem_append_left _ hin)
    · intro hzero
      rw [hcut.refcnt, hcorrupt.slabs_eq] at hzero
      exact absurd hzero hused.ne'
  refine ⟨hcut, h'.runs_contained hhash hothers hrun', hwaits.runs h' hhash hrun', ?_⟩
  intro buf hbuf hhome enabled
  exact h.cut_aborts hhash hcorrupt (umemSlabAlloc_of_allocSlab hmeets) hbuf hhome enabled

/-- Something writes over the link at `b`. -/
def State.overwrite (s : State) (b w : Word) : State :=
  { s with bcNext := update s.bcNext b w }

theorem corrupted_overwrite {b w : Word} {rest : List Word}
    (hchain : Chain (s.freeLink g) (ptr (s.slabs t).slabHead) (b :: rest))
    (hinvalid : g.umemSlabLinkValid (s.slabs t) (headLink g (s.overwrite b w) t) = false) :
    Corrupted g s (s.overwrite b w) t where
  head h0 := by
    have hfirst := hchain.1
    rw [h0, ptr_zero] at hfirst
    simp at hfirst
  memory := by
    refine ⟨_, b :: rest, rfl, hchain, ?_⟩
    intro b' hb'
    apply update_of_ne
    rintro rfl
    exact hb' mem_cons_self
  invalid := hinvalid

theorem exists_meeting (g : Geom) (events : List Event) (t b w : Word) (rest : List Word)
    (P : State → Prop) [DecidablePred P]
    (h : (replay (fun s e => Event.Legit g s e) (step g) (initial g zeroMemory) events).map (fun s =>
      decide (Lib.Chain (s.freeLink g) (ptr (s.slabs t).slabHead) (b :: rest) ∧
        g.umemSlabLinkValid (s.slabs t) (headLink g (s.overwrite b w) t) = false ∧
        allocSlab g (s.overwrite b w) = some t ∧ P s)) = some true) :
    ∃ s, Meeting g zeroMemory events s (s.overwrite b w) t ∧ P s := by
  obtain ⟨s, hrun, hview⟩ := exists_runs _ _ _ _ h
  obtain ⟨hchain, hinvalid, hmeets, hs⟩ := of_decide_eq_true hview
  exact ⟨s, ⟨hrun, corrupted_overwrite hchain hinvalid, hmeets⟩, hs⟩

/-- The link of the one free buffer is overwritten. The slab is cut off, and goes away with its buffer
in use. -/
theorem corrupted_link_contained_firstSlab : ∃ s s₁ s',
    Meeting pageCache zeroMemory firstSlab s s₁ 0x10fb8 ∧ (s.slabs 0x10fb8).slabRefcnt = 1 ∧
    Runs (LegitStep pageCache) (umemSlabAlloc pageCache s₁).1
      [.free 0x107d8 false, .destroy 0x10fb8] s' ∧
    CutsOff pageCache s₁ 0x10fb8 ∧ Contained pageCache 0x10fb8 s' ∧ s'.live = [] := by
  obtain ⟨s, hmeeting, hcount, hstate, hafter⟩ :=
    exists_meeting pageCache firstSlab 0x10fb8 0x107d0 1 []
      (fun s => (s.slabs 0x10fb8).slabRefcnt = 1 ∧ (s.slabs s.freelist).slabState = .active ∧
        (replay (fun s e => Event.Legit pageCache s e) (step pageCache)
          (umemSlabAlloc pageCache (s.overwrite 0x107d0 1)).1
          [.free 0x107d8 false, .destroy 0x10fb8]).map State.live = some []) (by decide +kernel)
  obtain ⟨s', hrun, hlive⟩ := exists_runs _ _ _ _ hafter
  obtain ⟨hcut, hcontained, -, -⟩ := corrupted_link_contained pageCache zeroMemory hmeeting rfl
    (by rw [hstate]; decide) (by rw [hcount]; decide) hrun
  exact ⟨s, _, s', hmeeting, hcount, hrun, hcut, hcontained, hlive⟩

theorem exists_meeting_unused : ∃ s s₁,
    Meeting pageCache zeroMemory (firstSlab ++ [.free 0x107d8 true]) s s₁ 0x10fb8 ∧
    ¬ Awaited pageCache 0x10fb8 (umemSlabAlloc pageCache s₁).1 := by
  obtain ⟨s, hmeeting, hcount, hstate, hdying⟩ := exists_meeting pageCache
    (firstSlab ++ [.free 0x107d8 true]) 0x10fb8 0x10fa0 1 [0x107d0] (fun s =>
      ((umemSlabAlloc pageCache (s.overwrite 0x10fa0 1)).1.slabs 0x10fb8).slabRefcnt = 0 ∧
      ((umemSlabAlloc pageCache (s.overwrite 0x10fa0 1)).1.slabs 0x10fb8).slabState = .active ∧
      (umemSlabAlloc pageCache (s.overwrite 0x10fa0 1)).1.dying = []) (by decide +kernel)
  refine ⟨s, _, hmeeting, ?_⟩
  intro h
  rcases h.idle hcount with hin | hidle
  · rw [hdying] at hin
    simp at hin
  · exact hidle hstate

theorem exists_meeting_hashed : ∃ s s₁ s',
    Meeting hashedCache zeroMemory
      [.alloc, .color, .create 8 0x10000 0x4000 [0x5000, 0x5020], .link 0x4000] s s₁ 0x4000 ∧
    Runs (LegitStep hashedCache) (umemSlabAlloc hashedCache s₁).1 [.free 0x107d8 false] s' ∧
    ¬ Contained hashedCache 0x4000 s' := by
  obtain ⟨s, hmeeting, hv⟩ := exists_meeting hashedCache
    [.alloc, .color, .create 8 0x10000 0x4000 [0x5000, 0x5020], .link 0x4000] 0x4000 0x5000 1 []
    (fun s => (replay (fun s e => Event.Legit hashedCache s e) (step hashedCache)
        (umemSlabAlloc hashedCache (s.overwrite 0x5000 1)).1 [.free 0x107d8 false]).map (fun s' =>
      (s'.dying, (umemSlabDestroy hashedCache s' 0x4000).map fun s'' =>
        (s''.bufctls, s''.bcSlab 0x5000))) = some ([0x4000], some ([0x5000], 0x4000)))
    (by decide +kernel)
  obtain ⟨s', hrun, hview⟩ := exists_runs _ _ _ _ hv
  simp only [Prod.mk.injEq] at hview
  obtain ⟨hdying, hdestroy⟩ := hview
  refine ⟨s, _, s', hmeeting, hrun, ?_⟩
  intro h
  obtain ⟨s'', heq, -, hgone⟩ := (h.dying (by simp [hdying])).destroy
  rw [heq, Option.map_some, Option.some.injEq, Prod.mk.injEq] at hdestroy
  exact hgone 0x5000 (by simp [hdestroy.1]) hdestroy.2

theorem exists_meeting_reclaiming : ∃ s s₁,
    Meeting pageCache zeroMemory (twoSlabs ++ [.startReclaim 10 10]) s s₁ 0x20fb8 ∧
    ¬ CutsOff pageCache s₁ 0x20fb8 := by
  obtain ⟨s, hmeeting, hfirst, hlater⟩ :=
    exists_meeting pageCache (twoSlabs ++ [.startReclaim 10 10]) 0x20fb8 0x207d8 1 []
      (fun s => s.freelist = 0x10fb8 ∧
        (umemSlabAlloc pageCache (s.overwrite 0x207d8 1)).1.freelist = 0x1100) (by decide +kernel)
  obtain ⟨ly, h, -⟩ := exists_inv hmeeting.run
  refine ⟨s, _, hmeeting, ?_⟩
  intro hcut
  have hfreelist := h.freelist
  have hnext := hcut.freelist ly.front ly.back h.cycle hfreelist
  rw [hlater] at hnext
  rw [hfirst] at hfreelist
  cases hback : ly.back with
  | nil =>
    rw [hback] at hfreelist
    exact absurd hfreelist (by decide)
  | cons sp post =>
    rw [hback, headD_cons] at hfreelist
    subst hfreelist
    rw [hback, erase_cons_tail (by decide), headD_cons] at hnext
    exact absurd hnext (by decide)

theorem exists_meeting_aborts : ∃ s s₁,
    Meeting pageCache zeroMemory firstSlab s s₁ 0x10fb8 ∧ 0x107d8 ∈ s.held ∧
    umemSlabFreeIn pageCache false (umemSlabAlloc pageCache s₁).1 0x107d8 true = none := by
  obtain ⟨s, hmeeting, hheld⟩ := exists_meeting pageCache firstSlab 0x10fb8 0x107d0 1 []
    (fun s => 0x107d8 ∈ s.held) (by decide +kernel)
  obtain ⟨ly, h, -⟩ := exists_inv hmeeting.run
  exact ⟨s, _, hmeeting, hheld, h.cut_aborts rfl hmeeting.corrupted
    (umemSlabAlloc_of_allocSlab hmeeting.meets) hheld (by decide +kernel) true⟩

/-- What goes wrong when no buffer of the slab is in use, when the cache has a hash table, when the
slab is not the first one of the free list, and in a build without `NDEBUG`. -/
theorem corrupted_link_not_contained :
    (∃ events s s₁, Meeting pageCache zeroMemory events s s₁ 0x10fb8 ∧
      ¬ Awaited pageCache 0x10fb8 (umemSlabAlloc pageCache s₁).1) ∧
    (∃ events events' s s₁ s', Meeting hashedCache zeroMemory events s s₁ 0x4000 ∧
      Runs (LegitStep hashedCache) (umemSlabAlloc hashedCache s₁).1 events' s' ∧
      ¬ Contained hashedCache 0x4000 s') ∧
    (∃ events s s₁, Meeting pageCache zeroMemory events s s₁ 0x20fb8 ∧
      ¬ CutsOff pageCache s₁ 0x20fb8) ∧
    ∃ events s s₁, Meeting pageCache zeroMemory events s s₁ 0x10fb8 ∧ 0x107d8 ∈ s.held ∧
      umemSlabFreeIn pageCache false (umemSlabAlloc pageCache s₁).1 0x107d8 true = none :=
  ⟨⟨_, exists_meeting_unused⟩, ⟨_, _, exists_meeting_hashed⟩, ⟨_, exists_meeting_reclaiming⟩,
    _, exists_meeting_aborts⟩

end Libumem.Slab
