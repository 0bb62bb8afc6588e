import Libumem.Slab.Alloc
import Libumem.Slab.Create
import Libumem.Slab.Reclaim

/-!
# Conservation of buffers

Every step keeps the layout of the memory, so that in every reached state each chunk of a slab is
either on the list of the slab or in use, and no buffer is handed out twice.

A cache without a hash table cannot tell a buffer in use from one that is on a list: there a buffer
must not be freed twice.
-/

namespace Libumem.Slab
open Function List Option Arith Lib
variable {g : Geom} {s s' : State} {ly : Layout} {sp bcp : Word}

theorem Layout.Shaped.take {rest mid post : List Word} (h : ly.Shaped) (hsp : sp ∉ ly.front)
    (hmid : rest = [] → mid = []) : (ly.take sp bcp rest mid post).Shaped := by
  have hold : ∀ sp' ∈ ly.front, (ly.take sp bcp rest mid post).free sp' = [] := by
    intro sp' hsp'
    have hne : sp' ≠ sp := fun heq => hsp (heq ▸ hsp')
    exact (update_of_ne hne _ _).trans (h sp' hsp')
  intro sp' hsp'
  by_cases hnil : rest = []
  · have hfront : (ly.take sp bcp rest mid post).front = ly.front ++ [sp] := by
      rw [Layout.take]
      dsimp only
      rw [if_pos hnil, hmid hnil, nil_append]
    rw [hfront] at hsp'
    rcases mem_append.mp hsp' with hsp' | hsp'
    · exact hold sp' hsp'
    · obtain rfl := mem_singleton.mp hsp'
      exact (update_self _ _ _).trans hnil
  · have hfront : (ly.take sp bcp rest mid post).front = ly.front := if_neg hnil
    exact hold sp' (hfront ▸ hsp')

theorem Layout.Shaped.put (h : ly.Shaped) (hnd : ly.front.Nodup) : (ly.put sp bcp).Shaped := by
  have hold : ∀ sp' ∈ ly.front, sp' ≠ sp → (ly.put sp bcp).free sp' = [] := fun sp' hsp' hne =>
    (update_of_ne hne _ _).trans (h sp' hsp')
  intro sp' hsp'
  by_cases hnil : ly.free sp = []
  · have hfront : (ly.put sp bcp).front = ly.front.erase sp := if_pos hnil
    rw [hfront, hnd.mem_erase_iff] at hsp'
    exact hold sp' hsp'.2 hsp'.1
  · have hfront : (ly.put sp bcp).front = ly.front := if_neg hnil
    rw [hfront] at hsp'
    exact hold sp' hsp' fun heq => hnil (heq ▸ h sp' hsp')

theorem Layout.Shaped.build {bcs : List Word} (h : ly.Shaped) (hsp : sp ∉ ly.front) :
    (ly.build sp bcs).Shaped := by
  intro sp' hsp'
  have hne : sp' ≠ sp := fun heq => hsp (heq ▸ hsp')
  exact (update_of_ne hne _ _).trans (h sp' hsp')

section
variable {buf : Word}

/-- A buffer that is given back to a cache without a hash table is in use, or no buffer at all. -/
def LegitFree (g : Geom) (s : State) (buf : Word) : Prop :=
  g.hash = true ∨ buf ∈ s.held ∨ HeaderOk g s buf ∧ ¬ IsChunk g s buf

theorem umemSlabFree_of_notHeld (h : Inv g s ly) (hlegit : LegitFree g s buf) (hheld : buf ∉ s.held)
    (enabled : Bool) : umemSlabFree g s buf enabled = s := by
  rcases hlegit with hhash | hin | ⟨hheader, hchunk⟩
  · exact umemSlabFree_notHeld h hhash hheld enabled
  · exact absurd hin hheld
  · exact umemSlabFree_foreign h hheader hchunk enabled

theorem umemSlabFree_inv (h : Inv g s ly) (hlegit : LegitFree g s buf) (enabled : Bool) :
    ∃ ly', Inv g (umemSlabFree g s buf enabled) ly' ∧ (ly.Shaped → ly'.Shaped) ∧
      ly'.lost = ly.lost := by
  by_cases hheld : buf ∈ s.held
  · obtain ⟨sp, hsp, bcp, hb, rfl⟩ := (h.held buf).mp hheld
    have horder : sp ∈ (ly.put sp bcp).order :=
      (h.put_order (h.mem_order_of_used hsp hb)).mem_iff.mpr (h.mem_order_of_used hsp hb)
    obtain ⟨s₁, -, hput, heq⟩ := umemSlabFree_used h hsp hb enabled
    have hshape : ly.Shaped → (ly.put sp bcp).Shaped := fun hs =>
      hs.put (nodup_append.mp h.order_nodup).1
    rw [heq]
    split
    · rename_i hrefcnt
      have hused : (ly.put sp bcp).used sp = [] := by
        have := (hput.slab sp (hput.mem_live_of_order horder)).refcnt
        rw [hrefcnt] at this
        exact length_eq_zero_iff.mp (by exact_mod_cast this.symm)
      split
      · exact ⟨_, hput.restate sp fun sl => ⟨_, _, rfl⟩, hshape, rfl⟩
      · exact ⟨_, hput.retire horder hused, fun hs => (hshape hs).retire sp, rfl⟩
    · exact ⟨_, hput, hshape, rfl⟩
  · rw [umemSlabFree_of_notHeld h hlegit hheld]
    exact ⟨ly, h, id, rfl⟩

end

theorem Inv.held_embedded (h : Inv g s ly) (hhash : g.hash = false) {buf : Word}
    (hbuf : buf ∈ s.held) :
    g.umemSlab buf ∈ s.live ∧ buf+g.bufctl ∈ ly.used (g.umemSlab buf) ∧
      s.addrOf g (buf+g.bufctl) = buf := by
  obtain ⟨sp, hsp, bcp, hb, rfl⟩ := (h.held buf).mp hbuf
  have haddr : s.addrOf g bcp = bcp-g.bufctl := if_neg (by simp [hhash])
  have hslab := ((h.slab sp hsp).bufctl bcp (mem_append_right _ hb)).2.2
  rw [State.slabOf, if_neg (by simp [hhash])] at hslab
  rw [haddr, hslab, sub_add_cancel]
  exact ⟨hsp, hb, haddr⟩

theorem Inv.write (h : Inv g s ly) (hhash : g.hash = false) {buf : Word} (hbuf : buf ∈ s.held)
    (val : Word) : Inv g { s with bcNext := update s.bcNext (buf+g.bufctl) val } ly := by
  obtain ⟨sp, hsp, bcp, hb, rfl⟩ := (h.held buf).mp hbuf
  have hbcp : s.addrOf g bcp+g.bufctl = bcp := by
    rw [State.addrOf, if_neg (by simp [hhash]), sub_add_cancel]
  rw [hbcp]
  refine { h with slab := ?_, table := fun h' => by simp [hhash] at h' }
  intro sp' hsp'
  refine (h.slab sp' hsp').congr rfl rfl rfl rfl rfl ?_ (fun _ _ => rfl) fun _ _ => rfl
  intro b hbfree
  have hne : b ≠ bcp := fun heq => h.free_notUsed hsp' hsp (heq ▸ hbfree) hb
  simp only [State.freeLink, update_of_ne hne]

/-- The events that a cache can be expected to cope with. -/
def Event.Legit (g : Geom) (s : State) : Event → Prop
  | .free buf _ => LegitFree g s buf
  | _ => True

/-- An allocation that passes over slabs that are being reclaimed does not take the last buffer of a
slab behind them. -/
def LeavesOne (g : Geom) (s : State) : Prop :=
  (s.slabs s.freelist).slabState = .reclaiming →
    let sp := firstUsable g s s.buftotal (s.nextOf s.freelist)
    let bcp := (s.slabs sp).slabHead
    sp = g.nullslab ∨ g.linkMangle bcp (s.bcNext bcp) ≠ 0

def Event.LeavesOne (g : Geom) (s : State) : Event → Prop
  | .alloc => Slab.LeavesOne g s
  | _ => True

theorem umemSlabAlloc_inv (h : Inv g s ly) :
    ∃ ly', Inv g (umemSlabAlloc g s).1 ly' ∧ (LeavesOne g s → ly.Shaped → ly'.Shaped) ∧
      ly'.lost = ly.lost := by
  rcases umemSlabAlloc_cases h with ⟨-, heq⟩ | ⟨mid, sp, post, hback, -, -, heq, hwalk⟩
  · rw [heq]
    exact ⟨ly, h.bookkeeping s.color (s.wanting+1) s.reclaimList h.colors, fun _ => id, rfl⟩
  · rw [heq]
    have hspback : sp ∈ ly.back := by simp [hback]
    have hlive := h.mem_live_of_back hspback
    obtain ⟨bcp, rest, hfree⟩ := exists_cons_of_ne_nil (h.back sp hspback)
    refine ⟨_, h.take hback hfree, ?_, rfl⟩
    intro hleaves hshape
    apply hshape.take
    · intro hfront
      exact (nodup_append.mp h.order_nodup).2.2 sp hfront sp hspback rfl
    · intro hnil
      by_contra hmid
      obtain ⟨hstate, hfirst⟩ := hwalk hmid
      have hchain := (h.slab sp hlive).chain
      rw [hfree, hnil] at hchain
      have hhead := (ptr_eq_some_iff.mp hchain.1).1
      have hleaves := hleaves hstate
      simp only [hfirst, hhead] at hleaves
      rcases hleaves with hnull | hnext
      · exact h.ne_null hlive hnull
      · exact hnext (ptr_eq_none_iff.mp hchain.2)

/-- A legitimate step loses no chunk. -/
theorem Inv.step (h : Inv g s ly) {e : Event} (hlegit : e.Legit g s)
    (hstep : step g s e = some s') :
    ∃ ly', Inv g s' ly' ∧ (e.LeavesOne g s → ly.Shaped → ly'.Shaped) ∧
      ∀ sp, ly.lost sp = [] → ly'.lost sp = [] := by
  have hsame : ∀ {ly' : Layout}, ly'.lost = ly.lost → ∀ sp, ly.lost sp = [] → ly'.lost sp = [] :=
    fun hlost sp hsp => (congrFun hlost sp).trans hsp
  cases e with
  | alloc =>
    cases hstep
    obtain ⟨ly', hinv, hshape, hlost⟩ := umemSlabAlloc_inv h
    exact ⟨ly', hinv, hshape, hsame hlost⟩
  | color => exact ⟨ly, pickColor_inv h hstep, fun _ => id, fun _ => id⟩
  | create color slab header bufctls =>
    obtain ⟨hnew, hinv⟩ := umemSlabCreate_inv h hstep
    refine ⟨_, hinv, fun _ hshape => hshape.build ?_, ?_⟩
    · intro hfront
      exact hnew (h.mem_live_of_order (mem_append_left _ hfront))
    · intro sp hsp
      by_cases heq : sp = newSlab g slab header
      · rw [heq]
        exact update_self _ _ _
      · exact (update_of_ne heq _ _).trans hsp
  | createFail color => exact ⟨ly, createFailed_inv h hstep, fun _ => id, fun _ => id⟩
  | link sp =>
    obtain ⟨r, hlink, rfl⟩ := map_eq_some_iff.mp hstep
    obtain ⟨bcp, rest, -, hbuilt, hinv⟩ := linkNewSlab_inv h hlink
    refine ⟨_, hinv, fun _ hshape => ?_, fun _ => id⟩
    have hlinked : (ly.link sp).Shaped := hshape
    apply hlinked.take
    · intro hfront
      exact h.notMem_private (mem_append_left _ hfront) (mem_append_left _ hbuilt)
    · exact fun _ => rfl
  | free buf enabled =>
    cases hstep
    obtain ⟨ly', hinv, hshape, hlost⟩ := umemSlabFree_inv h hlegit enabled
    exact ⟨ly', hinv, fun _ => hshape, hsame hlost⟩
  | destroy sp => exact ⟨ly, umemSlabDestroy_inv h hstep, fun _ => id, fun _ => id⟩
  | startReclaim interval delay =>
    obtain ⟨ly', hinv, hshape, hlost⟩ := startReclaim_inv h hstep
    exact ⟨ly', hinv, fun _ => hshape, hsame hlost⟩
  | finishReclaim => exact ⟨ly, finishReclaim_inv h hstep, fun _ => id, fun _ => id⟩
  | write buf val =>
    rw [Slab.step] at hstep
    split at hstep
    · rename_i hcond
      cases hstep
      exact ⟨ly, h.write hcond.1 hcond.2 val, fun _ => id, fun _ => id⟩
    · simp at hstep

theorem initial_inv (g : Geom) (memory : State) :
    Inv g (initial g memory) ⟨[], [], fun _ => [], fun _ => [], fun _ => []⟩ where
  cycle := ⟨nodup_singleton _, update_self _ _ _, update_self _ _ _⟩
  live_perm := Perm.nil
  live_nodup := nodup_nil
  null_notMem := not_mem_nil
  null_head := by
    rw [initial]
    dsimp only
    rw [update_self]
  freelist := rfl
  back := by simp
  slab := by simp [initial]
  intact := by simp
  apart := by simp [initial]
  unused := by simp
  bufctls := by simp [initial]
  held := by simp [initial]
  held_nodup := nodup_nil
  total := rfl
  colors c hc := by
    obtain rfl : c = g.mincolor := by simpa [initial] using hc
    exact ⟨g.mincolor_le, fun hhash => (g.aligned hhash).2.2.2⟩
  table _ := ⟨fun _ => [], fun _ => rfl, by simp⟩

/-- The list of a slab: it ends, its entries are different chunks of the slab that nobody holds, and
together with the buffers in use they make up the slab. -/
structure SlabConserved (g : Geom) (s : State) (sp : Word) (free : List Word) : Prop where
  chain : Chain (s.freeLink g) (ptr (s.slabs sp).slabHead) free
  nodup : (free.map (s.addrOf g)).Nodup
  chunk : ∀ bcp ∈ free, s.addrOf g bcp ∈ g.chunkStarts (s.slabs sp)
  notHeld : ∀ bcp ∈ free, s.addrOf g bcp ∉ s.held
  total : (s.slabs sp).slabRefcnt + free.length = (s.slabs sp).slabChunks

structure Conserved (g : Geom) (s : State) : Prop where
  slab : ∀ sp ∈ s.live, ∃ free, SlabConserved g s sp free
  table : g.hash = true → TableOk g s fun bcp => bcp ∈ s.bufctls ∧ s.bcAddr bcp ∈ s.held
  tableFull : g.hash = true → ∀ buf ∈ s.held, ∃ bcp ∈ s.bufctls, s.bcAddr bcp = buf
  buftotal : ∃ order, s.links.Cycle g.nullslab order ∧ order ⊆ s.live ∧
    s.buftotal = (order.map fun sp => (s.slabs sp).slabChunks).sum
  /-- what an allocation returns is not in use -/
  alloc : ∀ buf, (umemSlabAlloc g s).2 = some buf → buf ∉ s.held
  link : ∀ sp s' buf, linkNewSlab g s sp = some (s', some buf) → buf ∉ s.held
  free : ∀ buf reclaimEnabled, HeaderOk g s buf → ¬ IsChunk g s buf →
    umemSlabFree g s buf reclaimEnabled = s

theorem Inv.takeBuffer_notHeld (h : Inv g s ly) {mid post : List Word}
    (hback : ly.back = mid ++ sp :: post) {buf : Word} (hbuf : (takeBuffer g s sp).2 = some buf) :
    buf ∉ s.held := by
  have hspback : sp ∈ ly.back := by simp [hback]
  obtain ⟨bcp, rest, hfree⟩ := exists_cons_of_ne_nil (h.back sp hspback)
  have hok := h.slab sp (h.mem_live_of_back hspback)
  rw [hfree] at hok
  have htake := takeBuffer_eq hok
  have hnodup := (h.take hback hfree).held_nodup
  rw [htake] at hbuf hnodup
  cases hbuf
  exact (nodup_cons.mp hnodup).1

theorem SlabOk.free_nodup {free used lost : List Word} (h : SlabOk g s sp free used lost) :
    (free.map (s.addrOf g)).Nodup := by
  have hnd := h.addr_nodup
  rw [map_append] at hnd
  exact (nodup_append.mp hnd).1

theorem Inv.slabConserved (h : Inv g s ly) (hsp : sp ∈ s.live) (hlost : ly.lost sp = []) :
    SlabConserved g s sp (ly.free sp) := by
  have hok := h.slab sp hsp
  refine ⟨hok.chain, hok.free_nodup, ?_, fun bcp hb => h.free_notHeld hsp hb, ?_⟩
  · exact fun bcp hb => hok.addr_mem (mem_append_left _ hb)
  · rw [hok.refcnt, ← hok.length_add, hlost, length_nil, Nat.add_zero]
    push_cast
    ring

theorem Inv.alloc_notHeld (h : Inv g s ly) {buf : Word} (hbuf : (umemSlabAlloc g s).2 = some buf) :
    buf ∉ s.held := by
  rcases umemSlabAlloc_cases h with ⟨-, heq⟩ | ⟨mid, sp, post, hback, -, -, heq, -⟩
  · rw [heq] at hbuf
    simp at hbuf
  · rw [heq] at hbuf
    exact h.takeBuffer_notHeld hback hbuf

theorem Inv.link_notHeld (h : Inv g s ly) {buf : Word}
    (hlink : linkNewSlab g s sp = some (s', some buf)) : buf ∉ s.held := by
  obtain ⟨hsp, hlink⟩ := ite_none_right_eq_some.mp hlink
  have hbuf := congrArg Prod.snd (some.inj hlink)
  have hback : (ly.link sp).back = [] ++ sp :: ly.back := rfl
  exact (h.link hsp).takeBuffer_notHeld hback hbuf

theorem Inv.conserved (h : Inv g s ly) (hwhole : ∀ sp, ly.lost sp = []) : Conserved g s where
  slab sp hsp := ⟨_, h.slabConserved hsp (hwhole sp)⟩
  table hhash := by
    apply (h.table hhash).congr
    intro bcp
    have haddr : s.addrOf g bcp = s.bcAddr bcp := if_pos hhash
    rw [h.bufctls, h.held]
    constructor
    · rintro ⟨sp, hsp, hb⟩
      exact ⟨⟨sp, hsp, h.owns hsp (mem_append_right _ hb)⟩, sp, hsp, bcp, hb, haddr⟩
    · rintro ⟨⟨sp, hsp, hb⟩, sp', hsp', bcp', hb', heq⟩
      rw [Owns, if_pos hhash] at hb
      obtain rfl := h.addr_injective hsp' hsp (mem_append_right _ hb') hb (heq.trans haddr.symm)
      exact ⟨sp', hsp', hb'⟩
  tableFull hhash buf hbuf := by
    obtain ⟨sp, hsp, bcp, hb, rfl⟩ := (h.held buf).mp hbuf
    exact ⟨bcp, (h.bufctls bcp).mpr ⟨sp, hsp, h.owns hsp (mem_append_right _ hb)⟩,
      (if_pos hhash).symm⟩
  buftotal := ⟨ly.order, h.cycle, fun _ hsp => h.mem_live_of_order hsp, h.total⟩
  alloc _ hbuf := h.alloc_notHeld hbuf
  link _ _ _ hlink := h.link_notHeld hlink
  free _ enabled hheader hchunk := umemSlabFree_foreign h hheader hchunk enabled

/-- A step of a run in which buffers are given back as they should be. -/
def LegitStep (g : Geom) (s : State) (e : Event) (s' : State) : Prop :=
  e.Legit g s ∧ step g s e = some s'

theorem exists_inv {g : Geom} {memory s : State} {events : List Event}
    (hrun : Runs (LegitStep g) (initial g memory) events s) :
    ∃ ly, Inv g s ly ∧ ∀ sp, ly.lost sp = [] := by
  apply Runs.invariant _ hrun ⟨_, initial_inv g memory, fun _ => rfl⟩
  rintro s e s' ⟨ly, h, hwhole⟩ ⟨hlegit, hstep⟩
  obtain ⟨ly', h', -, hlost⟩ := h.step hlegit hstep
  exact ⟨ly', h', fun sp => hlost sp (hwhole sp)⟩

/-- In every state that is reached with every kind of cache, buffers are conserved. -/
theorem slab_conservation (g : Geom) (memory : State) {events : List Event} {s : State}
    (hrun : Runs (LegitStep g) (initial g memory) events s) : Conserved g s := by
  obtain ⟨ly, h, hwhole⟩ := exists_inv hrun
  exact h.conserved hwhole

instance (g : Geom) (s : State) : (e : Event) → Decidable (e.Legit g s)
  | .free buf _ => by
    unfold Event.Legit LegitFree HeaderOk IsChunk
    have := List.decidableBEx (fun sp => buf ∈ g.chunkStarts (s.slabs sp)) s.live
    infer_instance
  | .alloc | .color | .create .. | .createFail _ | .link _ | .destroy _ | .startReclaim ..
  | .finishReclaim | .write .. => .isTrue trivial

def zeroMemory : State where
  slabs _ := ⟨0, 0, 0, 0, 0, .active, 0⟩
  links := ⟨fun _ => none, fun _ => none⟩
  freelist := 0
  bcNext _ := 0
  bcAddr _ := 0
  bcSlab _ := 0
  hashTable _ := 0
  hashMask := 0
  buftotal := 0
  color := 0
  wanting := 0
  coloured := []
  built := []
  dying := []
  reclaimList := none
  live := []
  bufctls := []
  held := []

/-- A first slab is built and linked, and its last chunk is handed out. -/
def firstSlab : List Event := [.alloc, .color, .create 8 0x10000 0 [], .link 0x10fb8]

/-- Both chunks of the slab are handed out and given back, and the slab is reclaimed. -/
def roundTrip : List Event :=
  firstSlab ++ [.alloc, .write 0x107d8 7, .free 0x107d8 true, .free 0x107d9 true, .free 0x10008 true,
    .startReclaim 10 10, .finishReclaim]

theorem slab_conservation_roundTrip : ∃ s,
    Runs (LegitStep pageCache) (initial pageCache zeroMemory) roundTrip s ∧ Conserved pageCache s ∧
      (s.slabs 0x10fb8).slabState = .clean ∧ s.held = [] := by
  obtain ⟨s, hrun, hs⟩ := exists_runs (P := fun s e => Event.Legit pageCache s e)
    (f := step pageCache) (initial pageCache zeroMemory) roundTrip
    (fun s => ((s.slabs 0x10fb8).slabState, s.held)) (.clean, []) (by decide +kernel)
  simp only [Prod.mk.injEq] at hs
  exact ⟨s, hrun, slab_conservation pageCache zeroMemory hrun, hs⟩

/-- A buffer that is freed twice is on the list of its slab twice, so that the list has no end. -/
theorem slab_conservation_doubleFree : ∃ s,
    Runs (fun s e s' => step pageCache s e = some s') (initial pageCache zeroMemory)
      (firstSlab ++ [.free 0x107d8 true, .free 0x107d8 true]) s ∧ ¬ Conserved pageCache s := by
  obtain ⟨s, hrun, hs⟩ := exists_runs (P := fun _ _ => True) (f := step pageCache)
    (initial pageCache zeroMemory) (firstSlab ++ [.free 0x107d8 true, .free 0x107d8 true])
    (fun s => (decide (0x10fb8 ∈ s.live), ptr (s.slabs 0x10fb8).slabHead, s.freeLink pageCache 0x10fa0))
    (true, some 0x10fa0, some 0x10fa0) (by decide +kernel)
  simp only [Prod.mk.injEq, decide_eq_true_eq] at hs
  obtain ⟨hlive, hhead, hlink⟩ := hs
  refine ⟨s, hrun.mono fun _ _ _ h => h.2, ?_⟩
  intro h
  obtain ⟨free, hfree⟩ := h.slab _ hlive
  have hchain := hfree.chain
  rw [hhead] at hchain
  exact hchain.link_ne_self hlink

end Libumem.Slab
