import Libumem.Slab.Drain

/-!
# What reclaiming keeps safe

The properties of a cache under allocations, frees and reclaim passes up to its end: idle slabs have no
buffers in use, a pass finds its slabs as it left them, slabs are destroyed once and unused, and the
pages that are advised away belong to one slab and hold no metadata.
-/

namespace Libumem.Slab
open List Option Arith Lib
variable {g : Geom} {s s' : State} {ly : Layout} {sp : Word} {pagesize : Word} {bufctlSize : Nat}

/-- Two ranges of addresses, each with its length, that do not meet. -/
def Away (r m : Nat × Nat) : Prop := r.1 + r.2 ≤ m.1 ∨ m.1 + m.2 ≤ r.1

/-- The metadata that the cache reads again: the headers, the bufctls, and the tags behind the
buffers. -/
def metadata (g : Geom) (buftag : Bool) (bufctlSize : Nat) (s : State) : List (Nat × Nat) :=
  s.live.map (fun sp => (sp.toNat, sizeofSlab)) ++
    s.bufctls.map (fun bcp => (bcp.toNat, bufctlSize)) ++
    if buftag then
      s.live.flatMap fun sp => (g.chunkStarts (s.slabs sp)).map fun buf =>
        (buf.toNat + g.bufctl.toNat, sizeofBuftag)
    else []

def spanOf (g : Geom) (sl : UmemSlab) : Nat × Nat := (g.spanStart sl, g.slabsize.toNat)

/-- No slab begins inside of the last page of the address space, and headers and bufctls that come
from their own caches are not in the spans of this one. -/
structure Placed (g : Geom) (pagesize : Word) (bufctlSize : Nat) (s : State) : Prop where
  top : ∀ sp ∈ s.live, (s.slabs sp).slabBase.toNat + pagesize.toNat ≤ 2 ^ 64 ∨
    pagesize.toNat ≤ g.quantum.toNat
  apart : g.hash = true → ∀ sp ∈ s.live, ∀ m ∈ metadata g false bufctlSize s,
    Away (spanOf g (s.slabs sp)) m

/-- What the arena and the metadata caches deliver for a new slab is placed so. -/
def Event.Placed (g : Geom) (pagesize : Word) (bufctlSize : Nat) (s : State) : Event → Prop
  | .create tint slab header bufctls =>
    let new := (header.toNat, sizeofSlab) :: bufctls.map fun bcp => (bcp.toNat, bufctlSize)
    ((slab + tint).toNat + pagesize.toNat ≤ 2 ^ 64 ∨ pagesize.toNat ≤ g.quantum.toNat) ∧
    (g.hash = true →
      (∀ m ∈ new ++ metadata g false bufctlSize s, Away (slab.toNat, g.slabsize.toNat) m) ∧
      ∀ sp ∈ s.live, ∀ m ∈ new, Away (spanOf g (s.slabs sp)) m)
  | _ => True

theorem mem_metadata {m : Nat × Nat} : m ∈ metadata g false bufctlSize s ↔
    (∃ sp ∈ s.live, (sp.toNat, sizeofSlab) = m) ∨ ∃ bcp ∈ s.bufctls, (bcp.toNat, bufctlSize) = m := by
  simp [metadata]

theorem Placed.congr (h : Placed g pagesize bufctlSize s) (hlive : ∀ sp ∈ s'.live, sp ∈ s.live)
    (hbufctls : s'.bufctls ⊆ s.bufctls)
    (hbase : ∀ sp, (s'.slabs sp).slabBase = (s.slabs sp).slabBase) :
    Placed g pagesize bufctlSize s' where
  top sp hsp := by
    rw [hbase]
    exact h.top sp (hlive sp hsp)
  apart hhash sp hsp m hm := by
    have hspan : spanOf g (s'.slabs sp) = spanOf g (s.slabs sp) := by
      rw [spanOf, spanOf, Geom.spanStart, hbase, Geom.spanStart]
    rw [hspan]
    apply h.apart hhash sp (hlive sp hsp) m
    rw [mem_metadata] at hm ⊢
    rcases hm with ⟨sp', hsp', heq⟩ | ⟨bcp, hbcp, heq⟩
    · exact .inl ⟨sp', hlive sp' hsp', heq⟩
    · exact .inr ⟨bcp, hbufctls hbcp, heq⟩

theorem Placed.touch {sl : UmemSlab} (h : Placed g pagesize bufctlSize s) (ht : Touch s s' sp sl) :
    Placed g pagesize bufctlSize s' :=
  h.congr ht.live ht.bufctls ht.slabBase_eq

theorem Placed.create (h : Placed g pagesize bufctlSize s) (hinv : Inv g s ly)
    {color slab header : Word} {bufctls : List Word}
    (hplaced : (Event.create color slab header bufctls).Placed g pagesize bufctlSize s)
    (heq : umemSlabCreate g s color slab header bufctls = some s') :
    Placed g pagesize bufctlSize s' := by
  obtain ⟨htop, hapart⟩ := hplaced
  have hnew := (umemSlabCreate_inv hinv heq).1
  have hspan : g.spanStart ⟨g.cp, slab+color, 0, 0, g.chunksFor color, .active, 0⟩ =
      slab.toNat := by
    unfold umemSlabCreate at heq
    dsimp only at heq
    split at heq
    case isFalse => simp at heq
    rename_i hcond
    obtain ⟨hcolor, hd⟩ := hcond
    exact (hd.span (hinv.colors color (mem_cons_of_mem _ hcolor)) rfl rfl).1
  obtain ⟨⟨head, hslabs⟩, hlive, -, -, -, hbufctls⟩ := umemSlabCreate_frame heq
  have hself : (s'.slabs (newSlab g slab header)).slabBase = slab+color := by
    rw [hslabs, Function.update_self]
  have hother : ∀ sp ∈ s.live, (s'.slabs sp).slabBase = (s.slabs sp).slabBase := by
    intro sp hsp
    have hne : sp ≠ newSlab g slab header := fun heq => hnew (heq ▸ hsp)
    rw [hslabs, Function.update_of_ne hne]
  refine ⟨?_, ?_⟩
  · intro sp hsp
    rw [hlive] at hsp
    rcases mem_cons.mp hsp with rfl | hsp
    · rw [hself]
      exact htop
    · rw [hother sp hsp]
      exact h.top sp hsp
  · intro hhash
    obtain ⟨hslab, hspans⟩ := hapart hhash
    have hheader : newSlab g slab header = header := if_pos hhash
    have hbcs : newBufctls g (slab+color) (g.chunksFor color) bufctls = bufctls := if_pos hhash
    rw [hheader] at hlive hself
    rw [hbcs] at hbufctls
    -- what is metadata now was metadata before or is new
    have hcases : ∀ m ∈ metadata g false bufctlSize s',
        m ∈ ((header.toNat, sizeofSlab) :: bufctls.map fun bcp => (bcp.toNat, bufctlSize)) ∨
          m ∈ metadata g false bufctlSize s := by
      intro m hm
      rw [mem_metadata, hlive, hbufctls] at hm
      rcases hm with ⟨sp, hsp, rfl⟩ | ⟨bcp, hbcp, rfl⟩
      · rcases mem_cons.mp hsp with rfl | hsp
        · exact .inl mem_cons_self
        · exact .inr (mem_metadata.mpr (.inl ⟨sp, hsp, rfl⟩))
      · rcases mem_append.mp hbcp with hbcp | hbcp
        · exact .inl (mem_cons_of_mem _ (mem_map.mpr ⟨bcp, hbcp, rfl⟩))
        · exact .inr (mem_metadata.mpr (.inr ⟨bcp, hbcp, rfl⟩))
    intro sp hsp m hm
    rw [hlive] at hsp
    rcases mem_cons.mp hsp with rfl | hsp
    · have hown : spanOf g (s'.slabs sp) = (slab.toNat, g.slabsize.toNat) := by
        rw [spanOf, Geom.spanStart, hself, ← hspan, Geom.spanStart]
      rw [hown]
      exact hslab m (mem_append.mpr (hcases m hm))
    · have hsame : spanOf g (s'.slabs sp) = spanOf g (s.slabs sp) := by
        rw [spanOf, spanOf, Geom.spanStart, hother sp hsp, Geom.spanStart]
      rw [hsame]
      rcases hcases m hm with hm | hm
      · exact hspans sp hsp m hm
      · exact h.apart hhash sp hsp m hm

/-- What holds between the steps of a run. -/
structure Sound (g : Geom) (pagesize : Word) (bufctlSize : Nat) (s : State) (ly : Layout) : Prop where
  inv : Inv g s ly
  pending : Pending s
  idle : Idle s
  placed : Placed g pagesize bufctlSize s

theorem Sound.touch {ly' : Layout} {sl : UmemSlab} (h : Sound g pagesize bufctlSize s ly)
    (ht : Touch s s' sp sl) (hinv : Inv g s' ly') (hpending : Pending s') :
    Sound g pagesize bufctlSize s' ly' :=
  ⟨hinv, hpending, h.idle.touch ht, h.placed.touch ht⟩

theorem Sound.step (h : Sound g pagesize bufctlSize s ly) {e : Event} (hlegit : e.Legit g s)
    (hplaced : e.Placed g pagesize bufctlSize s) (hstep : step g s e = some s') :
    ∃ ly', Sound g pagesize bufctlSize s' ly' := by
  obtain ⟨ly', hinv, -⟩ := h.inv.step hlegit hstep
  have hpending := h.pending.step h.inv hstep
  refine ⟨ly', ?_⟩
  have hnull := h.inv.null_notMem
  cases e with
  | alloc =>
    cases hstep
    obtain ⟨sp, sl, ht⟩ := umemSlabAlloc_touch h.inv
    exact h.touch ht hinv hpending
  | color =>
    obtain ⟨-, hstep⟩ := ite_none_left_eq_some.mp hstep
    cases hstep
    exact h.touch (Touch.none hnull rfl rfl rfl rfl rfl rfl) hinv hpending
  | create color slab header bufctls =>
    exact ⟨hinv, hpending, umemSlabCreate_idle h.inv h.idle hstep,
      h.placed.create h.inv hplaced hstep⟩
  | createFail color =>
    obtain ⟨-, hstep⟩ := ite_none_right_eq_some.mp hstep
    cases hstep
    exact h.touch (Touch.none hnull rfl rfl rfl rfl rfl rfl) hinv hpending
  | link sp =>
    obtain ⟨r, hlink, rfl⟩ := map_eq_some_iff.mp hstep
    exact h.touch (linkNewSlab_touch h.inv hlink) hinv hpending
  | free buf enabled =>
    cases hstep
    obtain ⟨sp, sl, ht⟩ := umemSlabFree_touch h.inv h.idle hlegit enabled
    exact h.touch ht hinv hpending
  | destroy sp => exact h.touch (umemSlabDestroy_touch h.inv hstep) hinv hpending
  | startReclaim interval delay =>
    obtain ⟨hidle, hlive, hbufctls, hbase⟩ :=
      startReclaim_idle interval delay h.inv h.idle hstep
    exact ⟨hinv, hpending, hidle, h.placed.congr (fun _ hsp => hlive ▸ hsp)
      (hbufctls ▸ Subset.refl _) hbase⟩
  | finishReclaim =>
    obtain ⟨hidle, hlive, hbufctls, hbase⟩ := finishReclaim_idle h.idle hstep
    exact ⟨hinv, hpending, hidle, h.placed.congr (fun _ hsp => hlive ▸ hsp)
      (hbufctls ▸ Subset.refl _) hbase⟩
  | write buf val =>
    obtain ⟨-, hstep⟩ := ite_none_right_eq_some.mp hstep
    cases hstep
    exact h.touch (Touch.none hnull rfl rfl rfl rfl rfl rfl) hinv hpending

def advisedFor (g : Geom) (pagesize : Word) (buftag : Bool) (sl : UmemSlab) : Option (Nat × Nat) :=
  (umemSlabReclaim pagesize g.hash buftag sl.slabBase g.slabsize).map fun r => (r.1.toNat, r.2.toNat)

structure ReclaimSafe (g : Geom) (pagesize : Word) (buftag : Bool) (bufctlSize : Nat) (s : State) :
    Prop where
  idle : ∀ sp ∈ s.live, (s.slabs sp).slabState ≠ .active → (s.slabs sp).slabRefcnt = 0
  /-- no buffer is handed out from a slab that is being reclaimed -/
  alloc : ∀ buf, (umemSlabAlloc g s).2 = some buf → ∀ sp ∈ s.live,
    (s.slabs sp).slabState = .reclaiming → buf ∉ g.chunkStarts (s.slabs sp)
  link : ∀ new s' buf, linkNewSlab g s new = some (s', some buf) → ∀ sp ∈ s.live,
    (s.slabs sp).slabState = .reclaiming → buf ∉ g.chunkStarts (s.slabs sp)
  /-- what a pass asserts when it has taken the lock again -/
  asserts : ∀ list, s.reclaimList = some list → ∀ sp ∈ list,
    (s.slabs sp).slabState = .reclaiming ∧ (s.slabs sp).slabRefcnt = 0
  /-- a slab that waits to be destroyed waits once, is not linked, and nobody holds a buffer of it -/
  dying : s.dying.Nodup ∧ ∃ order, s.links.Cycle g.nullslab order ∧ ∀ sp ∈ s.dying,
    sp ∉ order ∧ ∀ buf ∈ g.chunkStarts (s.slabs sp), buf ∉ s.held
  destroyed : ∀ sp s', umemSlabDestroy g s sp = some s' → sp ∉ s'.dying ∧ sp ∉ s'.live
  advised : ∀ sp ∈ s.live, ∀ r, advisedFor g pagesize buftag (s.slabs sp) = some r →
    g.spanStart (s.slabs sp) ≤ r.1 ∧ r.1 + r.2 ≤ g.spanStart (s.slabs sp) + g.slabsize.toNat
  metadata : ∀ sp ∈ s.live, ∀ r, advisedFor g pagesize buftag (s.slabs sp) = some r →
    ∀ m ∈ metadata g buftag bufctlSize s, Away r m
  /-- what `umem_cache_drain_slabs` asserts of the slabs that it meets -/
  drainAsserts : s.reclaimList = none → ∀ sp ∈ s.live,
    (s.slabs sp).slabCache = g.cp ∧ (s.slabs sp).slabState ≠ .reclaiming
  /-- it destroys the slabs of which nobody holds a buffer -/
  drained : s.built = [] → s.dying = [] → ∀ sp, sp ∈ (umemCacheDrainSlabs g s).1.live ↔
    sp ∈ s.live ∧ ∃ buf ∈ s.held, buf ∈ g.chunkStarts (s.slabs sp)
  returned : s.built = [] → s.dying = [] → s.held = [] → (umemCacheDrainSlabs g s).1.live = []

theorem Inv.takeBuffer_chunk (h : Inv g s ly) {mid post : List Word} {sp' : Word}
    (hback : ly.back = mid ++ sp :: post) (hsp' : sp' ∈ s.live)
    (hstate : (s.slabs sp').slabState ≠ (s.slabs sp).slabState) {buf : Word}
    (hbuf : (takeBuffer g s sp).2 = some buf) : buf ∉ g.chunkStarts (s.slabs sp') := by
  have hspback : sp ∈ ly.back := by simp [hback]
  have hlive := h.mem_live_of_back hspback
  obtain ⟨bcp, rest, hfree⟩ := exists_cons_of_ne_nil (h.back sp hspback)
  have hb : bcp ∈ ly.bufctls sp := by simp [Layout.bufctls, hfree]
  have hok := h.slab sp hlive
  rw [hfree] at hok
  rw [takeBuffer_eq hok] at hbuf
  cases hbuf
  intro hchunk
  obtain rfl := h.chunk_unique hsp' hlive hchunk ((h.slab sp hlive).addr_mem hb)
  exact hstate rfl

theorem Sound.reclaimSafe (h : Sound g pagesize bufctlSize s ly) (hpage : IsPow2 pagesize)
    (buftag : Bool) : ReclaimSafe g pagesize buftag bufctlSize s where
  idle := h.idle.refcnt
  alloc buf hbuf sp hsp hstate := by
    rcases umemSlabAlloc_cases h.inv with ⟨-, heq⟩ | ⟨mid, sp', post, hback, -, hmark, heq, -⟩
    · rw [heq] at hbuf
      simp at hbuf
    · rw [heq] at hbuf
      exact h.inv.takeBuffer_chunk hback hsp (fun heq => hmark (heq ▸ hstate)) hbuf
  link new s' buf hlink sp hsp hstate := by
    unfold linkNewSlab at hlink
    split at hlink
    case isFalse => simp at hlink
    rename_i hnew
    have hbuf := congrArg Prod.snd (some.inj hlink)
    have hback : (ly.link new).back = [] ++ new :: ly.back := rfl
    refine (h.inv.link hnew).takeBuffer_chunk hback hsp ?_ hbuf
    -- a slab that is not linked yet cannot be marked
    intro heq
    have hprivate : new ∈ s.built ++ s.dying := mem_append_left _ hnew
    have hmark : (s.slabs new).slabState = .reclaiming := heq.symm.trans hstate
    obtain ⟨list, hlist, hin⟩ := h.pending new (h.inv.mem_live_of_private hprivate) hmark
    have hmarked := h.idle.marked
    rw [hlist] at hmarked
    exact (hmarked new hin).2.1 hprivate
  asserts list hlist sp hsp := by
    have hmarked := h.idle.marked
    rw [hlist] at hmarked
    obtain ⟨hlive, -, hstate⟩ := hmarked sp hsp
    exact ⟨hstate, h.idle.refcnt sp hlive (by simp [hstate])⟩
  dying := by
    have hnd := h.inv.live_perm.nodup_iff.mp h.inv.live_nodup
    refine ⟨(nodup_append.mp (nodup_append.mp hnd).2.1).2.1, ly.order, h.inv.cycle, ?_⟩
    intro sp hsp
    have hprivate : sp ∈ s.built ++ s.dying := mem_append_right _ hsp
    have hlive := h.inv.mem_live_of_private hprivate
    refine ⟨fun hin => h.inv.notMem_private hin hprivate, fun buf hbuf hheld => ?_⟩
    refine (h.inv.refcnt_ne_zero_iff hlive).mpr ⟨buf, hheld, hbuf⟩ ?_
    rw [(h.inv.slab sp hlive).refcnt, h.inv.unused sp hprivate]
    rfl
  destroyed sp s' hdestroy := by
    unfold umemSlabDestroy at hdestroy
    split at hdestroy
    case isFalse => simp at hdestroy
    cases hdestroy
    have hnd := h.inv.live_perm.nodup_iff.mp h.inv.live_nodup
    have hdying : s.dying.Nodup := (nodup_append.mp (nodup_append.mp hnd).2.1).2.1
    exact ⟨hdying.not_mem_erase, h.inv.live_nodup.not_mem_erase⟩
  advised sp hsp r hr := by
    obtain ⟨w, hw, rfl⟩ := map_eq_some_iff.mp hr
    exact advised_in_span (h.inv.slab sp hsp).span hpage (h.placed.top sp hsp) hw
  metadata sp hsp r hr m hm := by
    obtain ⟨w, hw, rfl⟩ := map_eq_some_iff.mp hr
    obtain ⟨hhash, rfl, -⟩ := umemSlabReclaim_eq_some hw
    obtain ⟨hle, hge⟩ := advised_in_span (h.inv.slab sp hsp).span hpage (h.placed.top sp hsp) hw
    have hspan := h.placed.apart hhash sp hsp m hm
    unfold Away spanOf at hspan
    unfold Away
    dsimp only at hspan ⊢
    omega
  drainAsserts hnone sp hsp := by
    refine ⟨(h.inv.slab sp hsp).cache, fun hstate => ?_⟩
    obtain ⟨list, hlist, -⟩ := h.pending sp hsp hstate
    rw [hnone] at hlist
    simp at hlist
  drained hbuilt hdying sp := by
    rw [h.inv.mem_drained hbuilt hdying]
    exact and_congr_right h.inv.refcnt_ne_zero_iff
  returned hbuilt hdying hheld := by
    rw [eq_nil_iff_forall_not_mem]
    intro sp hsp
    obtain ⟨hlive, hrefcnt⟩ := (h.inv.mem_drained hbuilt hdying).mp hsp
    obtain ⟨buf, hbuf, -⟩ := (h.inv.refcnt_ne_zero_iff hlive).mp hrefcnt
    simp [hheld] at hbuf

/-- A step of a run in which buffers are given back as they should be, and new slabs are placed as they
should be. -/
def SafeStep (g : Geom) (pagesize : Word) (bufctlSize : Nat) (s : State) (e : Event) (s' : State) :
    Prop :=
  (e.Legit g s ∧ e.Placed g pagesize bufctlSize s) ∧ step g s e = some s'

/-- In every state that is reached, with or without tags, reclaiming is safe. -/
theorem reclaim_safety (g : Geom) (memory : State) (pagesize : Word) (hpage : IsPow2 pagesize)
    (buftag : Bool) (bufctlSize : Nat) {events : List Event} {s : State}
    (hrun : Runs (SafeStep g pagesize bufctlSize) (initial g memory) events s) :
    ReclaimSafe g pagesize buftag bufctlSize s := by
  have hsound : ∃ ly, Sound g pagesize bufctlSize s ly := by
    apply Runs.invariant _ hrun
    · refine ⟨_, initial_inv g memory, ?_, ⟨?_, nodup_nil, ?_⟩, ?_, ?_⟩
      all_goals simp [initial, Pending]
    · rintro s e s' ⟨ly, h⟩ ⟨⟨hlegit, hplaced⟩, hstep⟩
      exact h.step hlegit hplaced hstep
  obtain ⟨ly, h⟩ := hsound
  exact h.reclaimSafe hpage buftag

instance (r m : Nat × Nat) : Decidable (Away r m) := inferInstanceAs (Decidable (_ ∨ _))

instance (g : Geom) (pagesize : Word) (bufctlSize : Nat) (s : State) :
    (e : Event) → Decidable (e.Placed g pagesize bufctlSize s)
  | .create tint slab header bufctls => by
    unfold Event.Placed
    have := List.decidableBAll (fun sp => ∀ m ∈ (header.toNat, sizeofSlab) ::
      bufctls.map (fun bcp : Word => (bcp.toNat, bufctlSize)), Away (spanOf g (s.slabs sp)) m) s.live
    infer_instance
  | .alloc | .color | .createFail _ | .link _ | .free .. | .destroy _ | .startReclaim ..
  | .finishReclaim | .write .. => .isTrue trivial

def sixteenBufctls : List Word := (List.range 16).map fun i => BitVec.ofNat 64 (0x50000 + 24 * i)

/-- A slab of 4 KiB objects loses its only buffer in use and is about to be advised away. -/
theorem reclaim_safety_pageObjects : ∃ s,
    Runs (SafeStep pageObjects 0x1000 24) (initial pageObjects zeroMemory)
      [.alloc, .color, .create 0 0x11000 0x40000 sixteenBufctls, .link 0x40000, .free 0x20000 true,
        .startReclaim 10 10] s ∧
    ReclaimSafe pageObjects 0x1000 false 24 s ∧ s.reclaimList = some [0x40000] ∧
      advisedFor pageObjects 0x1000 false (s.slabs 0x40000) = some (0x11000, 0xf000) := by
  obtain ⟨s, hrun, hs⟩ := exists_runs
    (P := fun s e => Event.Legit pageObjects s e ∧ Event.Placed pageObjects 0x1000 24 s e)
    (f := step pageObjects) (initial pageObjects zeroMemory)
    [.alloc, .color, .create 0 0x11000 0x40000 sixteenBufctls, .link 0x40000, .free 0x20000 true,
      .startReclaim 10 10]
    (fun s => (s.reclaimList, advisedFor pageObjects 0x1000 false (s.slabs 0x40000)))
    (some [0x40000], some (0x11000, 0xf000)) (by decide +kernel)
  simp only [Prod.mk.injEq] at hs
  exact ⟨s, hrun, reclaim_safety pageObjects zeroMemory 0x1000 ⟨12, by decide, rfl⟩ false 24 hrun,
    hs⟩

/-- The cache of the 8-byte objects of an arena with a quantum of 8. -/
def tinyObjects : Geom where
  cp := 0x100
  nullslab := 0x200
  hash := true
  quantum := 8
  slabsize := 128
  chunksize := 8
  bufctl := 0
  align := 8
  mincolor := 0
  maxcolor := 0
  hashShift := 3
  linkCookie := 0
  quantum_pow2 := isPow2_eight
  slabsize_dvd := by decide
  slabsize_eq := nofun
  chunksize_pos := by decide
  mincolor_le := pageObjects.mincolor_le
  maxcolor_lt := by decide
  fits := by decide
  bufctl_le := nofun
  aligned := nofun

/-- For a slab that begins inside of the last page of the address space, rounding up leads to address
0 and everything below that page is advised away. And in a cache without a hash table a buffer that is
given back twice leaves a dirty slab with a negative count. -/
theorem reclaim_safety_limits :
    (∃ s, Runs (LegitStep tinyObjects) (initial tinyObjects zeroMemory)
      [.alloc, .color, .create 0 0xfffffffffffff008 0x40000 sixteenBufctls, .link 0x40000,
        .free 0xfffffffffffff080 true, .startReclaim 10 10] s ∧
      s.reclaimList = some [0x40000] ∧
      advisedFor tinyObjects 0x1000 false (s.slabs 0x40000) = some (0, 0xfffffffffffff000)) ∧
    ∃ s, Runs (fun s e s' => step pageCache s e = some s') (initial pageCache zeroMemory)
      (firstSlab ++ [.free 0x107d8 true, .free 0x107d8 true]) s ∧ 0x10fb8 ∈ s.live ∧
      (s.slabs 0x10fb8).slabState = .dirty ∧ (s.slabs 0x10fb8).slabRefcnt = -1 := by
  constructor
  · obtain ⟨s, hrun, hs⟩ := exists_runs (P := fun s e => Event.Legit tinyObjects s e)
      (f := step tinyObjects) (initial tinyObjects zeroMemory)
      [.alloc, .color, .create 0 0xfffffffffffff008 0x40000 sixteenBufctls, .link 0x40000,
        .free 0xfffffffffffff080 true, .startReclaim 10 10]
      (fun s => (s.reclaimList, advisedFor tinyObjects 0x1000 false (s.slabs 0x40000)))
      (some [0x40000], some (0, 0xfffffffffffff000)) (by decide +kernel)
    simp only [Prod.mk.injEq] at hs
    exact ⟨s, hrun, hs⟩
  · obtain ⟨s, hrun, hs⟩ := exists_runs (P := fun _ _ => True) (f := step pageCache)
      (initial pageCache zeroMemory) (firstSlab ++ [.free 0x107d8 true, .free 0x107d8 true])
      (fun s => (decide (0x10fb8 ∈ s.live), (s.slabs 0x10fb8).slabState, (s.slabs 0x10fb8).slabRefcnt))
      (true, .dirty, -1) (by decide +kernel)
    simp only [Prod.mk.injEq, decide_eq_true_eq] at hs
    exact ⟨s, hrun.mono fun _ _ _ h => h.2, hs⟩

end Libumem.Slab
