import Libumem.Slab.Machine

/-!
# How the memory of a cache is laid out

The invariant of the slab layer, over lists that the memory stands for: the slabs in front of the
free list and those on it, and for each slab the bufctls on its list and those of the buffers that
are in use. The chunks behind a link that is not valid are lost to a slab: they are neither.
-/

namespace Libumem.Slab
open List Arith Lib

structure Layout where
  front : List Word
  back : List Word
  free : Word → List Word
  used : Word → List Word
  lost : Word → List Word

namespace Layout

def order (ly : Layout) : List Word := ly.front ++ ly.back

def bufctls (ly : Layout) (sp : Word) : List Word := ly.free sp ++ ly.used sp

end Layout

/-- A slab whose list holds `free`, whose other bufctls are `used`, and which has lost the chunks in
`lost`. -/
structure SlabOk (g : Geom) (s : State) (sp : Word) (free used lost : List Word) : Prop where
  cache : (s.slabs sp).slabCache = g.cp
  span : g.SpanOk (s.slabs sp)
  header : g.hash = false → g.umemSlab (s.slabs sp).slabBase = sp
  chain : Chain (s.freeLink g) (ptr (s.slabs sp).slabHead) free
  tiles : ((free ++ used).map (s.addrOf g) ++ lost).Perm (g.chunkStarts (s.slabs sp))
  refcnt : (s.slabs sp).slabRefcnt = used.length
  bufctl : ∀ bcp ∈ free ++ used, bcp ≠ 0 ∧ p2phase bcp 8 = 0 ∧ s.slabOf g bcp = sp

/-- The buckets of the hash table hold the bufctls with the property, each in its own bucket. -/
def TableOk (g : Geom) (s : State) (entry : Word → Prop) : Prop :=
  ∃ buckets : Nat → List Word, (∀ i, Chain s.hashLink (ptr (s.hashTable i)) (buckets i)) ∧
    ∀ bcp i, bcp ∈ buckets i ↔ entry bcp ∧ i = s.hashIndex g (s.bcAddr bcp)

theorem TableOk.congr {g : Geom} {s : State} {entry entry' : Word → Prop} (h : TableOk g s entry)
    (hentry : ∀ bcp, entry bcp ↔ entry' bcp) : TableOk g s entry' := by
  obtain ⟨buckets, hchain, hmem⟩ := h
  refine ⟨buckets, hchain, ?_⟩
  intro bcp i
  rw [hmem, hentry]

theorem TableOk.congr_state {g : Geom} {s s' : State} {entry : Word → Prop} (h : TableOk g s entry)
    (htable : s'.hashTable = s.hashTable) (hmask : s'.hashMask = s.hashMask)
    (hnext : ∀ bcp, entry bcp → s'.bcNext bcp = s.bcNext bcp)
    (haddr : ∀ bcp, entry bcp → s'.bcAddr bcp = s.bcAddr bcp) : TableOk g s' entry := by
  obtain ⟨buckets, hchain, hmem⟩ := h
  refine ⟨buckets, ?_, ?_⟩
  · intro i
    rw [htable]
    apply (hchain i).congr
    intro bcp hb
    rw [State.hashLink, State.hashLink, hnext bcp ((hmem bcp i).mp hb).1]
  · intro bcp i
    rw [hmem]
    apply and_congr_right
    intro hentry
    rw [State.hashIndex, State.hashIndex, hmask, haddr bcp hentry]

def ColorOk (g : Geom) (color : Word) : Prop :=
  color.toNat ≤ g.maxcolor.toNat ∧ (g.hash = false → 8 ∣ color.toNat)

/-- Two spans do not meet. -/
def Apart (g : Geom) (a b : UmemSlab) : Prop :=
  g.spanStart a + g.slabsize.toNat ≤ g.spanStart b ∨ g.spanStart b + g.slabsize.toNat ≤ g.spanStart a

/-- The bufctls of a slab. Without a hash table they are in its chunks. -/
def Owns (g : Geom) (s : State) (ly : Layout) (sp bcp : Word) : Prop :=
  if g.hash then bcp ∈ ly.bufctls sp else bcp - g.bufctl ∈ g.chunkStarts (s.slabs sp)

structure Inv (g : Geom) (s : State) (ly : Layout) : Prop where
  cycle : s.links.Cycle g.nullslab ly.order
  live_perm : s.live.Perm (ly.order ++ (s.built ++ s.dying))
  live_nodup : s.live.Nodup
  null_notMem : g.nullslab ∉ s.live
  null_head : (s.slabs g.nullslab).slabHead = 0
  freelist : s.freelist = ly.back.headD g.nullslab
  back : ∀ sp ∈ ly.back, ly.free sp ≠ []
  slab : ∀ sp ∈ s.live, SlabOk g s sp (ly.free sp) (ly.used sp) (ly.lost sp)
  intact : ∀ sp ∈ s.built, ly.lost sp = []
  apart : ∀ sp ∈ s.live, ∀ sp' ∈ s.live, sp ≠ sp' → Apart g (s.slabs sp) (s.slabs sp')
  unused : ∀ sp ∈ s.built ++ s.dying, ly.used sp = []
  bufctls : ∀ bcp, bcp ∈ s.bufctls ↔ ∃ sp ∈ s.live, Owns g s ly sp bcp
  held : ∀ buf, buf ∈ s.held ↔ ∃ sp ∈ s.live, ∃ bcp ∈ ly.used sp, s.addrOf g bcp = buf
  held_nodup : s.held.Nodup
  total : s.buftotal = (ly.order.map fun sp => (s.slabs sp).slabChunks).sum
  colors : ∀ c ∈ s.color :: s.coloured, ColorOk g c
  table : g.hash = true → TableOk g s fun bcp => ∃ sp ∈ s.live, bcp ∈ ly.used sp

theorem Apart.congr {g : Geom} {a b a' b' : UmemSlab} (h : Apart g a b)
    (ha : a'.slabBase = a.slabBase) (hb : b'.slabBase = b.slabBase) : Apart g a' b' := by
  unfold Apart Geom.spanStart at h ⊢
  rwa [ha, hb]

section
variable {g : Geom} {a b : UmemSlab} {c : Word}

theorem Geom.SpanOk.congr (h : g.SpanOk a) (hbase : b.slabBase = a.slabBase)
    (hchunks : b.slabChunks = a.slabChunks) : g.SpanOk b := by
  obtain ⟨hpos, hfits, hbound⟩ := h
  refine ⟨?_, ?_, ?_⟩
  · rwa [hchunks]
  · rwa [hbase, hchunks]
  · rw [Geom.spanStart] at hbound ⊢
    rwa [hbase]

theorem Geom.SpanOk.umemSlab_ne (h : g.SpanOk a) (h' : g.SpanOk b) (hhash : g.hash = false)
    (hapart : Apart g a b) : g.umemSlab a.slabBase ≠ g.umemSlab b.slabBase := by
  intro heq
  have hfits := h.fits
  have hfits' := h'.fits
  have hval := congrArg BitVec.toNat heq
  rw [h.toNat_umemSlab hhash h.base_in_span.1 h.base_in_span.2,
    h'.toNat_umemSlab hhash h'.base_in_span.1 h'.base_in_span.2] at hval
  rw [hhash] at hfits hfits'
  simp only [Bool.false_eq_true, if_false] at hfits hfits'
  have hpos : 0 < sizeofSlab := by decide
  rcases hapart with hle | hle <;> omega

theorem Geom.SpanOk.chunk_notMem (h : g.SpanOk a) (h' : g.SpanOk b) (hapart : Apart g a b)
    (hc : c ∈ g.chunkStarts a) : c ∉ g.chunkStarts b := by
  intro hc'
  have hin := h.chunk_in_span hc
  have hin' := h'.chunk_in_span hc'
  have hpos := g.chunksize_pos
  rcases hapart with hle | hle <;> omega

end

section
variable {w v : Word}

@[simp]
theorem ptr_zero : ptr 0 = none := rfl

theorem ptr_eq_none_iff : ptr w = none ↔ w = 0 := by
  unfold ptr
  split <;> simp_all

theorem ptr_eq_some_iff : ptr w = some v ↔ w = v ∧ v ≠ 0 := by
  unfold ptr
  split
  · constructor
    · intro h
      simp at h
    · rintro ⟨rfl, hv⟩
      contradiction
  · constructor
    · intro h
      cases h
      exact ⟨rfl, by assumption⟩
    · rintro ⟨rfl, -⟩
      rfl

theorem ptr_of_ne (h : w ≠ 0) : ptr w = some w := if_neg h

end

theorem State.setSlab_self (s : State) (sp : Word) (f : UmemSlab → UmemSlab) :
    (s.setSlab sp f).slabs sp = f (s.slabs sp) := Function.update_self _ _ _

theorem State.setSlab_of_ne (s : State) {sp sp' : Word} (f : UmemSlab → UmemSlab) (h : sp' ≠ sp) :
    (s.setSlab sp f).slabs sp' = s.slabs sp' := Function.update_of_ne h _ _

namespace SlabOk
variable {g : Geom} {s s' : State} {sp bcp : Word} {free used lost : List Word}
section
variable (h : SlabOk g s sp free used lost)
include h

theorem congr (hcache : (s'.slabs sp).slabCache = (s.slabs sp).slabCache)
    (hbase : (s'.slabs sp).slabBase = (s.slabs sp).slabBase)
    (hhead : (s'.slabs sp).slabHead = (s.slabs sp).slabHead)
    (hrefcnt : (s'.slabs sp).slabRefcnt = (s.slabs sp).slabRefcnt)
    (hchunks : (s'.slabs sp).slabChunks = (s.slabs sp).slabChunks)
    (hlink : ∀ b ∈ free, s'.freeLink g b = s.freeLink g b)
    (haddr : ∀ b ∈ free ++ used, s'.addrOf g b = s.addrOf g b)
    (hslab : ∀ b ∈ free ++ used, s'.slabOf g b = s.slabOf g b) : SlabOk g s' sp free used lost where
  cache := hcache.trans h.cache
  span := h.span.congr hbase hchunks
  header hhash := by
    rw [hbase]
    exact h.header hhash
  chain := by
    rw [hhead]
    exact h.chain.congr hlink
  tiles := by
    rw [map_congr_left haddr, Geom.chunkStarts, hbase, hchunks]
    exact h.tiles
  refcnt := hrefcnt.trans h.refcnt
  bufctl b hb := by
    rw [hslab b hb]
    exact h.bufctl b hb

theorem addr_nodup : ((free ++ used).map (s.addrOf g)).Nodup :=
  (nodup_append.mp (h.tiles.nodup_iff.mpr h.span.chunkStarts_nodup)).1

theorem bufctl_nodup : (free ++ used).Nodup := h.addr_nodup.of_map

theorem addr_mem (hb : bcp ∈ free ++ used) : s.addrOf g bcp ∈ g.chunkStarts (s.slabs sp) :=
  h.tiles.mem_iff.mp (mem_append_left _ (mem_map_of_mem hb))

theorem length_add : free.length+used.length+lost.length = (s.slabs sp).slabChunks := by
  have := h.tiles.length_eq
  simpa [Geom.chunkStarts, Geom.chunksFrom, Nat.add_assoc] using this

theorem head_eq_zero_iff : (s.slabs sp).slabHead = 0 ↔ free = [] := by
  have hchain := h.chain
  cases free with
  | nil => exact iff_of_true (ptr_eq_none_iff.mp hchain) rfl
  | cons b free =>
    have hhead := (ptr_eq_some_iff.mp hchain.1)
    exact iff_of_false (fun h0 => hhead.2 (hhead.1 ▸ h0)) (by simp)

end
end SlabOk

namespace Inv
variable {g : Geom} {s : State} {ly : Layout} {sp sp' bcp bcp' buf : Word}
section
variable (h : Inv g s ly)
include h

theorem mem_live_of_order (hsp : sp ∈ ly.order) : sp ∈ s.live :=
  h.live_perm.mem_iff.mpr (mem_append_left _ hsp)

theorem mem_live_of_back (hsp : sp ∈ ly.back) : sp ∈ s.live :=
  h.mem_live_of_order (mem_append_right _ hsp)

theorem mem_live_of_private (hsp : sp ∈ s.built ++ s.dying) : sp ∈ s.live :=
  h.live_perm.mem_iff.mpr (mem_append_right _ hsp)

theorem slab_unique (hsp : sp ∈ s.live) (hsp' : sp' ∈ s.live) (hb : bcp ∈ ly.bufctls sp)
    (hb' : bcp ∈ ly.bufctls sp') : sp = sp' :=
  ((h.slab sp hsp).bufctl bcp hb).2.2.symm.trans ((h.slab sp' hsp').bufctl bcp hb').2.2

theorem chunk_unique (hsp : sp ∈ s.live) (hsp' : sp' ∈ s.live)
    (hbuf : buf ∈ g.chunkStarts (s.slabs sp)) (hbuf' : buf ∈ g.chunkStarts (s.slabs sp')) :
    sp = sp' := by
  by_contra hne
  exact (h.slab sp hsp).span.chunk_notMem (h.slab sp' hsp').span (h.apart sp hsp sp' hsp' hne) hbuf
    hbuf'

theorem addr_injective (hsp : sp ∈ s.live) (hsp' : sp' ∈ s.live) (hb : bcp ∈ ly.bufctls sp)
    (hb' : bcp' ∈ ly.bufctls sp') (heq : s.addrOf g bcp = s.addrOf g bcp') : bcp = bcp' := by
  have hok := h.slab sp hsp
  have hmem' := (h.slab sp' hsp').addr_mem hb'
  rw [← heq] at hmem'
  obtain rfl := h.chunk_unique hsp hsp' (hok.addr_mem hb) hmem'
  exact inj_on_of_nodup_map hok.addr_nodup hb hb' heq

theorem free_notUsed (hsp : sp ∈ s.live) (hsp' : sp' ∈ s.live) (hb : bcp ∈ ly.free sp) :
    bcp ∉ ly.used sp' := by
  intro hb'
  obtain rfl := h.slab_unique hsp hsp' (mem_append_left _ hb) (mem_append_right _ hb')
  exact (nodup_append.mp (h.slab sp hsp).bufctl_nodup).2.2 bcp hb bcp hb' rfl

theorem free_notHeld (hsp : sp ∈ s.live) (hb : bcp ∈ ly.free sp) : s.addrOf g bcp ∉ s.held := by
  intro hheld
  obtain ⟨sp', hsp', bcp', hb', heq⟩ := (h.held _).mp hheld
  obtain rfl := h.addr_injective hsp' hsp (mem_append_right _ hb') (mem_append_left _ hb) heq
  exact h.free_notUsed hsp hsp' hb hb'

theorem owns (hsp : sp ∈ s.live) (hb : bcp ∈ ly.bufctls sp) : Owns g s ly sp bcp := by
  unfold Owns
  split
  · exact hb
  · rename_i hhash
    have hmem := (h.slab sp hsp).addr_mem hb
    rwa [State.addrOf, if_neg hhash] at hmem

theorem owner_unique (hsp : sp ∈ s.live) (hsp' : sp' ∈ s.live) (hb : Owns g s ly sp bcp)
    (hb' : Owns g s ly sp' bcp) : sp = sp' := by
  unfold Owns at hb hb'
  split at hb
  · rename_i hhash
    rw [if_pos hhash] at hb'
    exact h.slab_unique hsp hsp' hb hb'
  · rename_i hhash
    rw [if_neg hhash] at hb'
    exact h.chunk_unique hsp hsp' hb hb'

theorem mem_order_of_used (hsp : sp ∈ s.live) (hb : bcp ∈ ly.used sp) : sp ∈ ly.order := by
  rcases mem_append.mp (h.live_perm.mem_iff.mp hsp) with hmem | hmem
  · exact hmem
  · rw [h.unused sp hmem] at hb
    simp at hb

theorem notMem_private (hsp : sp ∈ ly.order) : sp ∉ s.built ++ s.dying := by
  have hnd := h.live_perm.nodup_iff.mp h.live_nodup
  intro hmem
  exact (nodup_append.mp hnd).2.2 sp hsp sp hmem rfl

theorem order_nodup : ly.order.Nodup := (nodup_cons.mp h.cycle.nodup).2

theorem ne_null (hsp : sp ∈ s.live) : sp ≠ g.nullslab :=
  fun heq => h.null_notMem (heq ▸ hsp)

theorem length_order_le : ly.order.length ≤ s.buftotal := by
  rw [h.total]
  have hpos : ∀ sp ∈ ly.order, 1 ≤ (s.slabs sp).slabChunks := fun sp hsp =>
    (h.slab sp (h.mem_live_of_order hsp)).span.chunks_pos
  calc ly.order.length = (ly.order.map fun _ => 1).sum := by simp
    _ ≤ (ly.order.map fun sp => (s.slabs sp).slabChunks).sum := sum_le_sum hpos

theorem bookkeeping (color : Word) (wanting : Nat) {coloured : List Word}
    (reclaimList : Option (List Word)) (hcolors : ∀ c ∈ color :: coloured, ColorOk g c) :
    Inv g { s with
      color := color, wanting := wanting, coloured := coloured, reclaimList := reclaimList } ly :=
  { h with
    slab := fun sp hsp => (h.slab sp hsp).congr rfl rfl rfl rfl rfl (fun _ _ => rfl)
      (fun _ _ => rfl) fun _ _ => rfl
    colors := hcolors }

/-- A buffer of one slab changes hands: what is said of the other slabs remains, if the links of their
lists do. -/
theorem change_slab {s' : State} {ly' : Layout} (hsp : sp ∈ ly.order) (hlive : s'.live = s.live)
    (hbuilt : s'.built = s.built) (hdying : s'.dying = s.dying)
    (hbufctls : s'.bufctls = s.bufctls) (htotal : s'.buftotal = s.buftotal)
    (hcolors : s'.color = s.color ∧ s'.coloured = s.coloured)
    (hsame : ∀ sp' ≠ sp, s'.slabs sp' = s.slabs sp')
    (hbase : (s'.slabs sp).slabBase = (s.slabs sp).slabBase)
    (hchunks : (s'.slabs sp).slabChunks = (s.slabs sp).slabChunks)
    (haddr : ∀ b, s'.addrOf g b = s.addrOf g b) (hslabOf : ∀ b, s'.slabOf g b = s.slabOf g b)
    (hlink : ∀ sp' ∈ s.live, sp' ≠ sp → ∀ b ∈ ly.free sp', s'.freeLink g b = s.freeLink g b)
    (hfree : ∀ sp' ≠ sp, ly'.free sp' = ly.free sp')
    (hused : ∀ sp' ≠ sp, ly'.used sp' = ly.used sp')
    (hlost : ∀ sp' ≠ sp, ly'.lost sp' = ly.lost sp')
    (hperm : g.hash = true → (ly'.bufctls sp).Perm (ly.bufctls sp))
    (horder : ly'.order.Perm ly.order)
    (hok : SlabOk g s' sp (ly'.free sp) (ly'.used sp) (ly'.lost sp))
    (hcycle : s'.links.Cycle g.nullslab ly'.order)
    (hfreelist : s'.freelist = ly'.back.headD g.nullslab)
    (hback : ∀ sp ∈ ly'.back, ly'.free sp ≠ [])
    (hheld : ∀ buf, buf ∈ s'.held ↔ ∃ sp ∈ s.live, ∃ bcp ∈ ly'.used sp, s.addrOf g bcp = buf)
    (hnodup : s'.held.Nodup)
    (htable : g.hash = true → TableOk g s' fun bcp => ∃ sp ∈ s.live, bcp ∈ ly'.used sp) :
    Inv g s' ly' := by
  have hslab : ∀ {β : Type} (f : UmemSlab → β), f (s'.slabs sp) = f (s.slabs sp) →
      ∀ sp', f (s'.slabs sp') = f (s.slabs sp') := by
    intro β f hf sp'
    by_cases hne : sp' = sp
    · rw [hne, hf]
    · rw [hsame sp' hne]
  have hstarts : ∀ sp', g.chunkStarts (s'.slabs sp') = g.chunkStarts (s.slabs sp') := by
    intro sp'
    rw [Geom.chunkStarts, hslab UmemSlab.slabBase hbase, hslab UmemSlab.slabChunks hchunks,
      Geom.chunkStarts]
  have howns : ∀ sp' b, Owns g s' ly' sp' b ↔ Owns g s ly sp' b := by
    intro sp' b
    unfold Owns
    split
    · rename_i hhash
      by_cases hne : sp' = sp
      · rw [hne]
        exact (hperm hhash).mem_iff
      · rw [Layout.bufctls, Layout.bufctls, hfree sp' hne, hused sp' hne]
    · rw [hstarts]
  refine
    { cycle := hcycle, live_perm := ?_, live_nodup := hlive ▸ h.live_nodup
      null_notMem := hlive ▸ h.null_notMem, null_head := ?_, freelist := hfreelist, back := hback
      slab := ?_, intact := ?_, apart := ?_, unused := ?_, bufctls := ?_, held := ?_
      held_nodup := hnodup, total := ?_, colors := ?_, table := ?_ }
  · rw [hlive, hbuilt, hdying]
    exact h.live_perm.trans (horder.symm.append_right _)
  · rw [hsame _ (h.ne_null (h.mem_live_of_order hsp)).symm]
    exact h.null_head
  · intro sp' hsp'
    rw [hlive] at hsp'
    by_cases hne : sp' = sp
    · rw [hne]
      exact hok
    · rw [hfree sp' hne, hused sp' hne, hlost sp' hne]
      have heq := hsame sp' hne
      exact (h.slab sp' hsp').congr (congrArg _ heq) (congrArg _ heq) (congrArg _ heq)
        (congrArg _ heq) (congrArg _ heq) (hlink sp' hsp' hne) (fun b _ => haddr b)
        fun b _ => hslabOf b
  · intro sp' hsp'
    rw [hbuilt] at hsp'
    rw [hlost sp' fun heq => h.notMem_private hsp (mem_append_left _ (heq ▸ hsp'))]
    exact h.intact sp' hsp'
  · intro a ha b hb hne
    rw [hlive] at ha hb
    exact (h.apart a ha b hb hne).congr (hslab UmemSlab.slabBase hbase a)
      (hslab UmemSlab.slabBase hbase b)
  · intro sp' hsp'
    rw [hbuilt, hdying] at hsp'
    rw [hused sp' fun heq => h.notMem_private hsp (heq ▸ hsp')]
    exact h.unused sp' hsp'
  · intro b
    simp only [hbufctls, hlive, howns]
    exact h.bufctls b
  · simpa only [hlive, haddr] using hheld
  · rw [htotal, h.total]
    have heq : ∀ l : List Word, (l.map fun sp => (s'.slabs sp).slabChunks) =
        l.map fun sp => (s.slabs sp).slabChunks := fun l =>
      map_congr_left fun sp' _ => hslab UmemSlab.slabChunks hchunks sp'
    rw [heq]
    exact (horder.map _).sum_eq.symm
  · rw [hcolors.1, hcolors.2]
    exact h.colors
  · simpa only [hlive] using htable

theorem restate (sp : Word) {f : UmemSlab → UmemSlab}
    (hf : ∀ sl, ∃ state time, f sl = { sl with slabState := state, slabIdleTime := time }) :
    Inv g (s.setSlab sp f) ly := by
  have hslab : ∀ {β : Type} (field : UmemSlab → β),
      (∀ sl state time,
        field { sl with slabState := state, slabIdleTime := time } = field sl) →
      ∀ sp', field ((s.setSlab sp f).slabs sp') = field (s.slabs sp') := by
    intro β field hfield sp'
    by_cases hne : sp' = sp
    · obtain ⟨state, time, heq⟩ := hf (s.slabs sp)
      rw [hne, State.setSlab_self, heq, hfield]
    · rw [State.setSlab_of_ne s f hne]
  have hbase := hslab UmemSlab.slabBase fun _ _ _ => rfl
  have hchunks := hslab UmemSlab.slabChunks fun _ _ _ => rfl
  have hhead := hslab UmemSlab.slabHead fun _ _ _ => rfl
  refine
    { h with
      null_head := (hhead _).trans h.null_head
      slab := ?_, apart := ?_, bufctls := ?_, total := ?_ }
  · intro sp' hsp'
    exact (h.slab sp' hsp').congr (hslab UmemSlab.slabCache (fun _ _ _ => rfl) sp') (hbase sp')
      (hhead sp') (hslab UmemSlab.slabRefcnt (fun _ _ _ => rfl) sp') (hchunks sp') (fun _ _ => rfl)
      (fun _ _ => rfl) fun _ _ => rfl
  · intro a ha b hb hne
    exact (h.apart a ha b hb hne).congr (hbase a) (hbase b)
  · simp only [Owns, Geom.chunkStarts, hbase, hchunks]
    exact h.bufctls
  · simp only [hchunks]
    exact h.total

end
end Inv
end Libumem.Slab
