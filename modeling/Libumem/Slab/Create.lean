import Libumem.Slab.Take

/-!
# Building, linking and destroying a slab

`umem_slab_create` works on memory that nobody else knows of yet. Its slab is part of the cache as soon
as `umem_slab_alloc` has linked it.
-/

namespace Libumem.Slab
open List Arith Lib
open scoped List
open Function
variable {g : Geom} {s : State} {ly : Layout}

theorem pickColor_inv (h : Inv g s ly) {s' : State} (heq : pickColor g s = some s') :
    Inv g s' ly := by
  obtain ⟨-, heq⟩ := Option.ite_none_left_eq_some.mp heq
  cases heq
  have hcolor : ColorOk g (if g.maxcolor.toNat < (s.color+g.align).toNat then g.mincolor
      else s.color+g.align) := by
    split
    · exact ⟨g.mincolor_le, fun hhash => (g.aligned hhash).2.2.2⟩
    · refine ⟨by omega, fun hhash => ?_⟩
      have hold := (h.colors s.color mem_cons_self).2 hhash
      rw [BitVec.toNat_add]
      exact (Nat.dvd_mod_iff (by norm_num)).mpr (Nat.dvd_add hold (g.aligned hhash).2.2.1)
  apply h.bookkeeping
  intro c hc
  rcases mem_cons.mp hc with rfl | hc
  · exact hcolor
  · rcases mem_cons.mp hc with rfl | hc
    · exact hcolor
    · exact h.colors c (mem_cons_of_mem _ hc)

theorem createFailed_inv (h : Inv g s ly) {color : Word} {s' : State}
    (heq : createFailed s color = some s') : Inv g s' ly := by
  obtain ⟨-, heq⟩ := Option.ite_none_right_eq_some.mp heq
  cases heq
  apply h.bookkeeping s.color s.wanting s.reclaimList
  intro c hc
  apply h.colors
  rcases mem_cons.mp hc with rfl | hc
  · exact mem_cons_self
  · exact mem_cons_of_mem _ (mem_of_mem_erase hc)

variable {sp bcp buf color slab header : Word} {bcs acc : List Word} {n : Nat} {sl : UmemSlab}

/-- One turn of the loop. -/
def oneChunk (g : Geom) (s : State) (sp bcp buf : Word) : State :=
  { s with
    slabs := update s.slabs sp { s.slabs sp with slabHead := bcp }
    bcNext := update s.bcNext bcp (g.linkMangle bcp (s.slabs sp).slabHead)
    bcAddr := if g.hash then update s.bcAddr bcp buf else s.bcAddr
    bcSlab := if g.hash then update s.bcSlab bcp sp else s.bcSlab }

theorem buildChunks_cons : buildChunks g sp (bcp :: bcs) buf s =
    buildChunks g sp bcs (buf+g.chunksize) (oneChunk g s sp bcp buf) := by
  rw [buildChunks, oneChunk]
  cases hhash : g.hash <;> rfl

theorem buildChunks_eq (sp : Word) (bcs : List Word) (buf : Word) (s : State) :
    ∃ head next addr slab, buildChunks g sp bcs buf s = { s with
      slabs := update s.slabs sp { s.slabs sp with slabHead := head }
      bcNext := next
      bcAddr := addr
      bcSlab := slab } := by
  induction bcs generalizing buf s with
  | nil =>
    refine ⟨(s.slabs sp).slabHead, s.bcNext, s.bcAddr, s.bcSlab, ?_⟩
    rw [update_eq_self]
    rfl
  | cons bcp bcs ih =>
    obtain ⟨head, next, addr, slab, heq⟩ := ih (buf+g.chunksize) (oneChunk g s sp bcp buf)
    refine ⟨head, next, addr, slab, ?_⟩
    rw [buildChunks_cons, heq]
    simp only [oneChunk, update_self, update_idem]

theorem buildChunks_outside {b : Word} (sp buf : Word) (s : State) (hb : b ∉ bcs) :
    (buildChunks g sp bcs buf s).bcNext b = s.bcNext b ∧
    (buildChunks g sp bcs buf s).bcAddr b = s.bcAddr b ∧
    (buildChunks g sp bcs buf s).bcSlab b = s.bcSlab b := by
  induction bcs generalizing buf s with
  | nil => exact ⟨rfl, rfl, rfl⟩
  | cons bcp bcs ih =>
    rw [mem_cons, not_or] at hb
    rw [buildChunks_cons]
    obtain ⟨hnext, haddr, hslab⟩ := ih (buf+g.chunksize) (oneChunk g s sp bcp buf) hb.2
    rw [hnext, haddr, hslab, oneChunk]
    dsimp only
    refine ⟨update_of_ne hb.1 _ _, ?_, ?_⟩
    · split
      · exact update_of_ne hb.1 _ _
      · rfl
    · split
      · exact update_of_ne hb.1 _ _
      · rfl

theorem buildChunks_chain (buf : Word) (hnd : bcs.Nodup) (hne : ∀ b ∈ bcs, b ≠ 0)
    (hnew : ∀ b ∈ bcs, b ∉ acc)
    (hacc : Chain (s.freeLink g) (ptr (s.slabs sp).slabHead) acc) :
    Chain ((buildChunks g sp bcs buf s).freeLink g)
      (ptr ((buildChunks g sp bcs buf s).slabs sp).slabHead) (bcs.reverse ++ acc) := by
  induction bcs generalizing buf s acc with
  | nil => exact hacc
  | cons bcp bcs ih =>
    obtain ⟨hnotmem, hnd⟩ := nodup_cons.mp hnd
    rw [reverse_cons, append_assoc, singleton_append, buildChunks_cons]
    apply ih _ hnd
    · exact fun b hb => hne b (mem_cons_of_mem _ hb)
    · intro b hb hmem
      rcases mem_cons.mp hmem with rfl | hmem
      · exact hnotmem hb
      · exact hnew b (mem_cons_of_mem _ hb) hmem
    · have hhead : ((oneChunk g s sp bcp buf).slabs sp).slabHead = bcp := by
        rw [oneChunk]
        dsimp only
        rw [update_self]
      have hself : (oneChunk g s sp bcp buf).freeLink g bcp = ptr (s.slabs sp).slabHead := by
        rw [State.freeLink, oneChunk]
        dsimp only
        rw [update_self, Geom.linkMangle_linkMangle]
      rw [hhead]
      refine ⟨ptr_of_ne (hne bcp mem_cons_self), ?_⟩
      rw [hself]
      apply hacc.congr
      intro b hb
      have hne : b ≠ bcp := fun heq => hnew bcp mem_cons_self (heq ▸ hb)
      rw [State.freeLink, State.freeLink, oneChunk]
      dsimp only
      rw [update_of_ne hne]

theorem Geom.chunksFrom_succ (base : Word) (n : Nat) :
    g.chunksFrom base (n+1) = base :: g.chunksFrom (base+g.chunksize) n := by
  unfold Geom.chunksFrom
  rw [range_succ_eq_map, map_cons, map_map, Nat.zero_mul]
  refine congrArg₂ _ (BitVec.add_zero base) (map_congr_left ?_)
  intro i _
  have hmul : BitVec.ofNat 64 ((i+1) * g.chunksize.toNat) =
      g.chunksize+BitVec.ofNat 64 (i * g.chunksize.toNat) := by
    rw [Nat.add_mul, Nat.one_mul, Nat.add_comm, BitVec.ofNat_add, BitVec.ofNat_toNat,
      BitVec.setWidth_eq]
  rw [comp_apply, Nat.succ_eq_add_one, hmul, BitVec.add_assoc]

theorem buildChunks_addr (hhash : g.hash = true) (hnd : bcs.Nodup) (sp buf : Word) (s : State) :
    bcs.map (buildChunks g sp bcs buf s).bcAddr = g.chunksFrom buf bcs.length ∧
      ∀ b ∈ bcs, (buildChunks g sp bcs buf s).bcSlab b = sp := by
  induction bcs generalizing buf s with
  | nil => exact ⟨rfl, by simp⟩
  | cons bcp bcs ih =>
    obtain ⟨hnotmem, hnd⟩ := nodup_cons.mp hnd
    obtain ⟨htail, htailSlab⟩ := ih hnd (buf+g.chunksize) (oneChunk g s sp bcp buf)
    rw [buildChunks_cons]
    refine ⟨?_, ?_⟩
    · rw [map_cons, length_cons, Geom.chunksFrom_succ, htail,
        (buildChunks_outside _ _ _ hnotmem).2.1, oneChunk]
      dsimp only
      rw [if_pos hhash, update_self]
    · intro b hb
      rcases mem_cons.mp hb with rfl | hb
      · rw [(buildChunks_outside _ _ _ hnotmem).2.2, oneChunk]
        dsimp only
        rw [if_pos hhash, update_self]
      · exact htailSlab b hb

theorem Delivered.span {s : State} (hd : Delivered g s slab sp bcs n) (hcolor : ColorOk g color)
    {sl : UmemSlab} (hbase : sl.slabBase = slab+color)
    (hchunks : sl.slabChunks = g.chunksFor color) :
    g.spanStart sl = slab.toNat ∧ sl.slabBase.toNat = slab.toNat+color.toNat ∧ g.SpanOk sl := by
  obtain ⟨hphase, -, hbound, -⟩ := hd
  have hmax := g.maxcolor_lt
  have hle := hcolor.1
  have hfits := g.fits
  have hpos := g.chunksize_pos
  have hquantum : g.quantum.toNat ∣ slab.toNat := by
    rw [← BitVec.toNat_inj, toNat_p2phase _ g.quantum_pow2] at hphase
    exact Nat.dvd_of_mod_eq_zero hphase
  have hval : sl.slabBase.toNat = slab.toNat+color.toNat := by
    rw [hbase, BitVec.toNat_add, Nat.mod_eq_of_lt]
    split at hfits <;> omega
  have hmod : sl.slabBase.toNat % g.quantum.toNat = color.toNat := by
    rw [hval, Nat.add_mod, Nat.mod_eq_zero_of_dvd hquantum, Nat.zero_add, Nat.mod_mod,
      Nat.mod_eq_of_lt (by omega)]
  have hstart : g.spanStart sl = slab.toNat := by
    rw [Geom.spanStart, hmod, hval]
    omega
  refine ⟨hstart, hval, ?_, ?_, ?_⟩
  · rw [hchunks]
    apply Nat.div_pos _ hpos
    omega
  · have := Nat.div_mul_le_self (g.slabsize.toNat-(if g.hash then 0 else sizeofSlab)-color.toNat)
      g.chunksize.toNat
    rw [hmod, hchunks, Geom.chunksFor]
    omega
  · rw [hstart]
    exact hbound

/-- What a new slab needs to become one of the cache. -/
structure Fresh (g : Geom) (s : State) (sl : UmemSlab) (sp : Word) (bcs : List Word) : Prop where
  notMem : sp ∉ s.live
  ne_null : sp ≠ g.nullslab
  span : g.SpanOk sl
  apart : ∀ sp' ∈ s.live, Apart g sl (s.slabs sp')
  header : g.hash = false → g.umemSlab sl.slabBase = sp
  length : bcs.length = sl.slabChunks
  nodup : bcs.Nodup
  bufctl : ∀ b ∈ bcs, b ∉ s.bufctls ∧ b ≠ 0 ∧ p2phase b 8 = 0
  embedded : g.hash = false → bcs = (g.chunkStarts sl).map (· + g.bufctl)

/-- Memory that the arena and the metadata caches have delivered makes a new slab. -/
theorem Inv.fresh (h : Inv g s ly) (hcolor : ColorOk g color)
    (hd : Delivered g s slab (newSlab g slab header) (newBufctls g (slab+color) (g.chunksFor color) bcs)
      (g.chunksFor color)) {sl : UmemSlab} (hbase : sl.slabBase = slab+color)
    (hchunks : sl.slabChunks = g.chunksFor color) :
    Fresh g s sl (newSlab g slab header) (newBufctls g (slab+color) (g.chunksFor color) bcs) := by
  obtain ⟨hstart, hval, hspan⟩ := hd.span hcolor hbase hchunks
  obtain ⟨hphase, hslab0, hbound, hnull, hapart, hmeta⟩ := hd
  have hsize := hspan.fits
  have hsizeof : sizeofSlab = 72 := rfl
  have hapart' : ∀ sp' ∈ s.live, Apart g sl (s.slabs sp') := by
    intro sp' hsp'
    unfold Apart
    rw [hstart]
    exact (hapart sp' hsp').symm
  by_cases hhash : g.hash = true
  · obtain ⟨hnew, hne, hlen, hnd, hbcs⟩ := hmeta hhash
    exact ⟨hnew, hne, hspan, hapart', fun h0 => by simp [hhash] at h0, hlen.trans hchunks.symm, hnd,
      hbcs, fun h0 => by simp [hhash] at h0⟩
  · have hembedded : g.hash = false := by simpa using hhash
    have hslabpos : 0 < slab.toNat := by
      rw [Nat.pos_iff_ne_zero]
      exact fun h0 => hslab0 (BitVec.toNat_inj.mp h0)
    have hheader : newSlab g slab header = g.umemSlab slab := if_neg hhash
    have hbufctls : newBufctls g (slab+color) (g.chunksFor color) bcs =
        (g.chunkStarts sl).map (· + g.bufctl) := by
      rw [newBufctls, if_neg hhash, Geom.chunkStarts, hbase, hchunks]
    rw [hheader, hbufctls]
    rw [if_neg hhash] at hsize
    have hsp : (g.umemSlab slab).toNat = slab.toNat+g.slabsize.toNat-sizeofSlab := by
      rw [hspan.toNat_umemSlab hembedded (by omega) (by omega), hstart]
    refine ⟨?_, ?_, hspan, hapart', ?_, ?_, ?_, ?_, fun _ => rfl⟩
    · intro hlive
      have hok := h.slab _ hlive
      apply hspan.umemSlab_ne hok.span hembedded (hapart' _ hlive)
      rw [hok.header hembedded, ← BitVec.toNat_inj, hsp,
        hspan.toNat_umemSlab hembedded hspan.base_in_span.1 hspan.base_in_span.2, hstart]
    · intro heq
      rw [heq] at hsp
      omega
    · intro _
      rw [← BitVec.toNat_inj, hsp,
        hspan.toNat_umemSlab hembedded hspan.base_in_span.1 hspan.base_in_span.2, hstart]
    · rw [length_map, Geom.chunkStarts, Geom.chunksFrom, length_map, length_range]
    · exact hspan.chunkStarts_nodup.map fun a b heq => add_right_cancel heq
    · intro b hb
      obtain ⟨c, hc, rfl⟩ := mem_map.mp hb
      have hin := hspan.chunk_in_span hc
      have hle := g.bufctl_le hembedded
      have hsum : (c+g.bufctl).toNat = c.toNat+g.bufctl.toNat := by
        rw [BitVec.toNat_add, Nat.mod_eq_of_lt]
        omega
      refine ⟨?_, ?_, ?_⟩
      · intro hmem
        obtain ⟨sp', hsp', hc'⟩ := (h.bufctls _).mp hmem
        rw [Owns, if_neg hhash, add_sub_cancel_right] at hc'
        exact hspan.chunk_notMem (h.slab sp' hsp').span (hapart' sp' hsp') hc hc'
      · intro h0
        have hzero : (c+g.bufctl).toNat = 0 := congrArg BitVec.toNat h0
        omega
      · obtain ⟨hdvd, hdvd', -⟩ := g.aligned hembedded
        have h8 : IsPow2 (8 : Word) := ⟨3, by decide, rfl⟩
        have hquantum : 8 ∣ g.quantum.toNat := by
          apply h8.dvd_of_le g.quantum_pow2
          rw [← g.slabsize_eq hembedded]
          have : (8 : Word).toNat = 8 := rfl
          have := Nat.le_mul_of_pos_left g.chunksize.toNat hspan.chunks_pos
          omega
        have hslab8 : 8 ∣ slab.toNat := by
          rw [← hstart]
          exact hquantum.trans (g.spanStart_dvd sl)
        obtain ⟨i, hi, rfl⟩ := Geom.mem_chunksFrom.mp hc
        rw [← BitVec.toNat_inj, toNat_p2phase _ h8, hsum, hspan.toNat_chunk hi, hval]
        apply Nat.mod_eq_zero_of_dvd
        exact Nat.dvd_add (Nat.dvd_add (Nat.dvd_add hslab8 (hcolor.2 hembedded))
          (hdvd.mul_left i)) hdvd'

/-- A slab joins those that are built, with all its bufctls on its list. -/
def Layout.build (ly : Layout) (sp : Word) (bcs : List Word) : Layout :=
  { ly with
    free := update ly.free sp bcs.reverse
    used := update ly.used sp []
    lost := update ly.lost sp [] }

/-- The new slab, after the loop. -/
theorem Fresh.slabOk (hfresh : Fresh g s sl sp bcs) (hcache : sl.slabCache = g.cp)
    (hhead : sl.slabHead = 0) (hrefcnt : sl.slabRefcnt = 0) {s₀ : State} (hs₀ : s₀.slabs sp = sl) :
    SlabOk g (buildChunks g sp bcs sl.slabBase s₀) sp bcs.reverse [] [] := by
  have hacc : Chain (s₀.freeLink g) (ptr (s₀.slabs sp).slabHead) [] := by
    rw [hs₀, hhead]
    rfl
  have hchain := buildChunks_chain sl.slabBase hfresh.nodup
    (fun b hb => (hfresh.bufctl b hb).2.1) (by simp) hacc
  have hslab : ∃ head,
      (buildChunks g sp bcs sl.slabBase s₀).slabs sp = { sl with slabHead := head } := by
    obtain ⟨head, next, addr, slab, hloop⟩ := buildChunks_eq (g := g) sp bcs sl.slabBase s₀
    refine ⟨head, ?_⟩
    rw [hloop]
    dsimp only
    rw [update_self, hs₀]
  have haddr : bcs.map ((buildChunks g sp bcs sl.slabBase s₀).addrOf g) = g.chunkStarts sl := by
    by_cases hhash : g.hash = true
    · have := (buildChunks_addr hhash hfresh.nodup sp sl.slabBase s₀).1
      rw [Geom.chunkStarts, ← hfresh.length, ← this]
      exact map_congr_left fun b _ => if_pos hhash
    · rw [hfresh.embedded (by simpa using hhash), map_map]
      conv_rhs => rw [← map_id (g.chunkStarts sl)]
      apply map_congr_left
      intro c _
      rw [comp_apply, State.addrOf, if_neg hhash, add_sub_cancel_right, id]
  obtain ⟨head, hslab⟩ := hslab
  refine ⟨?_, ?_, ?_, ?_, ?_, ?_, ?_⟩
  · rw [hslab]
    exact hcache
  · rw [hslab]
    exact ⟨hfresh.span.chunks_pos, hfresh.span.fits, hfresh.span.bound⟩
  · rw [hslab]
    exact hfresh.header
  · rw [append_nil] at hchain
    exact hchain
  · rw [append_nil, append_nil, hslab, map_reverse, haddr]
    exact reverse_perm _
  · rw [hslab]
    exact hrefcnt
  · intro b hb
    rw [append_nil, mem_reverse] at hb
    refine ⟨(hfresh.bufctl b hb).2.1, (hfresh.bufctl b hb).2.2, ?_⟩
    by_cases hhash : g.hash = true
    · rw [State.slabOf, if_pos hhash]
      exact (buildChunks_addr hhash hfresh.nodup sp sl.slabBase s₀).2 b hb
    · have hembedded : g.hash = false := by simpa using hhash
      rw [hfresh.embedded hembedded] at hb
      obtain ⟨c, hc, rfl⟩ := mem_map.mp hb
      rw [State.slabOf, if_neg hhash, add_sub_cancel_right,
        hfresh.span.umemSlab_chunk hembedded hc, hfresh.header hembedded]

theorem mem_map_bufctl {l : List Word} {b : Word} : b ∈ l.map (· + g.bufctl) ↔ b-g.bufctl ∈ l := by
  rw [mem_map]
  constructor
  · rintro ⟨c, hc, rfl⟩
    rwa [add_sub_cancel_right]
  · exact fun hb => ⟨_, hb, sub_add_cancel _ _⟩

/-- What `umem_slab_create` does: the slab `sp` with the bufctls `bcs` is new, and the rest of the cache
is as it was. -/
structure SlabCreated (g : Geom) (s s' : State) (color base sp : Word) (bcs : List Word) : Prop where
  fresh : Fresh g s ⟨g.cp, base, 0, 0, g.chunksFor color, .active, 0⟩ sp bcs
  ok : SlabOk g s' sp bcs.reverse [] []
  self : ∃ head, s'.slabs sp = ⟨g.cp, base, head, 0, g.chunksFor color, .active, 0⟩
  others : ∀ sp' ≠ sp, s'.slabs sp' = s.slabs sp'
  outside : ∀ b ∉ bcs,
    s'.bcNext b = s.bcNext b ∧ s'.bcAddr b = s.bcAddr b ∧ s'.bcSlab b = s.bcSlab b
  rest : ∃ slabs next addr slabp, s' = { s with
    slabs := slabs, bcNext := next, bcAddr := addr, bcSlab := slabp
    coloured := s.coloured.erase color, built := sp :: s.built, live := sp :: s.live
    bufctls := bcs ++ s.bufctls }

theorem umemSlabCreate_created (h : Inv g s ly) {bufctls : List Word} {s' : State}
    (heq : umemSlabCreate g s color slab header bufctls = some s') :
    SlabCreated g s s' color (slab+color) (newSlab g slab header)
      (newBufctls g (slab+color) (g.chunksFor color) bufctls) := by
  unfold umemSlabCreate at heq
  dsimp only at heq
  split at heq
  case isFalse => simp at heq
  rename_i hcond
  obtain ⟨hcolor, hd⟩ := hcond
  have hstate := (Option.some.inj heq).symm
  have hfresh : Fresh g s ⟨g.cp, slab+color, 0, 0, g.chunksFor color, .active, 0⟩ _ _ :=
    h.fresh (h.colors color (mem_cons_of_mem _ hcolor)) hd rfl rfl
  clear heq hd
  generalize newSlab g slab header = sp at *
  generalize newBufctls g (slab+color) (g.chunksFor color) bufctls = bcs at *
  set s₀ : State := { s with coloured := s.coloured.erase color }.setSlab sp
    fun _ => ⟨g.cp, slab+color, 0, 0, g.chunksFor color, .active, 0⟩ with hs₀
  have hok := hfresh.slabOk rfl rfl rfl (State.setSlab_self _ _ _ : s₀.slabs sp = _)
  have hout : ∀ b ∉ bcs, _ := fun b hb => buildChunks_outside (g := g) sp (slab+color) s₀ hb
  obtain ⟨head, next, addr, slabp, hloop⟩ := buildChunks_eq (g := g) sp bcs (slab+color) s₀
  subst hstate
  refine ⟨hfresh, ?_, ⟨head, ?_⟩, ?_, fun b hb => hout b hb, ?_⟩
  · exact hok.congr rfl rfl rfl rfl rfl (fun _ _ => rfl) (fun _ _ => rfl) fun _ _ => rfl
  · rw [hloop]
    dsimp only
    rw [update_self, hs₀, State.setSlab_self]
  · intro sp' hne
    rw [hloop]
    dsimp only
    rw [update_of_ne hne, hs₀, State.setSlab_of_ne _ _ hne]
  · rw [hloop]
    exact ⟨_, _, _, _, rfl⟩

namespace SlabCreated
variable {s' : State} {base sp' b : Word}
section
variable (hc : SlabCreated g s s' color base sp bcs)
include hc

theorem live_eq : s'.live = sp :: s.live := by
  obtain ⟨_, _, _, _, rfl⟩ := hc.rest
  rfl

theorem ne_of_live (hsp' : sp' ∈ s.live) : sp' ≠ sp := fun heq => hc.fresh.notMem (heq ▸ hsp')

theorem build_eq (ly : Layout) (hsp' : sp' ∈ s.live) : (ly.build sp bcs).free sp' = ly.free sp' ∧
    (ly.build sp bcs).used sp' = ly.used sp' ∧ (ly.build sp bcs).lost sp' = ly.lost sp' :=
  have hne := hc.ne_of_live hsp'
  ⟨update_of_ne hne _ _, update_of_ne hne _ _, update_of_ne hne _ _⟩

/-- No bufctl of the new slab is in use. -/
theorem mem_used : (∃ sp' ∈ s'.live, b ∈ (ly.build sp bcs).used sp') ↔
    ∃ sp' ∈ s.live, b ∈ ly.used sp' := by
  rw [hc.live_eq]
  constructor
  · rintro ⟨sp', hsp', hb⟩
    rcases mem_cons.mp hsp' with rfl | hsp'
    · rw [Layout.build] at hb
      simp at hb
    · exact ⟨sp', hsp', (hc.build_eq ly hsp').2.1 ▸ hb⟩
  · rintro ⟨sp', hsp', hb⟩
    exact ⟨sp', mem_cons_of_mem _ hsp', (hc.build_eq ly hsp').2.1.symm ▸ hb⟩

theorem owns_self : Owns g s' (ly.build sp bcs) sp b ↔ b ∈ bcs := by
  obtain ⟨head, hself⟩ := hc.self
  unfold Owns
  split
  · simp [Layout.bufctls, Layout.build]
  · rename_i hhash
    conv_rhs => rw [hc.fresh.embedded (by simpa using hhash), mem_map_bufctl]
    rw [hself]
    rfl

theorem owns_iff (hsp' : sp' ∈ s.live) :
    Owns g s' (ly.build sp bcs) sp' b ↔ Owns g s ly sp' b := by
  obtain ⟨hfree, hused, -⟩ := hc.build_eq ly hsp'
  rw [Owns, Owns, hc.others sp' (hc.ne_of_live hsp'), Layout.bufctls, hfree, hused, Layout.bufctls]

theorem mem_bufctls (h : Inv g s ly) :
    b ∈ s'.bufctls ↔ ∃ sp' ∈ s'.live, Owns g s' (ly.build sp bcs) sp' b := by
  have hbufctls : s'.bufctls = bcs ++ s.bufctls := by
    obtain ⟨_, _, _, _, rfl⟩ := hc.rest
    rfl
  rw [hbufctls, hc.live_eq, mem_append, h.bufctls]
  constructor
  · rintro (hb | ⟨sp', hsp', hb⟩)
    · exact ⟨sp, mem_cons_self, hc.owns_self.mpr hb⟩
    · exact ⟨sp', mem_cons_of_mem _ hsp', (hc.owns_iff hsp').mpr hb⟩
  · rintro ⟨sp', hsp', hb⟩
    rcases mem_cons.mp hsp' with rfl | hsp'
    · exact .inl (hc.owns_self.mp hb)
    · exact .inr ⟨sp', hsp', (hc.owns_iff hsp').mp hb⟩

theorem apart (h : Inv g s ly) {a : Word} (ha : a ∈ s'.live) (hb : b ∈ s'.live) (hab : a ≠ b) :
    Apart g (s'.slabs a) (s'.slabs b) := by
  obtain ⟨head, hself⟩ := hc.self
  have hother := fun {sp'} hsp' => hc.others sp' (hc.ne_of_live hsp')
  have hapart : ∀ sp' ∈ s.live, Apart g (s'.slabs sp) (s'.slabs sp') := fun sp' hsp' =>
    (hc.fresh.apart sp' hsp').congr (by rw [hself]) (by rw [hother hsp'])
  rw [hc.live_eq, mem_cons] at ha hb
  rcases ha with rfl | ha
  · exact hapart b (hb.resolve_left hab.symm)
  · rcases hb with rfl | hb
    · exact (hapart a ha).symm
    · rw [hother ha, hother hb]
      exact h.apart a ha b hb hab

end

section
variable (h : Inv g s ly) (hc : SlabCreated g s s' color base sp bcs)
include h hc

theorem same (hsp' : sp' ∈ s.live) (hb : b ∈ ly.bufctls sp') :
    s'.bcNext b = s.bcNext b ∧ s'.bcAddr b = s.bcAddr b ∧ s'.bcSlab b = s.bcSlab b :=
  hc.outside b fun hmem =>
    (hc.fresh.bufctl b hmem).1 ((h.bufctls b).mpr ⟨sp', hsp', h.owns hsp' hb⟩)

theorem slabOk (hsp' : sp' ∈ s.live) :
    SlabOk g s' sp' (ly.free sp') (ly.used sp') (ly.lost sp') := by
  have heq := hc.others sp' (hc.ne_of_live hsp')
  apply (h.slab sp' hsp').congr (congrArg _ heq) (congrArg _ heq) (congrArg _ heq) (congrArg _ heq)
    (congrArg _ heq)
  · intro b hb
    rw [State.freeLink, State.freeLink, (hc.same h hsp' (mem_append_left _ hb)).1]
  · intro b hb
    rw [State.addrOf, State.addrOf, (hc.same h hsp' hb).2.1]
  · intro b hb
    rw [State.slabOf, State.slabOf, (hc.same h hsp' hb).2.2]

theorem mem_held {buf : Word} : buf ∈ s'.held ↔
    ∃ sp' ∈ s'.live, ∃ b ∈ (ly.build sp bcs).used sp', s'.addrOf g b = buf := by
  have hheld : s'.held = s.held := by
    obtain ⟨_, _, _, _, rfl⟩ := hc.rest
    rfl
  have haddr : ∀ sp' ∈ s.live, ∀ b ∈ ly.used sp', s'.addrOf g b = s.addrOf g b := by
    intro sp' hsp' b hb
    rw [State.addrOf, State.addrOf, (hc.same h hsp' (mem_append_right _ hb)).2.1]
  rw [hheld, h.held]
  constructor
  · rintro ⟨sp', hsp', b, hb, rfl⟩
    obtain ⟨sp'', hsp'', hb'⟩ := hc.mem_used.mpr ⟨sp', hsp', hb⟩
    exact ⟨sp'', hsp'', b, hb', haddr sp' hsp' b hb⟩
  · rintro ⟨sp', hsp', b, hb, rfl⟩
    obtain ⟨sp'', hsp'', hb'⟩ := hc.mem_used.mp ⟨sp', hsp', hb⟩
    exact ⟨sp'', hsp'', b, hb', (haddr sp'' hsp'' b hb').symm⟩

theorem inv : Inv g s' (ly.build sp bcs) := by
  obtain ⟨slabs, next, addr, slabp, hstate⟩ := hc.rest
  have hsame : ∀ sp' ∈ s.live, s'.slabs sp' = s.slabs sp' := fun sp' hsp' =>
    hc.others sp' (hc.ne_of_live hsp')
  have hprivate : s'.built ++ s'.dying = sp :: (s.built ++ s.dying) := hstate ▸ rfl
  refine
    { cycle := hstate ▸ h.cycle, live_perm := ?_, live_nodup := ?_, null_notMem := ?_
      null_head := ?_, freelist := hstate ▸ h.freelist, back := ?_, slab := ?_, intact := ?_
      apart := fun a ha b hb => hc.apart h ha hb, unused := ?_, bufctls := fun b => hc.mem_bufctls h
      held := fun buf => hc.mem_held h, held_nodup := hstate ▸ h.held_nodup, total := ?_
      colors := ?_, table := ?_ }
  · rw [hc.live_eq, hprivate]
    exact (h.live_perm.cons sp).trans perm_middle.symm
  · rw [hc.live_eq]
    exact nodup_cons.mpr ⟨hc.fresh.notMem, h.live_nodup⟩
  · rw [hc.live_eq, mem_cons, not_or]
    exact ⟨hc.fresh.ne_null.symm, h.null_notMem⟩
  · rw [hc.others _ hc.fresh.ne_null.symm]
    exact h.null_head
  · intro sp' hsp'
    rw [(hc.build_eq ly (h.mem_live_of_back hsp')).1]
    exact h.back sp' hsp'
  · intro sp' hsp'
    rw [hc.live_eq] at hsp'
    rcases mem_cons.mp hsp' with rfl | hsp'
    · simp only [Layout.build, update_self]
      exact hc.ok
    · obtain ⟨hfree, hused, hlost⟩ := hc.build_eq ly hsp'
      rw [hfree, hused, hlost]
      exact hc.slabOk h hsp'
  · intro sp' hsp'
    have hbuilt : s'.built = sp :: s.built := hstate ▸ rfl
    rw [hbuilt] at hsp'
    rcases mem_cons.mp hsp' with rfl | hsp'
    · exact update_self _ _ _
    · rw [(hc.build_eq ly (h.mem_live_of_private (mem_append_left _ hsp'))).2.2]
      exact h.intact sp' hsp'
  · intro sp' hsp'
    rw [hprivate] at hsp'
    rcases mem_cons.mp hsp' with rfl | hsp'
    · exact update_self _ _ _
    · rw [(hc.build_eq ly (h.mem_live_of_private hsp')).2.1]
      exact h.unused sp' hsp'
  · have htotal : s'.buftotal = s.buftotal := hstate ▸ rfl
    rw [htotal, h.total]
    apply congrArg
    apply map_congr_left
    intro sp' hsp'
    rw [hsame sp' (h.mem_live_of_order hsp')]
  · have hcolors : s'.color = s.color ∧ s'.coloured = s.coloured.erase color := hstate ▸ ⟨rfl, rfl⟩
    rw [hcolors.1, hcolors.2]
    intro c hc
    apply h.colors
    rcases mem_cons.mp hc with rfl | hc
    · exact mem_cons_self
    · exact mem_cons_of_mem _ (mem_of_mem_erase hc)
  · intro hhash
    apply ((h.table hhash).congr_state (hstate ▸ rfl) (hstate ▸ rfl) _ _).congr
    · exact fun b => hc.mem_used.symm
    · rintro b ⟨sp', hsp', hb⟩
      exact (hc.same h hsp' (mem_append_right _ hb)).1
    · rintro b ⟨sp', hsp', hb⟩
      exact (hc.same h hsp' (mem_append_right _ hb)).2.1

end
end SlabCreated

theorem umemSlabCreate_inv (h : Inv g s ly) {bufctls : List Word} {s' : State}
    (heq : umemSlabCreate g s color slab header bufctls = some s') :
    newSlab g slab header ∉ s.live ∧ Inv g s' (ly.build (newSlab g slab header)
      (newBufctls g (slab+color) (g.chunksFor color) bufctls)) := by
  have hc := umemSlabCreate_created h heq
  exact ⟨hc.fresh.notMem, hc.inv h⟩

theorem umemSlabCreate_frame {color slab header : Word} {bufctls : List Word} {s' : State}
    (heq : umemSlabCreate g s color slab header bufctls = some s') :
    (∃ head, s'.slabs = update s.slabs (newSlab g slab header)
      ⟨g.cp, slab+color, head, 0, g.chunksFor color, .active, 0⟩) ∧
    s'.live = newSlab g slab header :: s.live ∧ s'.built = newSlab g slab header :: s.built ∧
    s'.dying = s.dying ∧ s'.reclaimList = s.reclaimList ∧
    s'.bufctls = newBufctls g (slab+color) (g.chunksFor color) bufctls ++ s.bufctls := by
  unfold umemSlabCreate at heq
  dsimp only at heq
  split at heq
  case isFalse => simp at heq
  obtain ⟨head, next, addr, slabp, hloop⟩ := buildChunks_eq (g := g) (newSlab g slab header)
    (newBufctls g (slab+color) (g.chunksFor color) bufctls) (slab+color)
    ({ s with coloured := s.coloured.erase color }.setSlab (newSlab g slab header)
      fun _ => ⟨g.cp, slab+color, 0, 0, g.chunksFor color, .active, 0⟩)
  rw [hloop] at heq
  cases heq
  refine ⟨⟨head, ?_⟩, rfl, rfl, rfl, rfl, rfl⟩
  rw [State.setSlab]
  dsimp only
  rw [update_idem, update_self]

/-- A slab that was built joins the free list at its front. -/
def Layout.link (ly : Layout) (sp : Word) : Layout := { ly with back := sp :: ly.back }

section

variable (h : Inv g s ly)

include h

theorem Inv.free_ne_nil (hsp : sp ∈ s.built) : ly.free sp ≠ [] := by
  have hprivate : sp ∈ s.built ++ s.dying := mem_append_left _ hsp
  have hok := h.slab sp (h.mem_live_of_private hprivate)
  intro hfree
  have hlen := hok.length_add
  rw [hfree, h.unused sp hprivate, h.intact sp hsp] at hlen
  exact absurd hlen hok.span.chunks_pos.ne

theorem Inv.link (hsp : sp ∈ s.built) :
    Inv g ({ s with
      built := s.built.erase sp
      buftotal := s.buftotal+(s.slabs sp).slabChunks }.linkSlab sp) (ly.link sp) := by
  have hprivate : sp ∈ s.built ++ s.dying := mem_append_left _ hsp
  have hlive := h.mem_live_of_private hprivate
  have hfresh : sp ∉ ly.order := fun hmem => h.notMem_private hmem hprivate
  have horder : (ly.link sp).order.Perm (sp :: ly.order) := perm_middle
  generalize hstate : State.linkSlab { s with
    built := s.built.erase sp
    buftotal := s.buftotal+(s.slabs sp).slabChunks } sp = s'
  refine
    { cycle := ?_, live_perm := ?_, live_nodup := hstate ▸ h.live_nodup
      null_notMem := hstate ▸ h.null_notMem, null_head := hstate ▸ h.null_head
      freelist := hstate ▸ rfl, back := ?_, slab := ?_, intact := ?_, apart := hstate ▸ h.apart
      unused := ?_, bufctls := hstate ▸ h.bufctls, held := hstate ▸ h.held
      held_nodup := hstate ▸ h.held_nodup, total := ?_, colors := hstate ▸ h.colors
      table := hstate ▸ h.table }
  · have hlinks : s'.links = s.links.pushBack s.freelist sp := hstate ▸ rfl
    rw [hlinks, h.freelist]
    apply h.cycle.insert
    rw [mem_cons, not_or]
    exact ⟨h.ne_null hlive, hfresh⟩
  · have hlist : s'.live = s.live := hstate ▸ rfl
    have hpriv : s'.built ++ s'.dying = s.built.erase sp ++ s.dying := hstate ▸ rfl
    rw [hlist, hpriv]
    calc s.live
        _ ~ ly.order ++ (s.built ++ s.dying) := h.live_perm
        _ ~ ly.order ++ (sp :: s.built.erase sp ++ s.dying) :=
          ((perm_cons_erase hsp).append_right _).append_left _
        _ ~ sp :: (ly.order ++ (s.built.erase sp ++ s.dying)) := perm_middle
        _ ~ (ly.link sp).order ++ (s.built.erase sp ++ s.dying) := (horder.symm.append_right _)
  · intro sp' hsp'
    rcases mem_cons.mp hsp' with rfl | hsp'
    · exact h.free_ne_nil hsp
    · exact h.back sp' hsp'
  · intro sp' hsp'
    rw [← hstate] at hsp' ⊢
    exact (h.slab sp' hsp').congr rfl rfl rfl rfl rfl (fun _ _ => rfl) (fun _ _ => rfl) fun _ _ => rfl
  · intro sp' hsp'
    rw [← hstate] at hsp'
    exact h.intact sp' (mem_of_mem_erase hsp')
  · intro sp' hsp'
    have hpriv : s'.built ++ s'.dying = s.built.erase sp ++ s.dying := hstate ▸ rfl
    rw [hpriv] at hsp'
    apply h.unused sp'
    rcases mem_append.mp hsp' with hmem | hmem
    · exact mem_append_left _ (mem_of_mem_erase hmem)
    · exact mem_append_right _ hmem
  · have htotal : s'.buftotal = s.buftotal+(s.slabs sp).slabChunks := hstate ▸ rfl
    have hslabs : s'.slabs = s.slabs := hstate ▸ rfl
    rw [htotal, hslabs, (horder.map _).sum_eq, map_cons, sum_cons, h.total, Nat.add_comm]

theorem linkNewSlab_inv {r : State × Option Word} (heq : linkNewSlab g s sp = some r) : ∃ bcp rest,
      ly.free sp = bcp :: rest ∧ sp ∈ s.built ∧
      Inv g r.1 ((ly.link sp).take sp bcp rest [] ly.back) := by
  unfold linkNewSlab at heq
  split at heq
  case isFalse => simp at heq
  rename_i hsp
  cases heq
  obtain ⟨bcp, rest, hfree⟩ := exists_cons_of_ne_nil (h.free_ne_nil hsp)
  exact ⟨bcp, rest, hfree, hsp, (h.link hsp).take rfl hfree⟩

theorem Inv.mem_destroyed (hlive : sp ∈ s.live) (hused : ly.used sp = []) {b : Word} :
    b ∈ (if g.hash then chainList (s.freeLink g) (s.slabs sp).slabChunks (ptr (s.slabs sp).slabHead)
      else (g.chunkStarts (s.slabs sp)).map (· + g.bufctl)) ↔ Owns g s ly sp b := by
  have hok := h.slab sp hlive
  have hlen := hok.length_add
  unfold Owns
  split
  · rw [hok.chain.chainList_eq (by omega), Layout.bufctls, hused, append_nil]
  · exact mem_map_bufctl

theorem Inv.live_perm_erase (hsp : sp ∈ s.dying) :
    (s.live.erase sp).Perm (ly.order ++ (s.built ++ s.dying.erase sp)) := by
  have hlive := h.mem_live_of_private (mem_append_right _ hsp)
  apply (perm_cons_erase hlive).symm.trans h.live_perm |>.trans _ |>.cons_inv
  calc ly.order ++ (s.built ++ s.dying)
      _ ~ ly.order ++ (s.built ++ sp :: s.dying.erase sp) :=
        ((perm_cons_erase hsp).append_left _).append_left _
      _ ~ ly.order ++ sp :: (s.built ++ s.dying.erase sp) := perm_middle.append_left _
      _ ~ sp :: (ly.order ++ (s.built ++ s.dying.erase sp)) := perm_middle

theorem Inv.mem_used_erase (hused : ly.used sp = []) {b : Word} :
    (∃ sp' ∈ s.live.erase sp, b ∈ ly.used sp') ↔ ∃ sp' ∈ s.live, b ∈ ly.used sp' := by
  constructor
  · rintro ⟨sp', hsp', hb⟩
    exact ⟨sp', mem_of_mem_erase hsp', hb⟩
  · rintro ⟨sp', hsp', hb⟩
    refine ⟨sp', h.live_nodup.mem_erase_iff.mpr ⟨?_, hsp'⟩, hb⟩
    rintro rfl
    simp [hused] at hb

theorem Inv.mem_bufctls_erase (hlive : sp ∈ s.live) {b : Word} :
    b ∈ s.bufctls ∧ ¬ Owns g s ly sp b ↔ ∃ sp' ∈ s.live.erase sp, Owns g s ly sp' b := by
  rw [h.bufctls]
  constructor
  · rintro ⟨⟨sp', hsp', hb⟩, hnot⟩
    refine ⟨sp', h.live_nodup.mem_erase_iff.mpr ⟨?_, hsp'⟩, hb⟩
    rintro rfl
    exact hnot hb
  · rintro ⟨sp', hsp', hb⟩
    obtain ⟨hne, hsp'⟩ := h.live_nodup.mem_erase_iff.mp hsp'
    exact ⟨⟨sp', hsp', hb⟩, fun hb' => hne (h.owner_unique hsp' hlive hb hb')⟩

theorem umemSlabDestroy_inv {s' : State} (heq : umemSlabDestroy g s sp = some s') :
    Inv g s' ly := by
  obtain ⟨hsp, heq⟩ := Option.ite_none_right_eq_some.mp heq
  have hprivate : sp ∈ s.built ++ s.dying := mem_append_right _ hsp
  have hlive := h.mem_live_of_private hprivate
  have hused := h.unused sp hprivate
  have hstate := (Option.some.inj heq).symm
  have hlist : s'.live = s.live.erase sp := hstate ▸ rfl
  have hpriv : s'.built ++ s'.dying = s.built ++ s.dying.erase sp := hstate ▸ rfl
  have hold : ∀ sp' ∈ s'.live, sp' ∈ s.live := fun sp' hsp' => mem_of_mem_erase (hlist ▸ hsp')
  refine
    { cycle := hstate ▸ h.cycle, live_perm := ?_, live_nodup := ?_
      null_notMem := fun hnull => h.null_notMem (hold _ hnull)
      null_head := hstate ▸ h.null_head, freelist := hstate ▸ h.freelist, back := h.back
      slab := ?_, intact := hstate ▸ h.intact, apart := ?_, unused := ?_, bufctls := ?_, held := ?_
      held_nodup := hstate ▸ h.held_nodup, total := hstate ▸ h.total, colors := hstate ▸ h.colors
      table := ?_ }
  · rw [hlist, hpriv]
    exact h.live_perm_erase hsp
  · rw [hlist]
    exact h.live_nodup.erase sp
  · intro sp' hsp'
    have hok := h.slab sp' (hold sp' hsp')
    rw [hstate]
    exact hok.congr rfl rfl rfl rfl rfl (fun _ _ => rfl) (fun _ _ => rfl) fun _ _ => rfl
  · intro a ha b hb hab
    rw [hstate]
    exact h.apart a (hold a ha) b (hold b hb) hab
  · intro sp' hsp'
    rw [hpriv] at hsp'
    apply h.unused sp'
    rcases mem_append.mp hsp' with hin | hin
    · exact mem_append_left _ hin
    · exact mem_append_right _ (mem_of_mem_erase hin)
  · intro b
    have hbufctls : b ∈ s'.bufctls ↔ b ∈ s.bufctls ∧ ¬ Owns g s ly sp b := by
      rw [← h.mem_destroyed hlive hused, hstate]
      simp only [mem_filter, decide_not, Bool.not_eq_eq_eq_not, Bool.not_true,
        decide_eq_false_iff_not]
    have howns : ∀ sp', Owns g s' ly sp' b ↔ Owns g s ly sp' b := fun _ => hstate ▸ Iff.rfl
    rw [hbufctls, h.mem_bufctls_erase hlive, hlist]
    simp only [howns]
  · intro buf
    have hheld : s'.held = s.held := hstate ▸ rfl
    have haddr : ∀ b, s'.addrOf g b = s.addrOf g b := fun _ => hstate ▸ rfl
    rw [hheld, h.held]
    simp only [haddr]
    constructor
    · rintro ⟨sp', hsp', b, hb, rfl⟩
      obtain ⟨sp'', hsp'', hb⟩ := (h.mem_used_erase hused).mpr ⟨sp', hsp', hb⟩
      exact ⟨sp'', hlist ▸ hsp'', b, hb, rfl⟩
    · rintro ⟨sp', hsp', b, hb, rfl⟩
      exact ⟨sp', hold sp' hsp', b, hb, rfl⟩
  · intro hhash
    apply ((h.table hhash).congr_state (hstate ▸ rfl) (hstate ▸ rfl) (fun _ _ => hstate ▸ rfl)
      fun _ _ => hstate ▸ rfl).congr
    rw [hlist]
    exact fun b => (h.mem_used_erase hused).symm

end

end Libumem.Slab
