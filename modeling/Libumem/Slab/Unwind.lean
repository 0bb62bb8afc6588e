import Libumem.Slab.Making

/-!
# Making a slab unwinds

Each chunk is built inside of its own bytes and the ones of its bufctl, so what is on the list stays on
it while the rest of the slab is built. The unwinding finds the bufctls on the list, in the opposite
order of their delivery, and gives back each of them once.
-/

namespace Libumem.Slab.Making
open List BitVec Arith Lib
section
variable {g : Geom} {d : Debug g} {m : Mem 64} {sp bcp buf x : Word}

theorem le_objectSize_bufctl : 24 ≤ objectSize g d .bufctlCache := by
  have haudit := d.audit_fits
  change 24 ≤ if d.flags.audit = true then d.auditSize.toNat else 24
  split <;> omega

/-- A chunk whose bufctl is inside of it or apart from it, and both apart from the head of the list. -/
structure ChunkApart (d : Debug g) (sp bcp buf : Word) : Prop where
  ne : bcp ≠ 0
  inside : g.hash = false → bcp = buf + g.bufctl
  head_chunk : Disjoint (region (slabHead sp) 8) (region buf g.chunksize.toNat)
  head_bufctl : g.hash = true →
    Disjoint (region (slabHead sp) 8) (region bcp (objectSize g d .bufctlCache))
  bufctl_chunk : g.hash = true →
    Disjoint (region bcp (objectSize g d .bufctlCache)) (region buf g.chunksize.toNat)

theorem ChunkApart.head_link (h : ChunkApart d sp bcp buf) :
    Disjoint (region (slabHead sp) 8) (region bcp 8) := by
  cases hhash : g.hash with
  | true =>
    apply (h.head_bufctl hhash).mono_right
    exact region_mono (le_trans (by decide) le_objectSize_bufctl)
  | false =>
    apply h.head_chunk.mono_right
    rw [h.inside hhash]
    exact region_offset_subset (g.bufctl_le hhash)

theorem enterBufctl_of_notMem (h : g.hash = true → x ∉ region bcp (objectSize g d .bufctlCache)) :
    enterBufctl g d m sp bcp buf x = m x := by
  unfold enterBufctl
  split
  · rename_i hhash
    have hsize : 24 ≤ objectSize g d .bufctlCache := le_objectSize_bufctl
    have hout : ∀ i k, i+k ≤ objectSize g d .bufctlCache → x ∉ region (bcp+BitVec.ofNat 64 i) k :=
      fun i k hik hx => h hhash (region_add_subset hik hx)
    rw [Mem.store64_of_notMem (hout 16 8 hsize), Mem.store64_of_notMem (hout 8 8 (by omega))]
    split
    · rename_i haudit
      have haudit' : objectSize g d .bufctlCache = d.auditSize.toNat := if_pos haudit
      have hfits := d.audit_fits
      rw [Mem.store64_of_notMem (hout 24 8 (by omega)), Mem.bzero,
        Mem.write_of_notMem (haudit' ▸ h hhash)]
    · rfl
  · rfl

theorem tagChunk_of_notMem (h : x ∉ region buf g.chunksize.toNat) :
    tagChunk g d m bcp buf x = m x := by
  unfold tagChunk
  split
  · rename_i htag
    have hfits := d.tag_fits htag
    have hverify := d.verify_fits htag
    have hout : ∀ i, i+8 ≤ sizeofBuftag → x ∉ region (buf+d.buftag+BitVec.ofNat 64 i) 8 := by
      intro i hi hx
      apply h
      have hinner : region (buf+d.buftag) sizeofBuftag ⊆ region buf g.chunksize.toNat :=
        region_offset_subset hfits
      exact hinner (region_add_subset hi hx)
    have hfirst : x ∉ region (buf+d.buftag) 8 := by
      have := hout 0 (by decide)
      rwa [BitVec.add_zero] at this
    have htagged : (((m.store64 (buf+d.buftag) redzonePattern).store64
        (buf+d.buftag+BitVec.ofNat 64 8) bcp).store64
        (buf+d.buftag+BitVec.ofNat 64 16) (bcp ^^^ buftagFree)) x = m x := by
      rw [Mem.store64_of_notMem (hout 16 (by decide)), Mem.store64_of_notMem (hout 8 (by decide)),
        Mem.store64_of_notMem hfirst]
    dsimp only
    split
    · rw [Mem.fill, Mem.write_of_notMem, htagged]
      intro hx
      exact h (region_mono (by omega) hx)
    · exact htagged
  · rfl

theorem buildChunk_of_notMem (h : ChunkApart d sp bcp buf) (hhead : x ∉ region (slabHead sp) 8)
    (hbuf : x ∉ region buf g.chunksize.toNat)
    (hbcp : g.hash = true → x ∉ region bcp (objectSize g d .bufctlCache)) :
    buildChunk g d m sp bcp buf x = m x := by
  have hlink : x ∉ region bcp 8 := by
    cases hhash : g.hash with
    | true =>
      intro hx
      exact hbcp hhash (region_mono (le_trans (by decide) le_objectSize_bufctl) hx)
    | false =>
      intro hx
      apply hbuf
      rw [h.inside hhash] at hx
      exact region_offset_subset (g.bufctl_le hhash) hx
  rw [buildChunk, pushBufctl, Mem.store64_of_notMem hhead, Mem.store64_of_notMem hlink,
    tagChunk_of_notMem hbuf, enterBufctl_of_notMem hbcp]

theorem load64_head_buildChunk : (buildChunk g d m sp bcp buf).load64 (slabHead sp) = bcp :=
  Mem.load64_store64 (by decide)

theorem load64_link_buildChunk (h : ChunkApart d sp bcp buf) :
    (buildChunk g d m sp bcp buf).load64 bcp = g.linkMangle bcp (m.load64 (slabHead sp)) := by
  have hold : (tagChunk g d (enterBufctl g d m sp bcp buf) bcp buf).load64 (slabHead sp) =
      m.load64 (slabHead sp) := by
    apply Mem.load64_congr
    intro x hx
    rw [tagChunk_of_notMem (Set.disjoint_left.mp h.head_chunk hx),
      enterBufctl_of_notMem fun hhash => Set.disjoint_left.mp (h.head_bufctl hhash) hx]
  rw [buildChunk, pushBufctl, Mem.load64_store64_of_disjoint h.head_link.symm,
    Mem.load64_store64 (by decide), hold]

theorem addrOf_buildChunk (h : ChunkApart d sp bcp buf) :
    addrOf g (buildChunk g d m sp bcp buf) bcp = buf := by
  unfold addrOf
  split
  · rename_i hhash
    have hsize : 24 ≤ objectSize g d .bufctlCache := le_objectSize_bufctl
    have hfield : region (bcp+BitVec.ofNat 64 8) 8 ⊆ region bcp (objectSize g d .bufctlCache) :=
      region_add_subset (by omega)
    have hlink : Disjoint (region (bcp+BitVec.ofNat 64 8) 8) (region bcp 8) := by
      have := disjoint_region_add (a := bcp) (i := 0) (j := 8) (k := 8) (n := 8) (by decide)
        (by decide) (by decide)
      rw [BitVec.add_zero] at this
      exact this.symm
    have hslab : Disjoint (region (bcp+BitVec.ofNat 64 8) 8) (region (bcp+BitVec.ofNat 64 16) 8) :=
      disjoint_region_add (by decide) (by decide) (by decide)
    have htag : ∀ m : Mem 64, (tagChunk g d m bcp buf).load64 (bcp+BitVec.ofNat 64 8) =
        m.load64 (bcp+BitVec.ofNat 64 8) := by
      intro m
      apply Mem.load64_congr
      intro x hx
      exact tagChunk_of_notMem (Set.disjoint_left.mp (h.bufctl_chunk hhash) (hfield hx))
    rw [buildChunk, pushBufctl,
      Mem.load64_store64_of_disjoint ((h.head_bufctl hhash).symm.mono_left hfield),
      Mem.load64_store64_of_disjoint hlink, htag, enterBufctl, if_pos hhash,
      Mem.load64_store64_of_disjoint hslab, Mem.load64_store64 (by decide)]
  · rename_i hhash
    rw [h.inside (by simpa using hhash), add_sub_cancel_right]

theorem Built.buildChunk {bcs bufs : List Word} (hbuilt : Built g m sp bcs bufs)
    (h : ChunkApart d sp bcp buf)
    (hcells : ∀ b ∈ bcs, Disjoint (region b (cellSize g)) (region (slabHead sp) 8) ∧
      Disjoint (region b (cellSize g)) (region buf g.chunksize.toNat) ∧
      (g.hash = true → Disjoint (region b (cellSize g)) (region bcp (objectSize g d .bufctlCache)))) :
    Built g (Making.buildChunk g d m sp bcp buf) sp (bcp :: bcs) (buf :: bufs) := by
  apply hbuilt.push h.ne load64_head_buildChunk (load64_link_buildChunk h) (addrOf_buildChunk h)
  intro b hb x hx
  obtain ⟨hhead, hbuf, hbcp⟩ := hcells b hb
  exact buildChunk_of_notMem h (Set.disjoint_left.mp hhead hx) (Set.disjoint_left.mp hbuf hx)
    fun hhash => Set.disjoint_left.mp (hbcp hhash) hx

end

/-- What the pools promise: null is no answer, what they hand out to one call does not overlap, and a
span is aligned and ends below the end of the address space. -/
structure Below.Honest (below : Below) (g : Geom) (d : Debug g) : Prop where
  nonnull : ∀ p k, below.answer p k ≠ some 0
  apart : ∀ p k a p' k' a', below.answer p k = some a → below.answer p' k' = some a' →
    (p, k) ≠ (p', k') → Disjoint (region a (objectSize g d p)) (region a' (objectSize g d p'))
  aligned : ∀ k slab, below.answer .arena k = some slab → p2phase slab g.quantum = 0 ∧
    slab.toNat + g.slabsize.toNat < 2 ^ 64

def chunkAt (g : Geom) (slab color : Word) (i : Nat) : Word :=
  slab + color + BitVec.ofNat 64 (i * g.chunksize.toNat)

/-- A span and a header that a slab is built in. -/
structure Site (g : Geom) (below : Below) (slab sp color : Word) : Prop where
  color_le : color.toNat ≤ g.maxcolor.toNat
  span : below.answer .arena 0 = some slab
  header : if g.hash then below.answer .slabCache 0 = some sp else sp = g.umemSlab slab

def BufctlOf (g : Geom) (below : Below) (slab color : Word) (i : Nat) (bcp : Word) : Prop :=
  if g.hash then below.answer .bufctlCache i = some bcp else bcp = chunkAt g slab color i + g.bufctl

namespace Site
variable {g : Geom} {d : Debug g} {below : Below} {slab sp color bcp bcp' : Word} {i j : Nat}

theorem chunk_eq (slab color : Word) (i : Nat) :
    chunkAt g slab color i = slab+BitVec.ofNat 64 (color.toNat+i * g.chunksize.toNat) := by
  rw [chunkAt, ofNat_add, ofNat_toNat, setWidth_eq, add_assoc]

theorem chunkAt_succ : chunkAt g slab color i+g.chunksize = chunkAt g slab color (i+1) := by
  rw [chunkAt, chunkAt, Nat.add_mul, Nat.one_mul, ofNat_add, ofNat_toNat, setWidth_eq, add_assoc]

theorem chunk_end (hi : i < g.chunksFor color) :
    color.toNat+i * g.chunksize.toNat+g.chunksize.toNat+(if g.hash then 0 else sizeofSlab) ≤
      g.slabsize.toNat := by
  have hmul : (i+1) * g.chunksize.toNat ≤
      g.slabsize.toNat-(if g.hash then 0 else sizeofSlab)-color.toNat :=
    le_trans (Nat.mul_le_mul_right _ hi) (Nat.div_mul_le_self _ _)
  have hpos := g.chunksize_pos
  rw [Nat.add_mul, Nat.one_mul] at hmul
  omega

theorem chunk_subset (hi : i < g.chunksFor color) :
    region (chunkAt g slab color i) g.chunksize.toNat ⊆ region slab g.slabsize.toNat := by
  have hend := chunk_end hi
  rw [chunk_eq]
  exact region_add_subset (by omega)

theorem chunks_disjoint (hi : i < g.chunksFor color) (hj : j < g.chunksFor color) (hne : i ≠ j) :
    Disjoint (region (chunkAt g slab color i) g.chunksize.toNat)
      (region (chunkAt g slab color j) g.chunksize.toNat) := by
  have hlt := g.slabsize.isLt
  have hiend := chunk_end hi
  have hjend := chunk_end hj
  apply disjoint_region_mul hne
  · rw [Nat.add_mul, Nat.one_mul]
    omega
  · rw [Nat.add_mul, Nat.one_mul]
    omega

section
variable (hb : below.Honest g d) (h : Site g below slab sp color)
include hb h

theorem header_eq (hhash : g.hash = false) :
    sizeofSlab ≤ g.slabsize.toNat ∧ sp = slab+BitVec.ofNat 64 (g.slabsize.toNat-sizeofSlab) := by
  have hfits := g.fits
  have hheader := h.header
  obtain ⟨hphase, hbound⟩ := hb.aligned 0 slab h.span
  have hsize := g.slabsize_eq hhash
  rw [hhash] at hfits
  rw [hhash, if_neg (by decide)] at hheader
  simp only [Bool.false_eq_true, if_false] at hfits
  refine ⟨by omega, ?_⟩
  have hmod : slab.toNat % g.quantum.toNat = 0 := by
    rw [← toNat_p2phase slab g.quantum_pow2, hphase]
    rfl
  have hmul : (slab.toNat/g.quantum.toNat+1) * g.quantum.toNat =
      slab.toNat+g.quantum.toNat := by
    rw [Nat.add_mul, Nat.one_mul, Nat.div_mul_cancel (Nat.dvd_of_mod_eq_zero hmod)]
  have hend : p2end slab g.slabsize = slab+g.slabsize := by
    rw [← toNat_inj, hsize, Geom.toNat_p2end g.quantum_pow2 (by rw [hmul, ← hsize]; exact hbound),
      hmul, toNat_add, Nat.mod_eq_of_lt (by rw [← hsize]; exact hbound)]
  have hsub : BitVec.ofNat 64 (g.slabsize.toNat-sizeofSlab) =
      g.slabsize-BitVec.ofNat 64 sizeofSlab := by
    rw [← ofNat_sub_ofNat_of_le g.slabsize.toNat sizeofSlab (by decide) (by omega),
      ofNat_toNat, setWidth_eq]
  rw [hheader, Geom.umemSlab, hend, hsub, add_sub_assoc]

theorem head_chunk (hi : i < g.chunksFor color) :
    Disjoint (region (slabHead sp) 8) (region (chunkAt g slab color i) g.chunksize.toNat) := by
  have hhead : region (slabHead sp) 8 ⊆ region sp sizeofSlab := region_add_subset (by decide)
  cases hhash : g.hash with
  | true =>
    have hheader := h.header
    rw [if_pos hhash] at hheader
    have hapart := hb.apart _ _ _ _ _ _ hheader h.span (by simp)
    exact hapart.mono hhead (chunk_subset hi)
  | false =>
    obtain ⟨hle, hsp⟩ := header_eq hb h hhash
    have hend := chunk_end hi
    rw [if_neg (by simp [hhash])] at hend
    have hlt := g.slabsize.isLt
    rw [hsp] at hhead
    rw [chunk_eq, hsp]
    apply (disjoint_region_add _ _ _).symm.mono_left hhead
    · omega
    · omega
    · omega

theorem head_bufctl (hhash : g.hash = true) (hbcp : BufctlOf g below slab color i bcp) :
    Disjoint (region (slabHead sp) 8) (region bcp (objectSize g d .bufctlCache)) := by
  have hheader := h.header
  rw [if_pos hhash] at hheader
  rw [BufctlOf, if_pos hhash] at hbcp
  have hapart := hb.apart _ _ _ _ _ _ hheader hbcp (by simp)
  exact hapart.mono_left (region_add_subset (show 32+8 ≤ sizeofSlab by decide))

theorem bufctl_chunk (hhash : g.hash = true) (hbcp : BufctlOf g below slab color i bcp)
    (hj : j < g.chunksFor color) :
    Disjoint (region bcp (objectSize g d .bufctlCache))
      (region (chunkAt g slab color j) g.chunksize.toNat) := by
  rw [BufctlOf, if_pos hhash] at hbcp
  have hapart := hb.apart _ _ _ _ _ _ hbcp h.span (by simp)
  exact hapart.mono_right (chunk_subset hj)

section

variable (hbcp : BufctlOf g below slab color i bcp) (hi : i < g.chunksFor color)

include hbcp hi

theorem bufctl_ne : bcp ≠ 0 := by
  cases hhash : g.hash with
  | true =>
    rw [BufctlOf, if_pos hhash] at hbcp
    rintro rfl
    exact hb.nonnull _ _ hbcp
  | false =>
    -- the span is not at null, and ends below the end of the address space
    rw [BufctlOf, if_neg (by simp [hhash]), chunk_eq] at hbcp
    have hslab : slab ≠ 0 := by
      rintro rfl
      exact hb.nonnull _ _ h.span
    have hbound := (hb.aligned 0 slab h.span).2
    have hend := chunk_end hi
    have hle := g.bufctl_le hhash
    have hslab' : slab.toNat ≠ 0 := fun heq => hslab (eq_of_toNat_eq heq)
    intro hzero
    have hval := congrArg BitVec.toNat (hbcp.symm.trans hzero)
    rw [toNat_add, toNat_add, toNat_ofNat, Nat.add_mod_mod, Nat.mod_add_mod,
      Nat.mod_eq_of_lt (by omega)] at hval
    have hzero' : (0 : Word).toNat = 0 := rfl
    omega

theorem chunkApart : ChunkApart d sp bcp (chunkAt g slab color i) where
  ne := bufctl_ne hb h hbcp hi
  inside hhash := by rwa [BufctlOf, if_neg (by simp [hhash])] at hbcp
  head_chunk := head_chunk hb h hi
  head_bufctl hhash := head_bufctl hb h hhash hbcp
  bufctl_chunk hhash := bufctl_chunk hb h hhash hbcp hi

end

omit hb h in
theorem cell_subset_chunk (hhash : g.hash = false) (hbcp : BufctlOf g below slab color i bcp) :
    region bcp (cellSize g) ⊆ region (chunkAt g slab color i) g.chunksize.toNat := by
  rw [BufctlOf, if_neg (by simp [hhash])] at hbcp
  rw [hbcp, cellSize, if_neg (by simp [hhash])]
  exact region_offset_subset (g.bufctl_le hhash)

omit hb h in
theorem cell_subset_bufctl (hhash : g.hash = true) :
    region bcp (cellSize g) ⊆ region bcp (objectSize g d .bufctlCache) := by
  rw [cellSize, if_pos hhash]
  exact region_mono (le_trans (by decide) le_objectSize_bufctl)

theorem cell_apart (hbcp : BufctlOf g below slab color i bcp)
    (hbcp' : BufctlOf g below slab color j bcp') (hi : i < g.chunksFor color)
    (hj : j < g.chunksFor color) (hne : i ≠ j) :
    Disjoint (region bcp (cellSize g)) (region (slabHead sp) 8) ∧
    Disjoint (region bcp (cellSize g)) (region (chunkAt g slab color j) g.chunksize.toNat) ∧
    (g.hash = true → Disjoint (region bcp (cellSize g))
      (region bcp' (objectSize g d .bufctlCache))) := by
  cases hhash : g.hash with
  | true =>
    have hcell : region bcp (cellSize g) ⊆ region bcp (objectSize g d .bufctlCache) :=
      cell_subset_bufctl hhash
    refine ⟨(head_bufctl hb h hhash hbcp).symm.mono_left hcell,
      (bufctl_chunk hb h hhash hbcp hj).mono_left hcell, fun _ => ?_⟩
    rw [BufctlOf, if_pos hhash] at hbcp hbcp'
    exact (hb.apart _ _ _ _ _ _ hbcp hbcp' (by simp [hne])).mono_left hcell
  | false =>
    have hcell := cell_subset_chunk hhash hbcp
    exact ⟨(head_chunk hb h hi).symm.mono_left hcell,
      (chunks_disjoint hi hj hne).mono_left hcell, by simp⟩

end
end Site

section
variable {ρ : Type} {g : Geom} {d : Debug g} {b : Books ρ} {slab sp a x color bcp : Word}
  {bcs bufs : List Word} {p : Pool} {below : Below} {w : World ρ} {i k n : Nat}

@[simp]
theorem Books.giveBack_take (b : Books ρ) (p : Pool) (a : Word) : (b.take p a).giveBack p a = b := by
  simp [take, giveBack]

/-- The books when a call holds a span, a header and some bufctls. -/
def Books.holding (g : Geom) (b : Books ρ) (slab sp : Word) (bcs : List Word) : Books ρ :=
  if g.hash then
    bcs.foldr (fun bcp b => b.take .bufctlCache bcp) ((b.take .arena slab).take .slabCache sp)
  else b.take .arena slab

theorem Books.mine_holding : (b.holding g slab sp bcs).mine =
    (if g.hash then bcs.map (Prod.mk .bufctlCache) ++ [(.slabCache, sp)] else []) ++
      (.arena, slab) :: b.mine := by
  unfold holding
  split
  · induction bcs with
    | nil => rfl
    | cons bcp bcs ih =>
      rw [foldr_cons, take, ih]
      rfl
  · rfl

theorem Books.owns_of_mem (h : (p, a) ∈ b.mine) (hx : x ∈ region a (objectSize g d p)) :
    b.owns g d x = true :=
  any_eq_true.mpr ⟨(p, a), h, decide_eq_true hx⟩

theorem World.disturb_mem {w : World ρ} {junk : Mem 64} (h : w.books.owns g d x = true) :
    (w.disturb g d junk).mem x = w.mem x := if_pos h

/-- A slab that is being built: the list leads through the bufctls so far. -/
structure Midway (g : Geom) (below : Below) (b : Books ρ) (slab sp color : Word) (w : World ρ) (k : Nat)
    (bcs bufs : List Word) : Prop where
  built : Built g w.mem sp bcs bufs
  books : w.books = b.holding g slab sp bcs
  origin : ∀ bcp ∈ bcs, ∃ j < k, BufctlOf g below slab color j bcp

theorem head_owned (hb : below.Honest g d) (h : Site g below slab sp color) {x : Word}
    (hx : x ∈ region (slabHead sp) 8) : (b.holding g slab sp bcs).owns g d x = true := by
  have hhead : region (slabHead sp) 8 ⊆ region sp sizeofSlab := region_add_subset (by decide)
  cases hhash : g.hash with
  | true =>
    apply Books.owns_of_mem (p := .slabCache) (a := sp) _ (hhead hx)
    rw [Books.mine_holding, if_pos hhash]
    simp
  | false =>
    apply Books.owns_of_mem (p := .arena) (a := slab)
    · rw [Books.mine_holding]
      simp
    · obtain ⟨hle, hsp⟩ := Site.header_eq hb h hhash
      rw [hsp] at hhead hx
      exact region_add_subset (show _ ≤ g.slabsize.toNat by omega) (hhead hx)

theorem cell_owned (hbcp : BufctlOf g below slab color i bcp) (hi : i < g.chunksFor color)
    (hmem : bcp ∈ bcs) {x : Word} (hx : x ∈ region bcp (cellSize g)) :
    (b.holding g slab sp bcs).owns g d x = true := by
  cases hhash : g.hash with
  | true =>
    apply Books.owns_of_mem (p := .bufctlCache) (a := bcp)
    · rw [Books.mine_holding, if_pos hhash]
      simp [hmem]
    · exact Site.cell_subset_bufctl hhash hx
  | false =>
    apply Books.owns_of_mem (p := .arena) (a := slab)
    · rw [Books.mine_holding]
      simp
    · exact Site.chunk_subset hi (Site.cell_subset_chunk hhash hbcp hx)

section

variable (h : Midway g below b slab sp color w k bcs bufs) (hb : below.Honest g d)
  (hsite : Site g below slab sp color)

include h hb hsite

theorem Midway.disturb (hk : k ≤ g.chunksFor color) (junk : Mem 64) :
    Midway g below b slab sp color (w.disturb g d junk) k bcs bufs where
  built := by
    apply h.built.congr
    · apply Mem.load64_congr
      intro x hx
      apply World.disturb_mem
      rw [h.books]
      exact head_owned hb hsite hx
    · intro bcp hbcp x hx
      obtain ⟨j, hj, hof⟩ := h.origin bcp hbcp
      apply World.disturb_mem
      rw [h.books]
      exact cell_owned hof (by omega) hbcp hx
  books := h.books
  origin := h.origin

theorem Midway.chunk (hk : k < g.chunksFor color) (hbcp : BufctlOf g below slab color k bcp)
    (w' : World ρ) (hmem : w'.mem = buildChunk g d w.mem sp bcp (chunkAt g slab color k))
    (hbooks : w'.books = b.holding g slab sp (bcp :: bcs)) :
    Midway g below b slab sp color w' (k+1) (bcp :: bcs) (chunkAt g slab color k :: bufs) where
  built := by
    rw [hmem]
    apply h.built.buildChunk (Site.chunkApart hb hsite hbcp hk)
    intro c hc
    obtain ⟨j, hj, hof⟩ := h.origin c hc
    exact Site.cell_apart hb hsite hof hbcp (by omega) hk (by omega)
  books := hbooks
  origin := by
    intro c hc
    rcases mem_cons.mp hc with rfl | hc
    · exact ⟨k, by omega, hbcp⟩
    · obtain ⟨j, hj, hof⟩ := h.origin c hc
      exact ⟨j, by omega, hof⟩

end

theorem chunksFrom_succ_reverse : (g.chunksFrom (slab+color) (k+1)).reverse =
    chunkAt g slab color k :: (g.chunksFrom (slab+color) k).reverse := by
  rw [Geom.chunksFrom, List.range_succ, List.map_append, List.reverse_append]
  rfl

/-- The loop builds all chunks, or stops where a bufctl is refused. -/
theorem buildLoop_midway (hb : below.Honest g d) (hsite : Site g below slab sp color)
    (hn : k+n = g.chunksFor color)
    (hw : Midway g below b slab sp color w k bcs (g.chunksFrom (slab+color) k).reverse) :
    ∃ j bcs', j ≤ g.chunksFor color ∧
      Midway g below b slab sp color (buildLoop g d below sp n k (chunkAt g slab color k) w).1 j bcs'
        (g.chunksFrom (slab+color) j).reverse ∧
      ((buildLoop g d below sp n k (chunkAt g slab color k) w).2 = true → j = g.chunksFor color ∧
        (g.hash = true → ∀ i, k ≤ i → i < g.chunksFor color → below.answer .bufctlCache i ≠ none)) ∧
      ((buildLoop g d below sp n k (chunkAt g slab color k) w).2 = false → g.hash = true ∧
        ∃ i < g.chunksFor color, below.answer .bufctlCache i = none) := by
  induction n generalizing k w bcs with
  | zero =>
    rw [buildLoop]
    exact ⟨k, bcs, by omega, hw, fun _ => ⟨hn, fun _ i hle hlt => by omega⟩, by simp⟩
  | succ n ih =>
    have hk : k < g.chunksFor color := by omega
    cases hhash : g.hash with
    | true =>
      cases hanswer : below.answer .bufctlCache k with
      | none =>
        have hstop : buildLoop g d below sp (n+1) k (chunkAt g slab color k) w =
            (w.disturb g d (below.allocJunk .bufctlCache k), false) := by
          rw [buildLoop, if_pos hhash, World.alloc, hanswer]
        rw [hstop]
        exact ⟨k, bcs, hk.le, hw.disturb hb hsite hk.le _, by simp, fun _ => ⟨rfl, k, hk, hanswer⟩⟩
      | some bcp =>
        have hof : BufctlOf g below slab color k bcp := by
          rw [BufctlOf, if_pos hhash]
          exact hanswer
        have hgo : buildLoop g d below sp (n+1) k (chunkAt g slab color k) w =
            buildLoop g d below sp n (k+1) (chunkAt g slab color (k+1))
              ⟨buildChunk g d (w.disturb g d (below.allocJunk .bufctlCache k)).mem sp bcp
                (chunkAt g slab color k), w.books.take .bufctlCache bcp⟩ := by
          rw [buildLoop, if_pos hhash, World.alloc, hanswer, Site.chunkAt_succ]
          rfl
        have hbooks : w.books.take .bufctlCache bcp = b.holding g slab sp (bcp :: bcs) := by
          rw [hw.books, Books.holding, Books.holding, if_pos hhash, if_pos hhash, foldr_cons]
        have hnext := (hw.disturb hb hsite hk.le (below.allocJunk .bufctlCache k)).chunk hb hsite hk hof
          ⟨_, w.books.take .bufctlCache bcp⟩ rfl hbooks
        rw [← chunksFrom_succ_reverse] at hnext
        obtain ⟨j, bcs', hj, hmid, htrue, hfalse⟩ := ih (by omega) hnext
        rw [hgo]
        refine ⟨j, bcs', hj, hmid, ?_, hhash ▸ hfalse⟩
        intro hdone
        refine ⟨(htrue hdone).1, fun _ i hle hlt => ?_⟩
        rcases Nat.eq_or_lt_of_le hle with rfl | hle
        · simp [hanswer]
        · exact (htrue hdone).2 hhash i hle hlt
    | false =>
      have hof : BufctlOf g below slab color k (chunkAt g slab color k+g.bufctl) := by
        rw [BufctlOf, if_neg (by simp [hhash])]
      have hgo : buildLoop g d below sp (n+1) k (chunkAt g slab color k) w =
          buildLoop g d below sp n (k+1) (chunkAt g slab color (k+1))
            ⟨buildChunk g d w.mem sp (chunkAt g slab color k+g.bufctl) (chunkAt g slab color k),
              w.books⟩ := by
        rw [buildLoop, if_neg (by simp [hhash]), Site.chunkAt_succ]
      have hbooks : w.books =
          b.holding g slab sp ((chunkAt g slab color k+g.bufctl) :: bcs) := by
        rw [hw.books, Books.holding, Books.holding, if_neg (by simp [hhash]),
          if_neg (by simp [hhash])]
      have hnext := hw.chunk hb hsite hk hof ⟨_, w.books⟩ rfl hbooks
      rw [← chunksFrom_succ_reverse] at hnext
      obtain ⟨j, bcs', hj, hmid, htrue, hfalse⟩ := ih (by omega) hnext
      rw [hgo]
      refine ⟨j, bcs', hj, hmid, ?_, hhash ▸ hfalse⟩
      intro hdone
      exact ⟨(htrue hdone).1, by simp⟩

/-- The unwinding gives back every bufctl on the list, and the last one first. -/
theorem unwind_midway (hb : below.Honest g d) (hsite : Site g below slab sp color)
    (hhash : g.hash = true) (hk : k ≤ g.chunksFor color)
    (hw : Midway g below b slab sp color w k bcs bufs) (hn : bcs.length < n) :
    ∃ w', unwind g d below sp n w = some w' ∧ w'.books = b.holding g slab sp [] := by
  induction bcs generalizing w bufs n with
  | nil =>
    obtain ⟨n, rfl⟩ : ∃ n', n = n'+1 := ⟨n-1, by simp at hn; omega⟩
    refine ⟨w, ?_, hw.books⟩
    have hhead : w.mem.load64 (slabHead sp) = 0 := by
      have hnone : ptr (w.mem.load64 (slabHead sp)) = none := hw.built.chain
      rw [ptr] at hnone
      by_contra hne
      rw [if_neg hne] at hnone
      cases hnone
    rw [unwind]
    exact if_pos hhead
  | cons bcp bcs ih =>
    obtain ⟨n, rfl⟩ : ∃ n', n = n'+1 := ⟨n-1, by simp at hn; omega⟩
    obtain ⟨buf, bufs, rfl⟩ : ∃ buf bufs', bufs = buf :: bufs' := ⟨_, _, hw.built.addrs.symm⟩
    obtain ⟨hhead, hne, hchain, haddrs⟩ := hw.built.head
    have hcells : ∀ c ∈ bcs, ∀ m : Mem 64, ∀ v, ∀ x ∈ region c (cellSize g),
        m.store64 (slabHead sp) v x = m x := by
      intro c hc m v x hx
      obtain ⟨j, hj, hof⟩ := hw.origin c (mem_cons_of_mem _ hc)
      apply Mem.store64_of_notMem
      apply Set.disjoint_left.mp _ hx
      exact (Site.head_bufctl hb hsite hhash hof).symm.mono_left (Site.cell_subset_bufctl hhash)
    have hbooks : w.books.giveBack .bufctlCache bcp = b.holding g slab sp bcs := by
      rw [hw.books, Books.holding, Books.holding, if_pos hhash, if_pos hhash, foldr_cons,
        Books.giveBack_take]
    have hrest : Midway g below b slab sp color
        ⟨w.mem.store64 (slabHead sp) (g.linkMangle bcp (w.mem.load64 bcp)),
          w.books.giveBack .bufctlCache bcp⟩ k bcs bufs := by
      refine ⟨⟨?_, ?_⟩, hbooks, fun c hc => hw.origin c (mem_cons_of_mem _ hc)⟩
      · rw [Mem.load64_store64 (by decide)]
        exact hchain.congr fun c hc => freeLink_congr (hcells c hc _ _)
      · rw [← haddrs]
        exact map_congr_left fun c hc => addrOf_congr (hcells c hc _ _)
    obtain ⟨w', heq, hdone⟩ := ih (n := n)
      (hrest.disturb hb hsite hk (below.freeJunk .bufctlCache bcp)) (by simpa using hn)
    refine ⟨w', ?_, hdone⟩
    rw [unwind, hhead]
    exact (if_neg hne).trans heq

theorem load64_head_writeHeader (m : Mem 64) (sp base : Word) (n : Nat) :
    (writeHeader g m sp base n).load64 (slabHead sp) = 0 := by
  have hapart : ∀ i k, 40 ≤ i → i+k ≤ 2^64 →
      Disjoint (region (slabHead sp) 8) (region (sp+BitVec.ofNat 64 i) k) :=
    fun i k hi hk => disjoint_region_add hi (by decide) hk
  have hbase : Disjoint (region (slabHead sp) 8) (region (sp+BitVec.ofNat 64 8) 8) :=
    (disjoint_region_add (by decide) (by decide) (by decide)).symm
  rw [writeHeader, Mem.load64_store64_of_disjoint (hapart 48 8 (by decide) (by decide)),
    Mem.load64_store64_of_disjoint hbase, Mem.store32,
    Mem.load64_write (hapart 60 4 (by decide) (by decide)), Mem.store32,
    Mem.load64_write (hapart 56 4 (by decide) (by decide)),
    Mem.load64_store64_of_disjoint (hapart 40 8 (by decide) (by decide)),
    Mem.load64_store64 (by decide)]

/-- A pool that the slab needs something from refuses it. -/
def Refused (g : Geom) (below : Below) (color : Word) : Prop :=
  below.answer .arena 0 = none ∨ g.hash = true ∧ (below.answer .slabCache 0 = none ∨
    ∃ k < g.chunksFor color, below.answer .bufctlCache k = none)

/-- A call that returns null leaves every pool with the allocations that it had, and of the cache only
the color and the counter of failures are not what they were. -/
structure Unwound (g : Geom) (w w' : World ρ) : Prop where
  allocated : w'.books.allocated = w.books.allocated
  mine : w'.books.mine = w.books.mine
  badFrees : w'.books.badFrees = w.books.badFrees
  cache : w'.books.cache = { w.books.cache with
    cacheColor := nextColor g w.books.cache.cacheColor
    cacheAllocFail := w.books.cache.cacheAllocFail + 1 }

/-- The list of a new slab has each of its chunks once. -/
structure Complete (g : Geom) (m : Mem 64) (slab sp color : Word) : Prop where
  visits : ∃ bcs, Chain (freeLink g m) (ptr (m.load64 (slabHead sp))) bcs ∧
    (bcs.map (addrOf g m)).Perm (g.chunksFrom (slab + color) (g.chunksFor color))
  distinct : (g.chunksFrom (slab + color) (g.chunksFor color)).Nodup

theorem chunksFrom_nodup (slab color : Word) :
    (g.chunksFrom (slab+color) (g.chunksFor color)).Nodup := by
  apply Nodup.map_on _ nodup_range
  intro i hi j hj heq
  by_contra hne
  have hdisj : Disjoint (region (chunkAt g slab color i) g.chunksize.toNat)
      (region (chunkAt g slab color j) g.chunksize.toNat) :=
    Site.chunks_disjoint (mem_range.mp hi) (mem_range.mp hj) hne
  rw [chunkAt, chunkAt, heq] at hdisj
  have hself : slab+color+BitVec.ofNat 64 (j * g.chunksize.toNat) ∈
      region (slab+color+BitVec.ofNat 64 (j * g.chunksize.toNat)) g.chunksize.toNat := by
    rw [mem_region, sub_self]
    exact g.chunksize_pos
  exact Set.disjoint_left.mp hdisj hself hself

theorem books_allocFailure {w : World ρ} {b : Books ρ} (h : w.books = b.take .arena slab) :
    (allocFailure (World.free g d below w .arena slab)).books = b.failed := by
  have hback : (World.free g d below w .arena slab).books = b := by
    change w.books.giveBack .arena slab = b
    rw [h, Books.giveBack_take]
  rw [allocFailure, hback]

theorem buildSlab_spec (hb : below.Honest g d) (hsite : Site g below slab sp color) {w : World ρ}
    {b : Books ρ} (hw : w.books = b.holding g slab sp []) :
    ∃ w' r, buildSlab g d below color slab sp w = some (w', r) ∧
      (r = none → (g.hash = true ∧ ∃ k < g.chunksFor color, below.answer .bufctlCache k = none) ∧
        w'.books = b.failed) ∧
      ∀ sp', r = some sp' → Complete g w'.mem slab sp' color ∧
        (g.hash = true → ∀ k < g.chunksFor color, below.answer .bufctlCache k ≠ none) := by
  have hstart : Midway g below b slab sp color
      ⟨writeHeader g w.mem sp (slab+color) (g.chunksFor color), w.books⟩ 0 []
      (g.chunksFrom (slab+color) 0).reverse :=
    ⟨Built.nil (load64_head_writeHeader _ _ _ _), hw, by simp⟩
  obtain ⟨j, bcs, hj, hmid, htrue, hfalse⟩ :=
    buildLoop_midway hb hsite (Nat.zero_add (g.chunksFor color)) hstart
  rw [chunkAt, Nat.zero_mul, BitVec.add_zero] at hmid htrue hfalse
  unfold buildSlab
  dsimp only
  generalize buildLoop g d below sp (g.chunksFor color) 0 (slab+color)
    ⟨writeHeader g w.mem sp (slab+color) (g.chunksFor color), w.books⟩ = r at hmid htrue hfalse ⊢
  cases hdone : r.2 with
  | true =>
    obtain ⟨rfl, hnone⟩ := htrue hdone
    rw [if_pos rfl]
    refine ⟨_, _, rfl, by simp, ?_⟩
    rintro sp' heq
    cases heq
    refine ⟨⟨⟨bcs, hmid.built.chain, ?_⟩, chunksFrom_nodup slab color⟩, ?_⟩
    · change (bcs.map (addrOf g r.1.mem)).Perm _
      rw [hmid.built.addrs]
      exact reverse_perm _
    · intro hhash k hk
      exact hnone hhash k (Nat.zero_le k) hk
  | false =>
    obtain ⟨hhash, hrefused⟩ := hfalse hdone
    have hlen : bcs.length = j := by
      have := congrArg length hmid.built.addrs
      simpa [Geom.chunksFrom] using this
    obtain ⟨w', heq, hbooks⟩ := unwind_midway (n := g.chunksFor color+1) hb hsite hhash hj hmid
      (by omega)
    rw [if_neg (by decide), heq, Option.map_some]
    refine ⟨_, _, rfl, fun _ => ⟨⟨hhash, hrefused⟩, ?_⟩, by simp⟩
    apply books_allocFailure
    change w'.books.giveBack .slabCache sp = _
    rw [hbooks, Books.holding, if_pos hhash, foldr_nil, Books.giveBack_take]

/-- The part with a span fails when and only when the header or a bufctl is refused. -/
theorem buildSpan_spec (hb : below.Honest g d) (hcolor : color.toNat ≤ g.maxcolor.toNat)
    (hspan : below.answer .arena 0 = some slab) {w : World ρ} {b : Books ρ}
    (hw : w.books = b.take .arena slab) :
    ∃ w' r, buildSpan g d below color slab w = some (w', r) ∧
      (r = none ↔ Refused g below color) ∧ (r = none → w'.books = b.failed) ∧
      ∀ sp, r = some sp → Complete g w'.mem slab sp color := by
  unfold buildSpan
  dsimp only
  generalize hfill : (if (!d.notouch && d.flags.deadbeef) = true then _ else w : World ρ) = w₁
  have hw₁ : w₁.books = b.take .arena slab := by
    rw [← hfill, ← hw]
    split <;> rfl
  cases hhash : g.hash with
  | true =>
    rw [if_pos rfl, World.alloc]
    cases hheader : below.answer .slabCache 0 with
    | none =>
      refine ⟨_, none, rfl, ?_, fun _ => books_allocFailure hw₁, by simp⟩
      simp [Refused, hhash, hheader]
    | some sp =>
      have hsite : Site g below slab sp color :=
        ⟨hcolor, hspan, by rw [if_pos hhash]; exact hheader⟩
      have hhold : w₁.books.take .slabCache sp = b.holding g slab sp [] := by
        rw [hw₁, Books.holding, if_pos hhash, foldr_nil]
      obtain ⟨w', r, heq, hnone, hsome⟩ := buildSlab_spec hb hsite
        (w := ⟨(w₁.disturb g d (below.allocJunk .slabCache 0)).mem,
          w₁.books.take .slabCache sp⟩) hhold
      refine ⟨w', r, heq, ⟨?_, ?_⟩, fun hr => (hnone hr).2, fun sp hr => (hsome sp hr).1⟩
      · intro hr
        exact .inr ⟨hhash, .inr (hnone hr).1.2⟩
      · rintro (harena | ⟨-, hsp | ⟨k, hk, hrefused⟩⟩)
        · simp [hspan] at harena
        · simp [hheader] at hsp
        · cases r with
          | none => rfl
          | some sp' => exact absurd hrefused ((hsome sp' rfl).2 hhash k hk)
  | false =>
    have hsite : Site g below slab (g.umemSlab slab) color :=
      ⟨hcolor, hspan, by rw [if_neg (by simp [hhash])]⟩
    have hhold : w₁.books = b.holding g slab (g.umemSlab slab) [] := by
      rw [hw₁, Books.holding, if_neg (by simp [hhash])]
    obtain ⟨w', r, heq, hnone, hsome⟩ := buildSlab_spec hb hsite hhold
    rw [if_neg (by decide)]
    refine ⟨w', r, heq, ⟨?_, ?_⟩, fun hr => (hnone hr).2, fun sp hr => (hsome sp hr).1⟩
    · intro hr
      simp [hhash] at hnone
      exact absurd hr hnone
    · rintro (harena | ⟨htrue, -⟩)
      · simp [hspan] at harena
      · simp [hhash] at htrue

theorem nextColor_le (color : Word) : (nextColor g color).toNat ≤ g.maxcolor.toNat := by
  unfold nextColor
  split
  · exact g.mincolor_le
  · rename_i hle
    exact Nat.le_of_not_lt hle

theorem unwound_of_books {w w' : World ρ} (h : w'.books = (w.books.rotate g).failed) :
    Unwound g w w' := by
  refine ⟨?_, ?_, ?_, ?_⟩ <;> rw [h] <;> rfl

/-- `umem_slab_create` returns null when and only when a pool refuses. It then leaves nothing behind,
and otherwise the list of the new slab has each chunk once. -/
theorem umemSlabCreate_unwinds (g : Geom) (d : Debug g) (below : Below) (hb : below.Honest g d)
    (w : World ρ) :
    ∃ w' r, umemSlabCreate g d below w = some (w', r) ∧
      (r = none ↔ Refused g below (nextColor g w.books.cache.cacheColor)) ∧
      (r = none → Unwound g w w') ∧
      ∀ sp, r = some sp → ∃ slab, below.answer .arena 0 = some slab ∧
        Complete g w'.mem slab sp (nextColor g w.books.cache.cacheColor) := by
  rw [umemSlabCreate, World.alloc]
  cases hspan : below.answer .arena 0 with
  | none =>
    refine ⟨_, none, rfl, ?_, fun _ => unwound_of_books rfl, by simp⟩
    simp [Refused, hspan]
  | some slab =>
    obtain ⟨w', r, heq, hiff, hnone, hsome⟩ := buildSpan_spec hb
      (nextColor_le w.books.cache.cacheColor) hspan (b := w.books.rotate g)
      (w := ⟨(World.disturb g d ⟨w.mem, w.books.rotate g⟩ (below.allocJunk .arena 0)).mem,
        (w.books.rotate g).take .arena slab⟩) rfl
    exact ⟨w', r, heq, hiff, fun hr => unwound_of_books (hnone hr), fun sp hr => ⟨slab, rfl,
      hsome sp hr⟩⟩

end

/-- A cache of large buffers with a hash table, two of them in a page. -/
def twoInPage : Geom :=
  { hashedCache with
    chunksize := 2040
    bufctl := 0
    maxcolor := 16
    hashShift := 10
    chunksize_pos := by decide
    mincolor_le := by decide
    maxcolor_lt := by decide
    fits := by decide
    bufctl_le := by decide
    aligned := by decide }

def fullDebug : Debug twoInPage where
  flags := ⟨true, true, true, true, true, false, false⟩
  notouch := false
  buftag := 2016
  verify := 2016
  auditSize := 192
  tag_fits := by decide
  verify_fits := by decide
  audit_fits := by decide

def lastObject : Pool → Word
  | .arena => 0x10000
  | .slabCache => 0x20000
  | .bufctlCache => 0x30000

def oneEach : Below where
  answer p k := if k = 0 then some (lastObject p) else none
  allocJunk _ _ _ := 0xff
  freeJunk _ _ _ := 0xff

def nothingLeft : Below := { oneEach with answer _ _ := none }

theorem oneEach_honest : oneEach.Honest twoInPage fullDebug where
  nonnull p k := by
    cases p <;> simp [oneEach, lastObject]
  apart := by
    intro p k a p' k' a' h h' hne
    obtain ⟨rfl, rfl⟩ : k = 0 ∧ lastObject p = a := by simpa [oneEach] using h
    obtain ⟨rfl, rfl⟩ : k' = 0 ∧ lastObject p' = a' := by simpa [oneEach] using h'
    have hne' : p ≠ p' := by
      rintro rfl
      exact hne rfl
    cases p <;> cases p' <;> first
      | exact absurd rfl hne'
      | exact disjoint_region_of_le (by decide) (by decide)
      | exact (disjoint_region_of_le (by decide) (by decide)).symm
  aligned := by
    intro k slab h
    obtain ⟨-, rfl⟩ : k = 0 ∧ lastObject .arena = slab := by simpa [oneEach] using h
    decide

theorem nothingLeft_honest : nothingLeft.Honest twoInPage fullDebug where
  nonnull _ _ := by simp [nothingLeft]
  apart _ _ _ _ _ _ h := by simp [nothingLeft] at h
  aligned _ _ h := by simp [nothingLeft] at h

def newCache : World Unit where
  mem _ := 0
  books := ⟨⟨0, 0, ()⟩, [], fun _ => [], [], 0⟩

/-- The second bufctl is refused. -/
theorem umemSlabCreate_unwinds_second :
    ∃ w', umemSlabCreate twoInPage fullDebug oneEach newCache = some (w', none) ∧
      Unwound twoInPage newCache w' := by
  obtain ⟨w', r, heq, hiff, hnone, -⟩ :=
    umemSlabCreate_unwinds twoInPage fullDebug oneEach oneEach_honest newCache
  obtain rfl := hiff.mpr (.inr ⟨rfl, .inr ⟨1, by decide, rfl⟩⟩)
  exact ⟨w', heq, hnone rfl⟩

/-- The color is picked before anything can fail, and is not put back. -/
theorem umemSlabCreate_keeps_color : nothingLeft.Honest twoInPage fullDebug ∧
    ∃ w', umemSlabCreate twoInPage fullDebug nothingLeft newCache = some (w', none) ∧
      w'.books.cache ≠ { newCache.books.cache with
        cacheAllocFail := newCache.books.cache.cacheAllocFail + 1 } :=
  ⟨nothingLeft_honest, _, rfl, by decide⟩

end Libumem.Slab.Making
