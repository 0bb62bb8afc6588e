import Libumem.Arith.P2

/-!
# The geometry of a slab

A slab is a span of the arena that is cut into chunks behind its color. A cache without a hash table
keeps the slab header at the end of the span and the bufctl of a buffer inside of the buffer, so both
are found by arithmetic on the address.
-/

namespace Libumem.Slab
open Arith

/-- `sizeof (umem_slab_t)`. -/
def sizeofSlab : Nat := 72

/-- `sizeof (umem_buftag_t)`. -/
def sizeofBuftag : Nat := 24

def p2end (x align : Word) : Word := -(~~~x &&& -align)

/-- What `umem_cache_create` settles for the slab layer of a cache. The header takes room in the
span only when there is no hash table. -/
structure Geom where
  cp : Word
  nullslab : Word
  hash : Bool
  quantum : Word
  slabsize : Word
  chunksize : Word
  bufctl : Word
  align : Word
  mincolor : Word
  maxcolor : Word
  hashShift : Nat
  linkCookie : Word
  quantum_pow2 : IsPow2 quantum
  slabsize_dvd : quantum.toNat ∣ slabsize.toNat
  slabsize_eq : hash = false → slabsize = quantum
  chunksize_pos : 0 < chunksize.toNat
  mincolor_le : mincolor.toNat ≤ maxcolor.toNat
  maxcolor_lt : maxcolor.toNat < quantum.toNat
  fits : maxcolor.toNat + chunksize.toNat + (if hash then 0 else sizeofSlab) ≤ slabsize.toNat
  bufctl_le : hash = false → bufctl.toNat + 8 ≤ chunksize.toNat
  aligned : hash = false → 8 ∣ chunksize.toNat ∧ 8 ∣ bufctl.toNat ∧ 8 ∣ align.toNat ∧
    8 ∣ mincolor.toNat

inductive SlabState
  | active
  | dirty
  | clean
  | reclaiming
  deriving DecidableEq, Repr

/-- `umem_slab_t` without its links. -/
structure UmemSlab where
  slabCache : Word
  slabBase : Word
  slabHead : Word
  slabRefcnt : Int
  slabChunks : Nat
  slabState : SlabState
  slabIdleTime : BitVec 32
  deriving DecidableEq, Repr

namespace Geom
variable (g : Geom)

/-- `UMEM_LINK_MANGLE`, which is also `UMEM_LINK_DEMANGLE`. -/
def linkMangle (slot val : Word) : Word := val ^^^ g.linkCookie ^^^ (slot >>> 12)

/-- `UMEM_SLAB`. -/
def umemSlab (buf : Word) : Word := p2end buf g.slabsize - BitVec.ofNat 64 sizeofSlab

/-- `UMEM_SLAB_MEMBER`. -/
def slabMember (sp : UmemSlab) (buf : Word) : Bool :=
  (buf - sp.slabBase).toNat < sp.slabChunks * g.chunksize.toNat

/-- `UMEM_SLAB_CHUNK`. -/
def slabChunk (sp : UmemSlab) (buf : Word) : Bool :=
  g.slabMember sp buf && (buf - sp.slabBase).toNat % g.chunksize.toNat = 0

def umemSlabLinkValid (sp : UmemSlab) (bcp : Word) : Bool :=
  bcp = 0 || (p2phase bcp 8 = 0 && (g.hash || g.slabChunk sp (bcp - g.bufctl)))

def chunksFor (color : Word) : Nat :=
  (g.slabsize.toNat - (if g.hash then 0 else sizeofSlab) - color.toNat) / g.chunksize.toNat

/-- The addresses of the first `n` chunks from `base` on. -/
def chunksFrom (base : Word) (n : Nat) : List Word :=
  (List.range n).map fun i => base + BitVec.ofNat 64 (i * g.chunksize.toNat)

def chunkStarts (sp : UmemSlab) : List Word := g.chunksFrom sp.slabBase sp.slabChunks

def spanStart (sp : UmemSlab) : Nat := sp.slabBase.toNat - sp.slabBase.toNat % g.quantum.toNat

/-- The chunks and the header fit into the span, and the span ends below the end of the address
space. -/
structure SpanOk (sp : UmemSlab) : Prop where
  chunks_pos : 0 < sp.slabChunks
  fits : sp.slabBase.toNat % g.quantum.toNat + sp.slabChunks * g.chunksize.toNat +
    (if g.hash then 0 else sizeofSlab) ≤ g.slabsize.toNat
  bound : g.spanStart sp + g.slabsize.toNat < 2 ^ 64

variable {g}

@[simp]
theorem linkMangle_linkMangle (slot val : Word) :
    g.linkMangle slot (g.linkMangle slot val) = val := by
  simp only [linkMangle, BitVec.xor_assoc]
  rw [BitVec.xor_comm (slot >>> 12) (g.linkCookie ^^^ slot >>> 12), BitVec.xor_assoc,
    BitVec.xor_self, BitVec.xor_zero, BitVec.xor_self, BitVec.xor_zero]

theorem toNat_p2end {x a : Word} (ha : IsPow2 a) (hlt : (x.toNat/a.toNat+1) * a.toNat < 2^64) :
    (p2end x a).toNat = (x.toNat/a.toNat+1) * a.toNat := by
  obtain ⟨m, hm⟩ := ha.dvd_two_pow
  have hpos := ha.pos
  have hxlt := x.isLt
  have hdiv := Nat.div_add_mod x.toNat a.toNat
  have hmod := Nat.mod_lt x.toNat hpos
  have hnot : (~~~x).toNat = 2^64-1-x.toNat := BitVec.toNat_not
  generalize x.toNat/a.toNat = k at *
  generalize x.toNat % a.toNat = r at *
  have hmul : (k+1) * a.toNat = a.toNat * k+a.toNat := by ring
  rw [hmul] at hlt ⊢
  -- the complement lies in the block that mirrors the one of `x`
  have hkm : k+1 ≤ m := by
    by_contra hgt
    have := Nat.mul_le_mul_left a.toNat (Nat.le_of_not_lt hgt)
    omega
  have hmirror : (~~~x).toNat = (a.toNat-1-r)+a.toNat * (m-(k+1)) := by
    rw [hnot, Nat.mul_sub, ← hm, Nat.mul_add]
    omega
  have halign : (p2align (~~~x) a).toNat = 2^64-(a.toNat * k+a.toNat) := by
    rw [toNat_p2align _ ha, hmirror, Nat.add_mul_mod_self_left, Nat.mod_eq_of_lt (by omega),
      Nat.add_sub_cancel_left, Nat.mul_sub, ← hm, Nat.mul_add, Nat.mul_one]
  change (-p2align (~~~x) a).toNat = _
  rw [BitVec.toNat_neg, halign, Nat.mod_eq_of_lt (by omega)]
  omega

section
variable {sp : UmemSlab} {buf : Word} {i : Nat}

theorem mem_chunksFrom {base : Word} {n : Nat} :
    buf ∈ g.chunksFrom base n ↔ ∃ i < n, base+BitVec.ofNat 64 (i * g.chunksize.toNat) = buf := by
  simp [chunksFrom]

theorem chunk_end_le (hi : i < sp.slabChunks) :
    i * g.chunksize.toNat+g.chunksize.toNat ≤ sp.slabChunks * g.chunksize.toNat := by
  rw [← Nat.succ_mul]
  exact Nat.mul_le_mul_right _ hi

theorem SpanOk.end_lt (h : g.SpanOk sp) :
    sp.slabBase.toNat+sp.slabChunks * g.chunksize.toNat+(if g.hash then 0 else sizeofSlab) ≤
      g.spanStart sp+g.slabsize.toNat := by
  have := h.fits
  have := Nat.mod_le sp.slabBase.toNat g.quantum.toNat
  unfold spanStart
  omega

theorem SpanOk.toNat_chunk (h : g.SpanOk sp) (hi : i < sp.slabChunks) :
    (sp.slabBase+BitVec.ofNat 64 (i * g.chunksize.toNat)).toNat =
      sp.slabBase.toNat+i * g.chunksize.toNat := by
  have hmul := chunk_end_le (g := g) hi
  have hend := h.end_lt
  have hbound := h.bound
  rw [BitVec.toNat_add, BitVec.toNat_ofNat, Nat.add_mod_mod, Nat.mod_eq_of_lt]
  omega

theorem slabChunk_iff (h : g.SpanOk sp) : g.slabChunk sp buf = true ↔ buf ∈ g.chunkStarts sp := by
  have hpos := g.chunksize_pos
  rw [chunkStarts, mem_chunksFrom]
  simp only [slabChunk, slabMember, Bool.and_eq_true, decide_eq_true_eq]
  constructor
  · rintro ⟨hlt, hmod⟩
    obtain ⟨i, hi⟩ := Nat.dvd_of_mod_eq_zero hmod
    rw [Nat.mul_comm] at hi
    refine ⟨i, ?_, ?_⟩
    · rw [hi] at hlt
      exact Nat.lt_of_mul_lt_mul_right hlt
    · rw [← hi, BitVec.ofNat_toNat, BitVec.setWidth_eq, add_sub_cancel]
  · rintro ⟨i, hi, rfl⟩
    have hmul := chunk_end_le (g := g) hi
    have hend := h.end_lt
    have hbound := h.bound
    have hdiff : (sp.slabBase+BitVec.ofNat 64 (i * g.chunksize.toNat)-sp.slabBase).toNat =
        i * g.chunksize.toNat := by
      rw [add_sub_cancel_left, BitVec.toNat_ofNat, Nat.mod_eq_of_lt (by omega)]
    rw [hdiff]
    exact ⟨by omega, Nat.mul_mod_left i _⟩

theorem SpanOk.chunkStarts_nodup (h : g.SpanOk sp) : (g.chunkStarts sp).Nodup := by
  apply List.Nodup.map_on _ List.nodup_range
  intro i hi j hj heq
  have hval := congrArg BitVec.toNat heq
  rw [h.toNat_chunk (List.mem_range.mp hi), h.toNat_chunk (List.mem_range.mp hj)] at hval
  exact Nat.eq_of_mul_eq_mul_right g.chunksize_pos (Nat.add_left_cancel hval)

theorem SpanOk.chunk_in_span (h : g.SpanOk sp) (hbuf : buf ∈ g.chunkStarts sp) :
    g.spanStart sp ≤ buf.toNat ∧ buf.toNat+g.chunksize.toNat +
      (if g.hash then 0 else sizeofSlab) ≤ g.spanStart sp+g.slabsize.toNat := by
  obtain ⟨i, hi, rfl⟩ := mem_chunksFrom.mp hbuf
  have hmul := chunk_end_le (g := g) hi
  have hend := h.end_lt
  rw [h.toNat_chunk hi]
  have : g.spanStart sp ≤ sp.slabBase.toNat := Nat.sub_le _ _
  omega

theorem spanStart_dvd (sp : UmemSlab) : g.quantum.toNat ∣ g.spanStart sp := Nat.dvd_sub_mod _

theorem SpanOk.toNat_umemSlab (h : g.SpanOk sp) (hhash : g.hash = false)
    (hle : g.spanStart sp ≤ buf.toNat) (hlt : buf.toNat < g.spanStart sp+g.slabsize.toNat) :
    (g.umemSlab buf).toNat = g.spanStart sp+g.slabsize.toNat-sizeofSlab := by
  have hbound := h.bound
  have hfits := h.fits
  have hsize := g.slabsize_eq hhash
  have hpos := g.quantum_pow2.pos
  rw [hhash, hsize] at hfits
  rw [hsize] at hbound hlt ⊢
  obtain ⟨k, hk⟩ := g.spanStart_dvd sp
  rw [hk] at hle hlt hbound ⊢
  have hdiv : buf.toNat/g.quantum.toNat = k := by
    rw [Nat.div_eq_iff hpos]
    constructor
    · rwa [Nat.mul_comm]
    · rw [Nat.mul_comm]
      omega
  have hend : (p2end buf g.quantum).toNat = g.quantum.toNat * k+g.quantum.toNat := by
    rw [toNat_p2end g.quantum_pow2 (by rw [hdiv, Nat.add_mul, Nat.mul_comm]; omega), hdiv]
    ring
  have hheader : (BitVec.ofNat 64 sizeofSlab).toNat = sizeofSlab := rfl
  rw [umemSlab, hsize, BitVec.toNat_sub_of_le, hend, hheader]
  rw [BitVec.le_def, hend, hheader]
  simp only [Bool.false_eq_true, if_false] at hfits
  omega

theorem SpanOk.base_in_span (h : g.SpanOk sp) :
    g.spanStart sp ≤ sp.slabBase.toNat ∧ sp.slabBase.toNat < g.spanStart sp+g.slabsize.toNat := by
  have := h.end_lt
  have := Nat.mul_le_mul_right g.chunksize.toNat h.chunks_pos
  have := g.chunksize_pos
  have : g.spanStart sp ≤ sp.slabBase.toNat := Nat.sub_le _ _
  omega

theorem SpanOk.umemSlab_chunk (h : g.SpanOk sp) (hhash : g.hash = false)
    (hbuf : buf ∈ g.chunkStarts sp) : g.umemSlab buf = g.umemSlab sp.slabBase := by
  have hspan := h.chunk_in_span hbuf
  have hpos := g.chunksize_pos
  rw [← BitVec.toNat_inj, h.toNat_umemSlab hhash hspan.1 (by omega),
    h.toNat_umemSlab hhash h.base_in_span.1 h.base_in_span.2]

end
end Geom

/-- A cache that cuts a page into two chunks. -/
def pageCache : Geom where
  cp := 0x1000
  nullslab := 0x1100
  hash := false
  quantum := 4096
  slabsize := 4096
  chunksize := 2000
  bufctl := 1992
  align := 8
  mincolor := 0
  maxcolor := 24
  hashShift := 11
  linkCookie := 0x5bd1e9955bd1e995
  quantum_pow2 := isPow2_page
  slabsize_dvd := by decide
  slabsize_eq _ := rfl
  chunksize_pos := by decide
  mincolor_le := by decide
  maxcolor_lt := by decide
  fits := by decide
  bufctl_le := by decide
  aligned := by decide

/-- A cache that cuts a page into two chunks, with a hash table. -/
def hashedCache : Geom :=
  { pageCache with
    hash := true
    slabsize_eq := nofun
    fits := by decide
    bufctl_le := nofun
    aligned := nofun }

end Libumem.Slab
