import Libumem.Slab.CacheCreate

/-!
# How a slab of a proper cache is cut

The facts that the slab layer takes for granted about a cache, and what follows from them for every
slab that the arena can deliver and every color.
-/

namespace Libumem.Slab
open BitVec Arith Lib.Pow2

/-- What the slab layer takes for granted. -/
structure Cache.Proper (c : Cache) : Prop where
  quantum_pow2 : IsPow2 c.quantum
  align_pow2 : IsPow2 c.align
  align_le : c.align.toNat ≤ c.quantum.toNat
  chunksize_pos : 0 < c.chunksize.toNat
  chunksize_dvd : c.align.toNat ∣ c.chunksize.toNat
  slabsize_dvd : c.quantum.toNat ∣ c.slabsize.toNat
  slabsize_eq : c.hash = false → c.slabsize = c.quantum
  mincolor_le : c.mincolor.toNat ≤ c.maxcolor.toNat
  mincolor_dvd : c.align.toNat ∣ c.mincolor.toNat
  maxcolor_lt : c.maxcolor.toNat < c.quantum.toNat
  fits : c.maxcolor.toNat + c.chunksize.toNat + (if c.hash then 0 else sizeofSlab) ≤ c.slabsize.toNat
  link : c.hash = false → c.bufctl.toNat + 8 ≤ c.chunksize.toNat ∧ 8 ∣ c.bufctl.toNat ∧
    8 ∣ c.align.toNat
  tag : c.tagged = true → c.bufsize.toNat ≤ c.buftag.toNat ∧
    c.buftag.toNat + sizeofBuftag ≤ c.chunksize.toNat

namespace Cache.Proper
variable {c : Cache} {slab color : Word}

/-- The geometry that the slab layer works with. -/
def geom (h : c.Proper) (cp nullslab linkCookie : Word) : Geom where
  cp := cp
  nullslab := nullslab
  hash := c.hash
  quantum := c.quantum
  slabsize := c.slabsize
  chunksize := c.chunksize
  bufctl := c.bufctl
  align := c.align
  mincolor := c.mincolor
  maxcolor := c.maxcolor
  hashShift := highbit c.chunksize - 1
  linkCookie := linkCookie
  quantum_pow2 := h.quantum_pow2
  slabsize_dvd := h.slabsize_dvd
  slabsize_eq := h.slabsize_eq
  chunksize_pos := h.chunksize_pos
  mincolor_le := h.mincolor_le
  maxcolor_lt := h.maxcolor_lt
  fits := h.fits
  bufctl_le hhash := (h.link hhash).1
  aligned hhash := by
    obtain ⟨-, hbufctl, halign⟩ := h.link hhash
    exact ⟨halign.trans h.chunksize_dvd, hbufctl, halign, halign.trans h.mincolor_dvd⟩

theorem align_dvd (h : c.Proper) : c.align.toNat ∣ c.quantum.toNat :=
  h.align_pow2.dvd_of_le h.quantum_pow2 h.align_le

theorem color_le (h : c.Proper) {color : Word} (hcolor : c.Color color) :
    color.toNat ≤ c.maxcolor.toNat ∧ c.align.toNat ∣ color.toNat := by
  have hnext : ∀ color : Word, color.toNat ≤ c.maxcolor.toNat → c.align.toNat ∣ color.toNat →
      (c.nextColor color).toNat ≤ c.maxcolor.toNat ∧ c.align.toNat ∣ (c.nextColor color).toNat := by
    intro color hle hdvd
    have hlt := h.maxcolor_lt
    have hhalf := h.quantum_pow2.le_half
    have halign := h.align_le
    have hadd : (color+c.align).toNat = color.toNat+c.align.toNat := by
      rw [toNat_add, Nat.mod_eq_of_lt (by omega)]
    unfold nextColor
    split
    · exact ⟨h.mincolor_le, h.mincolor_dvd⟩
    · rename_i hle'
      rw [lt_def, hadd] at hle'
      rw [hadd]
      exact ⟨by omega, Nat.dvd_add hdvd (dvd_refl _)⟩
  induction hcolor with
  | first => exact hnext _ h.mincolor_le h.mincolor_dvd
  | next _ ih => exact hnext _ ih.1 ih.2

section
variable (h : c.Proper) (hcolor : color.toNat ≤ c.maxcolor.toNat)
include h hcolor

theorem toNat_chunks : (c.chunks color).toNat =
    (c.slabsize.toNat-(if c.hash then 0 else sizeofSlab)-color.toNat)/c.chunksize.toNat := by
  have hfits := h.fits
  unfold chunks
  by_cases hhash : c.hash = true
  · rw [if_pos hhash] at hfits ⊢
    rw [if_pos hhash, toNat_udiv, toNat_sub_of_le (le_def.mpr (by omega)), Nat.sub_zero]
  · rw [if_neg hhash] at hfits ⊢
    have hheader : (BitVec.ofNat 64 sizeofSlab).toNat = sizeofSlab := rfl
    have hsub : (c.slabsize-BitVec.ofNat 64 sizeofSlab).toNat = c.slabsize.toNat-sizeofSlab :=
      toNat_sub_of_le (le_def.mpr (by omega))
    rw [if_neg hhash, toNat_udiv, toNat_sub_of_le (le_def.mpr (by rw [hsub]; omega)), hsub]

theorem chunks_pos : 0 < (c.chunks color).toNat := by
  have hfits := h.fits
  rw [h.toNat_chunks hcolor]
  apply Nat.div_pos _ h.chunksize_pos
  omega

theorem chunk_end_le {i : Nat} (hi : i < (c.chunks color).toNat) :
    color.toNat+i * c.chunksize.toNat+c.chunksize.toNat+(if c.hash then 0 else sizeofSlab) ≤
      c.slabsize.toNat := by
  have hfits := h.fits
  have hmul : (i+1) * c.chunksize.toNat ≤ (c.chunks color).toNat * c.chunksize.toNat :=
    Nat.mul_le_mul_right _ hi
  rw [h.toNat_chunks hcolor] at hmul
  have hdiv := Nat.div_mul_le_self
    (c.slabsize.toNat-(if c.hash then 0 else sizeofSlab)-color.toNat) c.chunksize.toNat
  rw [Nat.add_mul, Nat.one_mul] at hmul
  omega

theorem toNat_offset {i : Nat} (hi : i < (c.chunks color).toNat) :
    (color+BitVec.ofNat 64 i * c.chunksize).toNat = color.toNat+i * c.chunksize.toNat := by
  have hend := h.chunk_end_le hcolor hi
  have hlt := c.slabsize.isLt
  have hilt : i < 2^64 := hi.trans (c.chunks color).isLt
  have hpos := h.chunksize_pos
  have hmul : (BitVec.ofNat 64 i * c.chunksize).toNat = i * c.chunksize.toNat := by
    rw [toNat_mul, toNat_ofNat, Nat.mod_eq_of_lt hilt, Nat.mod_eq_of_lt (by omega)]
  rw [toNat_add, hmul, Nat.mod_eq_of_lt (by omega)]

theorem toNat_chunkAt (hend : slab.toNat+c.slabsize.toNat ≤ 2^64) {i : Nat}
    (hi : i < (c.chunks color).toNat) :
    (c.chunkAt slab color i).toNat = slab.toNat+(color.toNat+i * c.chunksize.toNat) := by
  have hle := h.chunk_end_le hcolor hi
  have hpos := h.chunksize_pos
  rw [chunkAt, add_assoc, toNat_add, h.toNat_offset hcolor hi, Nat.mod_eq_of_lt (by omega)]

theorem cut (hdvd : c.align.toNat ∣ color.toNat) (hslab : c.quantum.toNat ∣ slab.toNat)
    (hend : slab.toNat+c.slabsize.toNat ≤ 2^64) : c.Cut slab color where
  chunks_pos := h.chunks_pos hcolor
  inside i hi := by
    have hle := h.chunk_end_le hcolor hi
    rw [h.toNat_chunkAt hcolor hend hi]
    omega
  disjoint i j hij hj := by
    have hmul : (i+1) * c.chunksize.toNat ≤ j * c.chunksize.toNat := Nat.mul_le_mul_right _ hij
    rw [Nat.add_mul, Nat.one_mul] at hmul
    rw [h.toNat_chunkAt hcolor hend (hij.trans hj), h.toNat_chunkAt hcolor hend hj]
    omega
  aligned i hi := by
    rw [h.toNat_chunkAt hcolor hend hi]
    exact Nat.dvd_add (h.align_dvd.trans hslab)
      (Nat.dvd_add hdvd (h.chunksize_dvd.trans (Nat.dvd_mul_left _ _)))
  color_lt := Nat.lt_of_le_of_lt hcolor h.maxcolor_lt
  span := by
    have hfits := h.fits
    have hlt := Nat.lt_of_le_of_lt hcolor h.maxcolor_lt
    have hpos := h.chunksize_pos
    have hadd : (slab+color).toNat = slab.toNat+color.toNat := by
      rw [toNat_add, Nat.mod_eq_of_lt (by omega)]
    apply eq_of_toNat_eq
    rw [toNat_p2align _ h.quantum_pow2, hadd, Nat.add_mod, Nat.mod_eq_zero_of_dvd hslab,
      Nat.zero_add, Nat.mod_mod, Nat.mod_eq_of_lt hlt, Nat.add_sub_cancel]
  header hhash i hi := by
    have hsize := h.slabsize_eq hhash
    have hqpos := h.quantum_pow2.pos
    have hpos := h.chunksize_pos
    have hphase : p2phase slab c.slabsize = 0 := by
      rw [hsize]
      exact (and_pred_eq_zero_iff slab h.quantum_pow2).mpr hslab
    have hle := h.chunk_end_le hcolor hi
    -- the end of the slab, from any offset in it
    have hlimit : ∀ offset : Word, offset.toNat < c.quantum.toNat →
        p2end (slab+offset) c.slabsize = slab+c.slabsize := by
      intro offset hoffset
      have heq := p2end_add_color h.quantum_pow2 hslab h.slabsize_dvd (by rw [hsize]; exact hqpos)
        hoffset (by rw [hsize] at hend; omega)
      rw [heq, hphase, sub_zero]
    have hoffset : (color+BitVec.ofNat 64 i * c.chunksize).toNat < c.quantum.toNat := by
      rw [h.toNat_offset hcolor hi, ← hsize]
      omega
    constructor
    · rw [slabHeader, chunkAt, add_assoc, hlimit _ hoffset]
    · have := hlimit 0 hqpos
      rw [add_zero] at this
      rw [slabHeader, this]

end

theorem fits_all (h : c.Proper) : c.Fits where
  cut _ _ hslab _ hend hcolor :=
    h.cut (h.color_le hcolor).1 (h.color_le hcolor).2 hslab hend
  link hhash := (h.link hhash).1
  tag := h.tag

end Cache.Proper
end Libumem.Slab
