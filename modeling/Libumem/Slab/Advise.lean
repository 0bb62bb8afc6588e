import Libumem.Slab.Geometry

/-!
# The pages that a reclaimed slab gives back

`umem_slab_reclaim` rounds the base of the slab up to a page and takes `P2END` of the base for the end
of the slab. `P2END` falls short of the end by as much as the slab is out of phase with its size: the
range stays inside of the slab, and it covers the whole pages of the slab when the slab is aligned to
its size.
-/

namespace Libumem.Slab
open Arith Lib.Pow2

def umemSlabKeepsMetadata (hash buftag : Bool) : Bool := !hash || buftag

/-- `umem_slab_reclaim`: the address and the size that it passes on to the kernel. -/
def umemSlabReclaim (pagesize : Word) (hash buftag : Bool) (slabBase slabsize : Word) :
    Option (Word × Word) :=
  if umemSlabKeepsMetadata hash buftag then none
  else
    let start := p2roundup slabBase pagesize
    let limit := p2end slabBase slabsize
    let stop := p2align limit pagesize
    if stop ≤ start then none else some (start, stop - start)

section
variable {q slab color size : Word}

theorem p2end_eq_add (x a : Word) : p2end x a = x+a-p2phase x a := by
  have hnot : ~~~x = -x-1 := by bv_omega
  have hlow : a-1-(~~~x &&& (a-1)) = x &&& (a-1) := by
    have hsplit := sub_and_neg (a-1) (x+1)
    rwa [neg_eq_not_sub_one, add_sub_cancel_right, BitVec.and_comm (a-1) (~~~x),
      BitVec.and_comm (a-1) x] at hsplit
  have hmask := sub_and_neg (~~~x) a
  rw [p2end, p2phase]
  linear_combination hmask-hlow-hnot

section
variable (hq : IsPow2 q) (hslab : q.toNat ∣ slab.toNat) (hsize : q.toNat ∣ size.toNat)
  (hpos : 0 < size.toNat) (hcolor : color.toNat < q.toNat) (hlt : slab.toNat + color.toNat < 2 ^ 64)
include hq hslab hsize hpos hcolor hlt

theorem p2phase_add_color : p2phase (slab+color) size = p2phase slab size+color := by
  obtain ⟨k, -, hk⟩ := hq
  rw [hk] at hslab hsize hcolor
  obtain ⟨m, hm⟩ := hslab
  obtain ⟨n, hn⟩ := hsize
  obtain ⟨n, rfl⟩ : ∃ j, n = j+1 := ⟨n-1, by
    cases n with
    | zero => omega
    | succ n => rfl⟩
  have hmask : (size-1).toNat = 2^k * n+(2^k-1) := by
    have : (size-1).toNat = size.toNat-1 := by bv_omega
    rw [this, hn, Nat.mul_add, Nat.mul_one]
    have := Nat.two_pow_pos k
    omega
  have hlow : 2^k-1 < 2^k := Nat.sub_lt (Nat.two_pow_pos k) Nat.one_pos
  have hphase : (p2phase slab size).toNat = 2^k * (m &&& n) := by
    have := mul_add_and_mul_add m n (Nat.two_pow_pos k) hlow
    rw [p2phase, BitVec.toNat_and, hmask, hm]
    simpa using this
  have hle : (p2phase slab size).toNat ≤ slab.toNat := by
    rw [p2phase, BitVec.toNat_and]
    exact Nat.and_le_left
  apply BitVec.eq_of_toNat_eq
  rw [BitVec.toNat_add, Nat.mod_eq_of_lt (by omega), hphase, p2phase, BitVec.toNat_and, hmask,
    BitVec.toNat_add, Nat.mod_eq_of_lt hlt, hm, mul_add_and_mul_add m n hcolor hlow,
    Nat.and_two_pow_sub_one_eq_mod, Nat.mod_eq_of_lt hcolor]

theorem p2end_add_color : p2end (slab+color) size = slab+size-p2phase slab size := by
  rw [p2end_eq_add, p2phase_add_color hq hslab hsize hpos hcolor hlt]
  ring

end

theorem p2phase_le (x a : Word) : (p2phase x a).toNat ≤ x.toNat := by
  rw [p2phase, BitVec.toNat_and]
  exact Nat.and_le_left

theorem toNat_limit (hlt : slab.toNat+size.toNat < 2^64) :
    (slab+size-p2phase slab size).toNat = slab.toNat+size.toNat-(p2phase slab size).toNat := by
  have hle := p2phase_le slab size
  have hsum : (slab+size).toNat = slab.toNat+size.toNat := by
    rw [BitVec.toNat_add, Nat.mod_eq_of_lt hlt]
  rw [BitVec.toNat_sub_of_le, hsum]
  rw [BitVec.le_def, hsum]
  omega

end

section

/-- The advised range covers the addresses from `lo` to `hi`. -/
def Covers : Option (Word × Word) → Nat → Nat → Prop
  | none, _, _ => False
  | some (start, size), lo, hi => start.toNat ≤ lo ∧ hi ≤ start.toNat + size.toNat

instance (r : Option (Word × Word)) (lo hi : Nat) : Decidable (Covers r lo hi) := by
  cases r with
  | none => exact instDecidableFalse
  | some r => exact instDecidableAnd

variable {pagesize slabBase slabsize : Word}

theorem covers_umemSlabReclaim (pagesize slabBase slabsize : Word) {lo hi : Nat} (hlt : lo < hi) :
    Covers (umemSlabReclaim pagesize true false slabBase slabsize) lo hi ↔
      (p2roundup slabBase pagesize).toNat ≤ lo ∧
        hi ≤ (p2align (p2end slabBase slabsize) pagesize).toNat := by
  change Covers (if p2align (p2end slabBase slabsize) pagesize ≤ p2roundup slabBase pagesize then none
    else some (p2roundup slabBase pagesize,
      p2align (p2end slabBase slabsize) pagesize-p2roundup slabBase pagesize)) lo hi ↔ _
  generalize p2roundup slabBase pagesize = start
  generalize p2align (p2end slabBase slabsize) pagesize = stop
  by_cases hle : stop ≤ start
  · rw [if_pos hle]
    rw [BitVec.le_def] at hle
    constructor
    · exact False.elim
    · rintro ⟨hstart, hstop⟩
      omega
  · rw [if_neg hle]
    rw [BitVec.le_def] at hle
    have hsub : (stop-start).toNat = stop.toNat-start.toNat :=
      BitVec.toNat_sub_of_le (BitVec.le_def.mpr (by omega))
    change start.toNat ≤ lo ∧ hi ≤ start.toNat+(stop-start).toNat ↔ _
    rw [hsub, Nat.add_sub_of_le (by omega)]

theorem p2align_of_dvd (hpage : IsPow2 pagesize) {x : Word} (hx : pagesize.toNat ∣ x.toNat) :
    p2align x pagesize = x := by
  apply BitVec.eq_of_toNat_eq
  rw [toNat_p2align x hpage, Nat.dvd_iff_mod_eq_zero.mp hx, Nat.sub_zero]

theorem umemSlabReclaim_eq_some {hash buftag : Bool} {r : Word × Word}
    (h : umemSlabReclaim pagesize hash buftag slabBase slabsize = some r) :
    hash = true ∧ buftag = false ∧ r.1 = p2roundup slabBase pagesize ∧
      r.1.toNat+r.2.toNat = (p2align (p2end slabBase slabsize) pagesize).toNat := by
  unfold umemSlabReclaim at h
  split at h
  case isTrue => simp at h
  rename_i hkeeps
  dsimp only at h
  split at h
  case isTrue => simp at h
  rename_i hle
  cases h
  rw [BitVec.le_def] at hle
  have hsub : (p2align (p2end slabBase slabsize) pagesize-p2roundup slabBase pagesize).toNat =
      (p2align (p2end slabBase slabsize) pagesize).toNat-(p2roundup slabBase pagesize).toNat :=
    BitVec.toNat_sub_of_le (BitVec.le_def.mpr (by omega))
  simp only [umemSlabKeepsMetadata, Bool.or_eq_true, Bool.not_eq_true', not_or,
    Bool.not_eq_false, Bool.not_eq_true] at hkeeps
  refine ⟨hkeeps.1, hkeeps.2, rfl, ?_⟩
  dsimp only
  rw [hsub]
  omega

/-- What is advised lies in the span of the slab, unless the slab begins inside of the last page of the
address space, where rounding up leads to address 0. -/
theorem advised_in_span {g : Geom} {sl : UmemSlab} (hspan : g.SpanOk sl) (hpage : IsPow2 pagesize)
    (htop : sl.slabBase.toNat+pagesize.toNat ≤ 2^64 ∨ pagesize.toNat ≤ g.quantum.toNat)
    {hash buftag : Bool} {r : Word × Word}
    (h : umemSlabReclaim pagesize hash buftag sl.slabBase g.slabsize = some r) :
    g.spanStart sl ≤ r.1.toNat ∧ r.1.toNat+r.2.toNat ≤ g.spanStart sl+g.slabsize.toNat := by
  obtain ⟨-, -, hstart, hstop⟩ := umemSlabReclaim_eq_some h
  have hbound := hspan.bound
  have hin := hspan.base_in_span
  have hppos := hpage.pos
  have hdvd := g.spanStart_dvd sl
  -- with pages that are no larger than the quantum the span ends below the last page
  have htop : sl.slabBase.toNat+pagesize.toNat ≤ 2^64 := by
    rcases htop with htop | hle
    · exact htop
    · have hpq := hpage.dvd_of_le g.quantum_pow2 hle
      have hend : pagesize.toNat ∣ 2^64-(g.spanStart sl+g.slabsize.toNat) :=
        Nat.dvd_sub hpage.dvd_two_pow (Nat.dvd_add (hpq.trans hdvd) (hpq.trans g.slabsize_dvd))
      have := Nat.le_of_dvd (by omega) hend
      omega
  constructor
  · have hround : roundUp sl.slabBase.toNat pagesize.toNat ≤ 2^64-pagesize.toNat :=
      roundUp_le_of_dvd hppos (Nat.dvd_sub hpage.dvd_two_pow (dvd_refl _)) (by omega)
    have := le_roundUp (n := sl.slabBase.toNat) hppos
    rw [hstart, toNat_p2roundup_of_lt hpage (by omega)]
    omega
  · have hslab : (BitVec.ofNat 64 (g.spanStart sl)).toNat = g.spanStart sl := by
      rw [BitVec.toNat_ofNat, Nat.mod_eq_of_lt (by omega)]
    have hmod := Nat.mod_lt sl.slabBase.toNat g.quantum_pow2.pos
    have hcolor : (BitVec.ofNat 64 (sl.slabBase.toNat % g.quantum.toNat)).toNat =
        sl.slabBase.toNat % g.quantum.toNat := by
      rw [BitVec.toNat_ofNat, Nat.mod_eq_of_lt (hmod.trans g.quantum.isLt)]
    have hsum : g.spanStart sl+sl.slabBase.toNat % g.quantum.toNat = sl.slabBase.toNat :=
      Nat.sub_add_cancel (Nat.mod_le _ _)
    have hbase : sl.slabBase = BitVec.ofNat 64 (g.spanStart sl) +
        BitVec.ofNat 64 (sl.slabBase.toNat % g.quantum.toNat) := by
      apply BitVec.eq_of_toNat_eq
      rw [BitVec.toNat_add, hslab, hcolor, hsum, Nat.mod_eq_of_lt sl.slabBase.isLt]
    have hlimit : p2end (BitVec.ofNat 64 (g.spanStart sl) +
        BitVec.ofNat 64 (sl.slabBase.toNat % g.quantum.toNat)) g.slabsize = _ :=
      p2end_add_color g.quantum_pow2 (by rwa [hslab]) g.slabsize_dvd (by omega) (by rwa [hcolor])
        (by rw [hslab, hcolor, hsum]; exact sl.slabBase.isLt)
    rw [← hbase] at hlimit
    have halign := toNat_p2align (p2end sl.slabBase g.slabsize) hpage
    rw [hstop, halign, hlimit, toNat_limit (by rw [hslab]; exact hbound), hslab]
    omega

end

/-- A slab of whole pages gives back every whole page behind its color if and only if there is no such
page, or the slab is aligned to its size and ends below the top of the address space. -/
theorem reclaim_advises_whole_pages_iff (g : Geom) (pagesize slab color : Word)
    (hhash : g.hash = true) (hpage : IsPow2 pagesize) (hsize : pagesize.toNat ∣ g.slabsize.toNat)
    (hslab : pagesize.toNat ∣ slab.toNat) (hquantum : g.quantum.toNat ∣ slab.toNat)
    (hcolor : color.toNat ≤ g.maxcolor.toNat) (hend : slab.toNat + g.slabsize.toNat ≤ 2 ^ 64) :
    (∀ page, pagesize.toNat ∣ page → (slab + color).toNat ≤ page →
      page + pagesize.toNat ≤ slab.toNat + g.slabsize.toNat →
      Covers (umemSlabReclaim pagesize g.hash false (slab + color) g.slabsize) page
        (page + pagesize.toNat)) ↔
    g.slabsize.toNat < roundUp color.toNat pagesize.toNat + pagesize.toNat ∨
      p2phase slab g.slabsize = 0 ∧ slab.toNat + g.slabsize.toNat < 2 ^ 64 := by
  have hfits := g.fits
  have hpos := g.chunksize_pos
  have hppos := hpage.pos
  have hbase : (slab+color).toNat = slab.toNat+color.toNat := by
    rw [BitVec.toNat_add, Nat.mod_eq_of_lt (by omega)]
  have hlimit := p2end_add_color g.quantum_pow2 hquantum g.slabsize_dvd (by omega)
    (Nat.lt_of_le_of_lt hcolor g.maxcolor_lt) (by omega)
  have hphase : pagesize.toNat ∣ (p2phase slab g.slabsize).toNat := by
    rw [p2phase, BitVec.and_comm]
    exact dvd_toNat_and hpage _ hslab
  have hstop : p2align (p2end (slab+color) g.slabsize) pagesize =
      slab+g.slabsize-p2phase slab g.slabsize := by
    rw [hlimit]
    exact p2align_of_dvd hpage (dvd_toNat_sub hpage (dvd_toNat_add hpage hslab hsize) hphase)
  have hcovers : ∀ page, Covers (umemSlabReclaim pagesize g.hash false (slab+color) g.slabsize)
      page (page+pagesize.toNat) ↔ (p2roundup (slab+color) pagesize).toNat ≤ page ∧
        page+pagesize.toNat ≤ (slab+g.slabsize-p2phase slab g.slabsize).toNat := by
    intro page
    rw [hhash, covers_umemSlabReclaim _ _ _ (by omega), hstop]
  simp only [hcovers]
  rw [hbase]
  constructor
  · -- the last page of the slab decides
    intro hall
    by_cases hnone : g.slabsize.toNat < roundUp color.toNat pagesize.toNat+pagesize.toNat
    · exact .inl hnone
    · right
      have hround := le_roundUp (n := color.toNat) hppos
      have hlast := (hall (slab.toNat+g.slabsize.toNat-pagesize.toNat)
        (Nat.dvd_sub (Nat.dvd_add hslab hsize) (dvd_refl _)) (by omega) (by omega)).2
      have hlt : slab.toNat+g.slabsize.toNat < 2 ^ 64 := by
        have := (slab+g.slabsize-p2phase slab g.slabsize).isLt
        omega
      rw [toNat_limit hlt] at hlast
      have hle := p2phase_le slab g.slabsize
      refine ⟨BitVec.eq_of_toNat_eq ?_, hlt⟩
      change _ = 0
      omega
  · rintro (hnone | ⟨haligned, hlt⟩) page hdvd hle hlast
    · have hround : roundUp (slab.toNat+color.toNat) pagesize.toNat ≤ page :=
        roundUp_le_of_dvd hppos hdvd hle
      rw [roundUp_add_of_dvd hppos hslab] at hround
      omega
    · have hround : roundUp (slab+color).toNat pagesize.toNat ≤ page := by
        rw [hbase]
        exact roundUp_le_of_dvd hppos hdvd hle
      constructor
      · rw [toNat_p2roundup_of_lt hpage (by omega)]
        exact hround
      · rw [toNat_limit hlt, haligned]
        exact hlast

/-- The cache of the 4 KiB objects: sixteen of them share a slab. -/
def pageObjects : Geom where
  cp := 0x100
  nullslab := 0x200
  hash := true
  quantum := 0x1000
  slabsize := 0x10000
  chunksize := 0x1000
  bufctl := 0xff8
  align := 16
  mincolor := 0
  maxcolor := 0
  hashShift := 12
  linkCookie := 0
  quantum_pow2 := isPow2_page
  slabsize_dvd := by decide
  slabsize_eq := nofun
  chunksize_pos := by decide
  mincolor_le := by decide
  maxcolor_lt := by decide
  fits := by decide
  bufctl_le := nofun
  aligned := nofun

/-- A slab that is aligned to its 64 KiB gives back all of its sixteen pages. -/
theorem reclaim_advises_aligned_slab :
    Covers (umemSlabReclaim 0x1000 true false 0x10000 0x10000) 0x1f000 0x20000 :=
  (reclaim_advises_whole_pages_iff pageObjects 0x1000 0x10000 0 rfl ⟨12, by decide, rfl⟩ (by decide)
    (by decide) (by decide) (by decide) (by decide)).mpr
    (.inr ⟨by decide, by decide⟩) 0x1f000 (by decide) (by decide) (by decide)

/-- The arena may deliver the 64 KiB at any page. At the second page of an aligned 64 KiB block the
last page of the slab is not advised. -/
theorem reclaim_misses_last_page :
    p2phase 0x11000 pageObjects.quantum = 0 ∧
    umemSlabReclaim 0x1000 pageObjects.hash false 0x11000 pageObjects.slabsize =
      some (0x11000, 0xf000) ∧
    0x20000 + 0x1000 ≤ 0x11000 + pageObjects.slabsize.toNat ∧
    ¬ Covers (umemSlabReclaim 0x1000 pageObjects.hash false 0x11000 pageObjects.slabsize) 0x20000
      0x21000 := by
  decide

end Libumem.Slab
