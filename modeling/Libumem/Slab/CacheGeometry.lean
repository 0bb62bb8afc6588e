import Libumem.Slab.CacheCut
import Libumem.Slab.CacheSizes

/-!
# When the geometry of a cache fits

A cache is cut right when its alignment is no larger than the quantum and the sizes that
`umem_cache_create` does not test are not cut off.
-/

namespace Libumem.Slab
open Arith Lib.Pow2
section
variable {t : Tunables} {vmp : Arena} {args : CreateArgs} {flags : Umf} {chunksize : Word} {c : Cache}

/-- The three ways to size a slab. -/
inductive Sized (vmp : Arena) (args : CreateArgs) (flags : Umf) (chunksize : Word) :
    Word × Word × Word × Bool → Prop
  | firewall {slabsize : Word} (hflag : flags.firewall = true)
      (hsize : slabsize = p2roundup chunksize vmp.quantum) :
      Sized vmp args flags chunksize (slabsize, slabsize - chunksize, slabsize - chunksize, true)
  | embedded (hflag : flags.firewall = false)
      (hkind : args.cflags.nohash = true ∨
        args.cflags.notouch = false ∧ chunksize < vmp.quantum / 8)
      (hfits : chunksize + BitVec.ofNat 64 sizeofSlab ≤ vmp.quantum) :
      Sized vmp args flags chunksize
        (vmp.quantum, 0, (vmp.quantum - BitVec.ofNat 64 sizeofSlab) % chunksize, false)
  | hashed {slabsize : Word} (hflag : flags.firewall = false) (hkind : args.cflags.nohash = false)
      (hsize : Candidate vmp.quantum chunksize slabsize) :
      Sized vmp args flags chunksize (slabsize, 0, slabsize % chunksize, true)

theorem slabParts_ends (vmp : Arena) (flags : Umf) (hqcache : args.cflags.qcache = false)
    (hpos : 0 < chunksize.toNat) :
    ∃ r, slabParts vmp args flags chunksize = some r ∧
      ∀ x, r = .ok x → Sized vmp args flags chunksize x := by
  unfold slabParts
  split
  · rename_i hflag
    refine ⟨_, rfl, ?_⟩
    rintro x ⟨rfl⟩
    exact Sized.firewall hflag rfl
  · rename_i hflag
    have hflag : flags.firewall = false := by simpa using hflag
    split
    · rename_i hkind
      split
      · exact ⟨_, rfl, by simp⟩
      · rename_i hfits
        refine ⟨_, rfl, ?_⟩
        rintro x ⟨rfl⟩
        refine Sized.embedded hflag ?_ ?_
        · simp only [Bool.or_eq_true, Bool.and_eq_true, Bool.not_eq_true', decide_eq_true_eq]
            at hkind
          exact hkind.imp id fun h => ⟨h.1.1, h.2⟩
        · rw [BitVec.lt_def] at hfits
          rw [BitVec.le_def]
          omega
    · rename_i hkind
      have hnohash : args.cflags.nohash = false := by
        simp only [Bool.or_eq_true, not_or] at hkind
        simpa using hkind.1
      obtain ⟨r, hloop, hr⟩ : ∃ r, bestFitLoop vmp.quantum chunksize 8 1 longMax none = some r ∧
          ∀ x, r = .ok x → ∃ b, x = some b ∧ Candidate vmp.quantum chunksize b :=
        bestFitLoop_ends vmp.quantum_pow2 hpos (by decide) (by decide) (by simp)
          (.inr ⟨rfl, rfl⟩)
      rw [hloop]
      cases r with
      | error e => exact ⟨_, rfl, by simp⟩
      | ok x =>
        obtain ⟨b, rfl, hb⟩ := hr x rfl
        refine ⟨_, rfl, ?_⟩
        rintro x ⟨rfl⟩
        refine Sized.hashed hflag hnohash ?_
        rw [hqcache]
        exact raiseDensity_candidate vmp.quantum_pow2 hpos hb

/-- What a successful call leaves. -/
structure Created (t : Tunables) (vmp : Arena) (args : CreateArgs) (c : Cache) : Prop where
  reasonable : args.reasonable vmp = true
  quantum : c.quantum = vmp.quantum
  align : c.align = cacheAlign args
  bufsize : c.bufsize = args.bufsize
  tagged : c.tagged = (cacheFlags t vmp args).buftag
  bufctl : c.bufctl = (chunkParts args.bufsize (cacheAlign args) (cacheFlags t vmp args).buftag).1
  buftag : c.buftag = (chunkParts args.bufsize (cacheAlign args) (cacheFlags t vmp args).buftag).2.1
  chunksize : c.chunksize = p2roundup
    (chunkParts args.bufsize (cacheAlign args) (cacheFlags t vmp args).buftag).2.2 (cacheAlign args)
  bufsize_le : args.bufsize.toNat ≤ c.chunksize.toNat
  sized : ∃ maxcolor, Sized vmp args (cacheFlags t vmp args) c.chunksize
    (c.slabsize, c.mincolor, maxcolor, c.hash) ∧
      c.maxcolor = if vmp.quantum ≤ maxcolor then vmp.quantum - 1 else maxcolor

theorem umemCacheCreate_ends (t : Tunables) (vmp : Arena) (args : CreateArgs)
    (hqcache : args.cflags.qcache = false) :
    ∃ r, umemCacheCreate t vmp args = some r ∧ ∀ c, r = .ok c → Created t vmp args c := by
  unfold umemCacheCreate
  split
  · exact ⟨_, rfl, by simp⟩
  · rename_i hreasonable
    have hreasonable : args.reasonable vmp = true := by simpa using hreasonable
    dsimp only
    split
    · exact ⟨_, rfl, by simp⟩
    · rename_i hle
      rw [BitVec.lt_def, Nat.not_lt] at hle
      have hpos := (reasonable_iff.mp hreasonable).2.2.2
      obtain ⟨r, hparts, hr⟩ := slabParts_ends vmp (cacheFlags t vmp args) hqcache
        (hpos.trans_le hle)
      rw [hparts]
      cases r with
      | error e => exact ⟨_, rfl, by simp⟩
      | ok x =>
        obtain ⟨slabsize, mincolor, maxcolor, hash⟩ := x
        refine ⟨_, rfl, ?_⟩
        rintro c ⟨rfl⟩
        exact ⟨hreasonable, rfl, rfl, rfl, rfl, rfl, rfl, rfl, hle, maxcolor, hr _ rfl, rfl⟩

theorem cacheFlags_firewall (h : (cacheFlags t vmp args).firewall = true) :
    vmp.firewalled = true ∧ args.cflags.nohash = false ∧ (cacheFlags t vmp args).buftag = false := by
  have hcall : ∀ f, args.cflags.nohash = true → (callFlags args.cflags f).firewall = false := by
    intro f hnohash
    simp only [callFlags, hnohash, if_true]
    split <;> split <;> rfl
  unfold cacheFlags at h ⊢
  generalize hf : callFlags args.cflags _ = f at h ⊢
  have hfirewall : args.cflags.nohash = true → f.firewall = false := fun hnohash => by
    rw [← hf]
    exact hcall _ hnohash
  clear hf hcall
  cases hvmp : vmp.firewalled
  · simp [firewallFlags, hvmp] at h
  · cases hnohash : args.cflags.nohash
    · have hlast : ∀ f : Umf, (if f.firewall then
          { f with deadbeef := false, redzone := false, nomagazine := true } else f).firewall = true →
          (if f.firewall then
            { f with deadbeef := false, redzone := false, nomagazine := true } else f).buftag =
              false := by
        intro f hf
        by_cases hset : f.firewall = true
        · rw [if_pos hset]
          rfl
        · rw [if_neg hset] at hf
          exact absurd hf hset
      exact ⟨rfl, rfl, hlast _ h⟩
    · simp [firewallFlags, hvmp, hnohash, hfirewall hnohash] at h

namespace Created
variable (h : Created t vmp args c)
include h

theorem align_pow2 : IsPow2 (cacheAlign args) := cacheAlign_pow2 (reasonable_iff.mp h.reasonable).1

theorem bufsize_pos : 0 < args.bufsize.toNat := (reasonable_iff.mp h.reasonable).2.2.2

theorem chunksize_eq : c.chunksize.toNat = roundUp (bufRoom args.bufsize (cacheAlign args) +
    tagRoom (cacheFlags t vmp args).buftag) (cacheAlign args).toNat := by
  have hle := h.bufsize_le
  rw [h.chunksize] at hle ⊢
  exact (toNat_chunksize _ h.align_pow2 h.bufsize_pos hle).2

theorem words_eq : (if 8 ≤ cacheAlign args then p2roundup args.bufsize 8 else args.bufsize).toNat =
    bufRoom args.bufsize (cacheAlign args) := by
  have hle := h.bufsize_le
  rw [h.chunksize] at hle
  exact (toNat_chunksize _ h.align_pow2 h.bufsize_pos hle).1

theorem align_eq : (cacheAlign args).toNat = args.alignWanted := by
  have hwords := h.words_eq
  unfold CreateArgs.alignWanted
  by_cases hzero : args.align = 0
  · rw [if_pos hzero]
    have h8 : (8 : Word) ≤ cacheAlign args := by
      unfold cacheAlign
      rw [if_pos hzero]
      split <;> decide
    rw [if_pos h8] at hwords
    have hroom : bufRoom args.bufsize (cacheAlign args) = roundUp args.bufsize.toNat 8 := by
      rw [bufRoom, if_pos (show 8 ≤ (cacheAlign args).toNat from BitVec.le_def.mp h8)]
    have htest : 16 ≤ p2roundup args.bufsize 8 ↔ 8 < args.bufsize.toNat := by
      rw [BitVec.le_def, hwords, hroom]
      have hle : args.bufsize.toNat ≤ roundUp args.bufsize.toNat 8 := le_roundUp (by decide)
      have hlt : roundUp args.bufsize.toNat 8 < args.bufsize.toNat+8 := roundUp_lt (by decide)
      have hdvd : 8 ∣ roundUp args.bufsize.toNat 8 := dvd_roundUp _ _
      change 16 ≤ roundUp args.bufsize.toNat 8 ↔ _
      omega
    unfold cacheAlign
    rw [if_pos hzero]
    by_cases hlarge : 8 < args.bufsize.toNat
    · rw [if_pos (htest.mpr hlarge), if_pos hlarge]
      rfl
    · rw [if_neg (fun h => hlarge (htest.mp h)), if_neg hlarge]
      rfl
  · rw [if_neg hzero]
    unfold cacheAlign
    rw [if_neg hzero]
    by_cases hsmall : args.align.toNat < 8 ∧ args.cflags.notouch = false
    · have hcond : (decide (args.align < 8) && !args.cflags.notouch) = true := by
        simpa [BitVec.lt_def] using hsmall
      rw [if_pos hsmall, if_pos hcond]
      rfl
    · have hcond : ¬ (decide (args.align < 8) && !args.cflags.notouch) = true := by
        simpa [BitVec.lt_def] using hsmall
      rw [if_neg hsmall, if_neg hcond]

theorem chunksize_pos : 0 < c.chunksize.toNat := h.bufsize_pos.trans_le h.bufsize_le

theorem align_dvd_chunksize : c.align.toNat ∣ c.chunksize.toNat := by
  rw [h.align, h.chunksize_eq]
  exact dvd_roundUp _ _

theorem room_le : bufRoom args.bufsize (cacheAlign args)+tagRoom (cacheFlags t vmp args).buftag ≤
    c.chunksize.toNat := by
  rw [h.chunksize_eq]
  exact le_roundUp h.align_pow2.pos

theorem tag_fits (htag : c.tagged = true) :
    c.bufsize.toNat ≤ c.buftag.toNat ∧ c.buftag.toNat+sizeofBuftag ≤ c.chunksize.toNat := by
  have hroom := h.room_le
  have hflag := h.tagged ▸ htag
  have hbuftag : c.buftag = if 8 ≤ cacheAlign args then p2roundup args.bufsize 8 else args.bufsize := by
    rw [h.buftag, hflag]
    rfl
  rw [hflag] at hroom
  rw [hbuftag, h.words_eq, h.bufsize]
  exact ⟨le_bufRoom _ _, hroom⟩

theorem link_fits (htouch : args.cflags.notouch = false) :
    c.bufctl.toNat+8 ≤ c.chunksize.toNat ∧ 8 ∣ c.bufctl.toNat ∧ 8 ∣ c.align.toNat := by
  have h8 := eight_le_cacheAlign htouch
  have hroom := h.room_le
  have hdvd : 8 ∣ c.align.toNat := by
    rw [h.align]
    exact IsPow2.dvd_of_le (⟨3, by decide, rfl⟩ : IsPow2 (8 : Word)) h.align_pow2 h8
  have hbuf : bufRoom args.bufsize (cacheAlign args) = roundUp args.bufsize.toNat 8 := by
    rw [bufRoom, if_pos h8]
  have hwords := h.words_eq
  have hpos := h.bufsize_pos
  have hle : args.bufsize.toNat ≤ roundUp args.bufsize.toNat 8 := le_roundUp (by decide)
  have hwdvd : 8 ∣ roundUp args.bufsize.toNat 8 := dvd_roundUp _ _
  have h8' : (8 : Word) ≤ cacheAlign args := BitVec.le_def.mpr h8
  rw [if_pos h8', hbuf] at hwords
  rw [hbuf] at hroom
  cases hflag : (cacheFlags t vmp args).buftag with
  | true =>
    have hbufctl : c.bufctl = p2roundup args.bufsize 8 := by
      rw [h.bufctl, hflag, chunkParts, if_pos rfl, if_pos h8']
    rw [hflag] at hroom
    change roundUp args.bufsize.toNat 8+24 ≤ _ at hroom
    rw [hbufctl, hwords]
    exact ⟨by omega, hwdvd, hdvd⟩
  | false =>
    have hbufctl : c.bufctl = p2roundup args.bufsize 8-8 := by
      rw [h.bufctl, hflag, chunkParts, if_neg (by simp), if_pos h8', if_pos h8']
    have hge : 8 ≤ roundUp args.bufsize.toNat 8 := Nat.le_of_dvd (by omega) hwdvd
    have hsub : (p2roundup args.bufsize 8-8).toNat = roundUp args.bufsize.toNat 8-8 := by
      rw [BitVec.toNat_sub_of_le, hwords]
      · rfl
      · rw [BitVec.le_def, hwords]
        exact hge
    rw [hbufctl, hsub]
    exact ⟨by omega, Nat.dvd_sub hwdvd (dvd_refl _), hdvd⟩

end Created

/-- The room that a call needs: its alignment is no larger than the quantum, the pages before a
firewall are not cut off, and neither is a chunk with a header behind it. -/
structure RoomFor (t : Tunables) (vmp : Arena) (args : CreateArgs) : Prop where
  align : args.alignWanted ≤ vmp.quantum.toNat
  firewall : (cacheFlags t vmp args).firewall = true →
    args.bufsize.toNat + vmp.quantum.toNat ≤ 2 ^ 64
  header : args.cflags.nohash = true →
    roundUp (roundUp args.bufsize.toNat 8 + tagRoom (cacheFlags t vmp args).buftag) args.alignWanted +
      sizeofSlab < 2 ^ 64

theorem clamp_le (hq : IsPow2 vmp.quantum) (maxcolor : Word) :
    (if vmp.quantum ≤ maxcolor then vmp.quantum-1 else maxcolor).toNat ≤ maxcolor.toNat ∧
    (if vmp.quantum ≤ maxcolor then vmp.quantum-1 else maxcolor).toNat < vmp.quantum.toNat := by
  have hpos := hq.pos
  have hone : (vmp.quantum-1).toNat = vmp.quantum.toNat-1 := by bv_omega
  split
  · rename_i hle
    rw [BitVec.le_def] at hle
    rw [hone]
    omega
  · rename_i hle
    rw [BitVec.le_def] at hle
    omega

/-- A slab that was sized without wrapping holds a chunk behind its largest color. -/
theorem Sized.fits {slabsize mincolor maxcolor : Word} {hash : Bool}
    (h : Sized vmp args flags chunksize (slabsize, mincolor, maxcolor, hash))
    (hpos : 0 < chunksize.toNat) {align : Nat} (hquantum : align ∣ vmp.quantum.toNat)
    (hchunk : align ∣ chunksize.toNat)
    (hfirewall : flags.firewall = true → chunksize.toNat+vmp.quantum.toNat ≤ 2^64)
    (hheader : args.cflags.nohash = true → chunksize.toNat+sizeofSlab < 2^64) :
    vmp.quantum.toNat ∣ slabsize.toNat ∧ (hash = false → slabsize = vmp.quantum) ∧
    align ∣ mincolor.toNat ∧
    (mincolor.toNat ≤ maxcolor.toNat ∧ mincolor.toNat < vmp.quantum.toNat) ∧
    maxcolor.toNat+chunksize.toNat+(if hash then 0 else sizeofSlab) ≤ slabsize.toNat := by
  have hq := vmp.quantum_pow2
  have hqpos := hq.pos
  cases h with
  | firewall hflag hsize =>
    have hdvd : vmp.quantum.toNat ∣ slabsize.toNat := hsize ▸ dvd_p2roundup hq _ (dvd_refl _)
    have hround : slabsize.toNat = roundUp chunksize.toNat vmp.quantum.toNat := by
      have hle : roundUp chunksize.toNat vmp.quantum.toNat ≤ 2^64-vmp.quantum.toNat :=
        roundUp_le_of_dvd hqpos (Nat.dvd_sub hq.dvd_two_pow (dvd_refl _))
          (by have := hfirewall hflag; omega)
      rw [hsize, toNat_p2roundup_of_lt hq (by omega)]
    have hle : chunksize.toNat ≤ slabsize.toNat := hround ▸ le_roundUp hqpos
    have hlt : slabsize.toNat < chunksize.toNat+vmp.quantum.toNat := hround ▸ roundUp_lt hqpos
    have hsub : (slabsize-chunksize).toNat = slabsize.toNat-chunksize.toNat :=
      BitVec.toNat_sub_of_le (BitVec.le_def.mpr hle)
    refine ⟨hdvd, by simp, ?_, ?_, ?_⟩
    · rw [hsub]
      exact Nat.dvd_sub (hquantum.trans hdvd) hchunk
    · rw [hsub]
      omega
    · rw [hsub, if_pos rfl]
      omega
  | embedded hflag hkind hfits =>
    have hheader' : (BitVec.ofNat 64 sizeofSlab).toNat = sizeofSlab := rfl
    have hsum : (chunksize+BitVec.ofNat 64 sizeofSlab).toNat = chunksize.toNat+sizeofSlab := by
      rw [BitVec.toNat_add, hheader', Nat.mod_eq_of_lt]
      rcases hkind with hnohash | ⟨-, hsmall⟩
      · exact hheader hnohash
      · rw [BitVec.lt_def, BitVec.toNat_udiv] at hsmall
        have := hq.le_half
        have h8 : (8 : Word).toNat = 8 := rfl
        rw [h8] at hsmall
        have hslab : sizeofSlab = 72 := rfl
        omega
    rw [BitVec.le_def, hsum] at hfits
    have hsub : (vmp.quantum-BitVec.ofNat 64 sizeofSlab).toNat = vmp.quantum.toNat-sizeofSlab :=
      BitVec.toNat_sub_of_le (BitVec.le_def.mpr (by rw [hheader']; omega))
    have hmod := mod_add_le hpos (show chunksize.toNat ≤ vmp.quantum.toNat-sizeofSlab by omega)
    refine ⟨dvd_refl _, fun _ => rfl, Nat.dvd_zero _, ⟨Nat.zero_le _, hqpos⟩, ?_⟩
    rw [BitVec.toNat_umod, hsub, if_neg (by simp)]
    omega
  | hashed hflag hkind hsize =>
    refine ⟨hsize.1, by simp, Nat.dvd_zero _, ⟨Nat.zero_le _, hqpos⟩, ?_⟩
    rw [BitVec.toNat_umod, if_pos rfl]
    exact mod_add_le hpos hsize.2

theorem Sized.touch {slabsize mincolor maxcolor : Word}
    (h : Sized vmp args flags chunksize (slabsize, mincolor, maxcolor, false))
    (hreasonable : args.reasonable vmp = true) : args.cflags.notouch = false := by
  cases h with
  | embedded hflag hkind hfits =>
    rcases hkind with hnohash | ⟨htouch, -⟩
    · exact (reasonable_iff.mp hreasonable).2.2.1 hnohash
    · exact htouch

theorem Created.firewall_room (h : Created t vmp args c)
    (hflag : (cacheFlags t vmp args).firewall = true) :
    c.chunksize.toNat+vmp.quantum.toNat ≤ 2^64 ↔ args.bufsize.toNat+vmp.quantum.toNat ≤ 2^64 := by
  obtain ⟨hvmp, -, hbuftag⟩ := cacheFlags_firewall hflag
  have hq := vmp.quantum_pow2
  have hpage := vmp.page_le hvmp
  have hdvd : vmp.quantum.toNat ∣ 2^64-vmp.quantum.toNat :=
    Nat.dvd_sub hq.dvd_two_pow (dvd_refl _)
  have hhalf := hq.le_half
  constructor
  · have := h.bufsize_le
    omega
  · intro hle
    -- the alignment and the word divide the quantum
    have halign : (cacheAlign args).toNat ∣ vmp.quantum.toNat := by
      apply h.align_pow2.dvd_of_le hq
      rw [h.align_eq]
      have := (reasonable_iff.mp h.reasonable).2.1
      unfold CreateArgs.alignWanted
      split
      · split <;> omega
      · split <;> omega
    have hword : (if 8 ≤ (cacheAlign args).toNat then 8 else 1) ∣ vmp.quantum.toNat := by
      split
      · exact IsPow2.dvd_of_le (⟨3, by decide, rfl⟩ : IsPow2 (8 : Word)) hq (by
          change 8 ≤ _
          omega)
      · exact Nat.one_dvd _
    have hbuf : bufRoom args.bufsize (cacheAlign args) ≤ 2^64-vmp.quantum.toNat := by
      unfold bufRoom
      apply roundUp_le_of_dvd (by split <;> decide) (hword.trans hdvd)
      omega
    have hchunk : c.chunksize.toNat ≤ 2^64-vmp.quantum.toNat := by
      rw [h.chunksize_eq, hbuftag]
      exact roundUp_le_of_dvd h.align_pow2.pos (halign.trans hdvd) hbuf
    omega

theorem Created.chunksize_nohash (h : Created t vmp args c) (hnohash : args.cflags.nohash = true) :
    c.chunksize.toNat = roundUp (roundUp args.bufsize.toNat 8 +
      tagRoom (cacheFlags t vmp args).buftag) args.alignWanted := by
  have h8 := eight_le_cacheAlign ((reasonable_iff.mp h.reasonable).2.2.1 hnohash)
  rw [h.chunksize_eq, h.align_eq, bufRoom, ← h.align_eq, if_pos h8]

theorem Created.proper (h : Created t vmp args c) (hroom : RoomFor t vmp args) : c.Proper := by
  have halign : c.align.toNat ≤ c.quantum.toNat := by
    rw [h.align, h.align_eq, h.quantum]
    exact hroom.align
  have hapow : IsPow2 c.align := h.align ▸ h.align_pow2
  have hqpow : IsPow2 c.quantum := h.quantum ▸ vmp.quantum_pow2
  obtain ⟨maxcolor, hsized, hmax⟩ := h.sized
  obtain ⟨hclamp, hlt⟩ := clamp_le vmp.quantum_pow2 maxcolor
  rw [← hmax] at hclamp hlt
  have hdvdq : c.align.toNat ∣ vmp.quantum.toNat := h.quantum ▸ hapow.dvd_of_le hqpow halign
  obtain ⟨hsdvd, hseq, hmindvd, hmin, hfits⟩ := hsized.fits h.chunksize_pos hdvdq
    h.align_dvd_chunksize (fun hflag => (h.firewall_room hflag).mpr (hroom.firewall hflag))
    fun hnohash => by
      rw [h.chunksize_nohash hnohash]
      exact hroom.header hnohash
  have hmincolor : c.mincolor.toNat ≤ c.maxcolor.toNat := by
    have hone : (vmp.quantum-1).toNat = vmp.quantum.toNat-1 := by
      have := vmp.quantum_pow2.pos
      bv_omega
    rw [hmax]
    split
    · omega
    · exact hmin.1
  exact
    { quantum_pow2 := hqpow
      align_pow2 := hapow
      align_le := halign
      chunksize_pos := h.chunksize_pos
      chunksize_dvd := h.align_dvd_chunksize
      slabsize_dvd := h.quantum ▸ hsdvd
      slabsize_eq := h.quantum ▸ hseq
      mincolor_le := hmincolor
      mincolor_dvd := hmindvd
      maxcolor_lt := h.quantum ▸ hlt
      fits := by omega
      link := fun hhash => h.link_fits ((hhash ▸ hsized).touch h.reasonable)
      tag := h.tag_fits }

section
variable {slabsize mincolor maxcolor : Word} {hash : Bool}
  (h : Sized vmp args flags chunksize (slabsize, mincolor, maxcolor, hash))
include h

theorem Sized.dvd : vmp.quantum.toNat ∣ slabsize.toNat := by
  cases h with
  | firewall hflag hsize => exact hsize ▸ dvd_p2roundup vmp.quantum_pow2 _ (dvd_refl _)
  | embedded hflag hkind hfits => exact dvd_refl _
  | hashed hflag hkind hsize => exact hsize.1

theorem Sized.mincolor_eq (hset : flags.firewall = false) : mincolor = 0 := by
  cases h with
  | firewall hflag hsize => simp [hset] at hflag
  | embedded hflag hkind hfits => rfl
  | hashed hflag hkind hsize => rfl

theorem Sized.firewall_size (hset : flags.firewall = true) :
    slabsize = p2roundup chunksize vmp.quantum := by
  cases h with
  | firewall hflag hsize => exact hsize
  | embedded hflag hkind hfits => simp [hset] at hflag
  | hashed hflag hkind hsize => simp [hset] at hflag

theorem Sized.nohash_size (hset : flags.firewall = false) (hnohash : args.cflags.nohash = true) :
    slabsize = vmp.quantum := by
  cases h with
  | firewall hflag hsize => simp [hset] at hflag
  | embedded hflag hkind hfits => rfl
  | hashed hflag hkind hsize => simp [hnohash] at hkind

end

theorem Cache.Fits.first (h : c.Fits) (hq : IsPow2 c.quantum)
    (hdvd : c.quantum.toNat ∣ c.slabsize.toNat) : c.Cut c.quantum (c.nextColor c.mincolor) := by
  refine h.cut _ _ (dvd_refl _) ?_ ?_ Cache.Color.first
  · intro hzero
    have := hq.pos
    rw [hzero] at this
    exact absurd this (by decide)
  · rw [Nat.add_comm]
    exact add_quantum_le hq hdvd

theorem Cache.Fits.chunksize_le (h : c.Fits) (hq : IsPow2 c.quantum)
    (hdvd : c.quantum.toNat ∣ c.slabsize.toNat) : c.chunksize.toNat ≤ c.slabsize.toNat := by
  have hcut := h.first hq hdvd
  have hin := hcut.inside 0 hcut.chunks_pos
  omega

theorem Cache.Fits.align_le (h : c.Fits) (hq : IsPow2 c.quantum) (halign : IsPow2 c.align)
    (hdvd : c.quantum.toNat ∣ c.slabsize.toNat) (hmin : c.mincolor = 0) :
    c.align.toNat ≤ c.quantum.toNat := by
  have hcut := h.first hq hdvd
  by_contra hgt
  have hhalf := halign.le_half
  have hqpos := hq.pos
  have haligned := hcut.aligned 0 hcut.chunks_pos
  have hbase : c.chunkAt c.quantum (c.nextColor c.mincolor) 0 =
      c.quantum+c.nextColor c.mincolor := by
    rw [Cache.chunkAt, BitVec.zero_mul]
    exact add_zero _
  -- the first color is 0 or the alignment
  have hcolor : c.nextColor c.mincolor = 0 ∨ c.nextColor c.mincolor = c.align := by
    unfold Cache.nextColor
    rw [hmin, zero_add]
    split
    · exact .inl rfl
    · exact .inr rfl
  have hquantum : c.align.toNat ∣ c.quantum.toNat := by
    rw [hbase] at haligned
    rcases hcolor with heq | heq
    · rw [heq, add_zero] at haligned
      exact haligned
    · rw [heq, BitVec.toNat_add, Nat.mod_eq_of_lt (by omega)] at haligned
      exact (Nat.dvd_add_left (dvd_refl _)).mp haligned
  exact hgt (Nat.le_of_dvd hqpos hquantum)

theorem Created.room (h : Created t vmp args c) (hfits : c.Fits) : RoomFor t vmp args := by
  have hq : IsPow2 c.quantum := h.quantum ▸ vmp.quantum_pow2
  obtain ⟨maxcolor, hsized, -⟩ := h.sized
  have hdvd : c.quantum.toNat ∣ c.slabsize.toNat := h.quantum ▸ hsized.dvd
  have hle := hfits.chunksize_le hq hdvd
  have hpos := h.chunksize_pos
  refine ⟨?_, ?_, ?_⟩
  · rw [← h.align_eq]
    by_cases hflag : (cacheFlags t vmp args).firewall = true
    · have hpage := vmp.page_le (cacheFlags_firewall hflag).1
      have := (reasonable_iff.mp h.reasonable).2.1
      rw [h.align_eq, CreateArgs.alignWanted]
      split
      · split <;> omega
      · split <;> omega
    · have hmin : c.mincolor = 0 := hsized.mincolor_eq (by simpa using hflag)
      have := hfits.align_le hq (h.align ▸ h.align_pow2) hdvd hmin
      rwa [h.align, h.quantum] at this
  · intro hflag
    rw [← h.firewall_room hflag]
    by_contra hover
    -- the slab size has wrapped to 0
    have hsize := hsized.firewall_size hflag
    have hround : roundUp c.chunksize.toNat vmp.quantum.toNat ≤ 2^64 :=
      roundUp_le_of_dvd vmp.quantum_pow2.pos vmp.quantum_pow2.dvd_two_pow c.chunksize.isLt.le
    have hge := le_roundUp (n := c.chunksize.toNat) vmp.quantum_pow2.pos
    have hsdvd : vmp.quantum.toNat ∣ 2^64-roundUp c.chunksize.toNat vmp.quantum.toNat :=
      Nat.dvd_sub vmp.quantum_pow2.dvd_two_pow (dvd_roundUp _ _)
    have hzero := Nat.eq_zero_of_dvd_of_lt hsdvd (by omega)
    have heq : roundUp c.chunksize.toNat vmp.quantum.toNat = 2^64 := by omega
    rw [hsize, toNat_p2roundup _ vmp.quantum_pow2, heq, Nat.mod_self] at hle
    omega
  · intro hnohash
    rw [← h.chunksize_nohash hnohash]
    have hflag : (cacheFlags t vmp args).firewall = false := by
      by_contra hset
      have := (cacheFlags_firewall (by simpa using hset)).2.1
      simp [hnohash] at this
    have hsize := hsized.nohash_size hflag hnohash
    have := vmp.quantum_pow2.le_half
    have hslab : sizeofSlab = 72 := rfl
    rw [hsize] at hle
    omega

/-- The call ends, with a best fit wherever one is looked for. When it succeeds, its cache is cut right
for every slab and every color if and only if there was enough room. -/
theorem cache_geometry_fits_iff (t : Tunables) (vmp : Arena) (args : CreateArgs)
    (hqcache : args.cflags.qcache = false) :
    umemCacheCreate t vmp args ≠ none ∧
    ∀ c, umemCacheCreate t vmp args = some (.ok c) → (c.Fits ↔ RoomFor t vmp args) := by
  obtain ⟨r, hcreate, hr⟩ := umemCacheCreate_ends t vmp args hqcache
  rw [hcreate]
  refine ⟨by simp, ?_⟩
  rintro c ⟨rfl⟩
  have hcreated := hr c rfl
  exact ⟨hcreated.room, fun hroom => (hcreated.proper hroom).fits_all⟩

end

/-- No debugging. -/
def plain : Tunables := ⟨Umf.none, 0, 1024, 0⟩

/-- Tagged buffers of a page or more are put in front of unmapped pages. -/
def firewalls : Tunables := ⟨{ Umf.none with redzone := true }, 0, 1024, 0x1000⟩

def pages : Arena where
  quantum := 0x1000
  qcacheMax := 0
  firewalled := true
  quantum_pow2 := isPow2_page
  page_le := by decide

def words : Arena where
  quantum := 8
  qcacheMax := 0
  firewalled := false
  quantum_pow2 := isPow2_eight
  page_le := nofun

def noFlags : Umc := ⟨false, false, false, false, false, Umf.none⟩

def pageObjectsCache : Cache :=
  ⟨0x1000, 16, 0xff8, 0, 0x1000, 0x10000, 0, 0, 0x1000, true, false⟩

theorem cache_geometry_pageObjects :
    umemCacheCreate plain pages ⟨0x1000, 0, noFlags⟩ = some (.ok pageObjectsCache) ∧
      pageObjectsCache.Fits := by
  have hcreate : umemCacheCreate plain pages ⟨0x1000, 0, noFlags⟩ =
      some (.ok pageObjectsCache) := by
    decide +kernel
  refine ⟨hcreate, ?_⟩
  apply ((cache_geometry_fits_iff plain pages ⟨0x1000, 0, noFlags⟩ rfl).2 _ hcreate).mpr
  exact ⟨by decide, by decide, by decide⟩

/-- Three calls that succeed and leave a cache that does not fit: the default alignment of 16 is more
than the quantum of the arena, the slab size in front of a firewall wraps to 0, and so does the sum of
the chunk and the header of a cache without a hash table. -/
theorem cache_geometry_misfits :
    (∃ c, umemCacheCreate plain words ⟨32, 0, noFlags⟩ = some (.ok c) ∧ c.align = 16 ∧ ¬ c.Fits) ∧
    (∃ c, umemCacheCreate firewalls pages ⟨0xfffffffffffff010, 0, noFlags⟩ = some (.ok c) ∧
      c.slabsize = 0 ∧ ¬ c.Fits) ∧
    ∃ c, umemCacheCreate plain pages ⟨0xffffffffffffffc0, 0, { noFlags with nohash := true }⟩ =
      some (.ok c) ∧ c.chunks 0 = 0 ∧ ¬ c.Fits := by
  refine ⟨⟨⟨32, 16, 24, 0, 32, 512, 0, 0, 8, true, false⟩, by decide +kernel, rfl, ?_⟩,
    ⟨⟨0xfffffffffffff010, 16, 0xfffffffffffff008, 0, 0xfffffffffffff010, 0, 0xff0, 0xff0, 0x1000,
      true, false⟩, by decide +kernel, rfl, ?_⟩,
    ⟨⟨0xffffffffffffffc0, 16, 0xffffffffffffffb8, 0, 0xffffffffffffffc0, 0x1000, 0, 0xfb8, 0x1000,
      false, false⟩, by decide +kernel, by decide +kernel, ?_⟩⟩
  · intro h
    have := h.align_le words.quantum_pow2 ⟨4, by decide, rfl⟩ (by decide) rfl
    exact absurd this (by decide)
  · intro h
    have := h.chunksize_le pages.quantum_pow2 (by decide)
    exact absurd this (by decide)
  · intro h
    have := h.chunksize_le pages.quantum_pow2 (by decide)
    exact absurd this (by decide)

end Libumem.Slab
