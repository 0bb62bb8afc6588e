import Libumem.Slab.CacheCreate

/-!
# The sizes that `umem_cache_create` computes

Rounding and adding wrap around at the top of the address space. The tests that the function makes
catch this for the chunk size and for the slab sizes of its best-fit loop, which ends with a best fit.
-/

namespace Libumem.Slab
open Arith Lib.Pow2
section
variable {t : Tunables} {vmp : Arena} {args : CreateArgs} {c : Cache}

/-- The alignment that a call asks for, without words. -/
def CreateArgs.alignWanted (args : CreateArgs) : Nat :=
  if args.align = 0 then if 8 < args.bufsize.toNat then 16 else 8
  else if args.align.toNat < 8 ∧ args.cflags.notouch = false then 8
  else args.align.toNat

theorem reasonable_iff : args.reasonable vmp = true ↔
    args.align &&& (args.align-1) = 0 ∧ args.align.toNat ≤ vmp.quantum.toNat ∧
      (args.cflags.nohash = true → args.cflags.notouch = false) ∧ 0 < args.bufsize.toNat := by
  have hpos : args.bufsize ≠ 0 ↔ 0 < args.bufsize.toNat := by
    rw [Nat.pos_iff_ne_zero, ne_eq, ← BitVec.toNat_inj]
    rfl
  unfold CreateArgs.reasonable
  rw [← hpos]
  cases args.cflags.nohash <;> simp [BitVec.lt_def, and_assoc]

theorem cacheAlign_pow2 (h : args.align &&& (args.align-1) = 0) : IsPow2 (cacheAlign args) := by
  unfold cacheAlign
  split
  · split
    · exact ⟨4, by decide, rfl⟩
    · exact ⟨3, by decide, rfl⟩
  · rename_i hne
    split
    · exact ⟨3, by decide, rfl⟩
    · exact isPow2_of_isP2 hne h

theorem eight_le_cacheAlign (h : args.cflags.notouch = false) : 8 ≤ (cacheAlign args).toNat := by
  unfold cacheAlign
  split
  · split <;> decide
  · split
    · decide
    · rename_i hlt
      simpa [h, BitVec.lt_def] using hlt

/-- The size of the buffer in the chunk, without words. -/
def bufRoom (bufsize align : Word) : Nat := roundUp bufsize.toNat (if 8 ≤ align.toNat then 8 else 1)

theorem le_bufRoom (bufsize align : Word) : bufsize.toNat ≤ bufRoom bufsize align := by
  unfold bufRoom
  split <;> exact le_roundUp (by decide)

theorem bufRoom_lt (bufsize align : Word) : bufRoom bufsize align < bufsize.toNat+8 := by
  unfold bufRoom
  split
  · exact roundUp_lt (by decide)
  · exact (roundUp_lt Nat.one_pos).trans (by omega)

theorem toNat_bufRoom (bufsize align : Word) :
    (if 8 ≤ align then p2roundup bufsize 8 else bufsize).toNat = bufRoom bufsize align ∨
      (if 8 ≤ align then p2roundup bufsize 8 else bufsize) = 0 ∧ 2^64-8 < bufsize.toNat := by
  have height : IsPow2 (8 : Word) := ⟨3, by decide, rfl⟩
  have hblt := bufsize.isLt
  unfold bufRoom
  by_cases h8 : 8 ≤ align.toNat
  · rw [if_pos (show (8 : Word) ≤ align from BitVec.le_def.mpr h8), if_pos h8]
    have hround : (p2roundup bufsize 8).toNat = roundUp bufsize.toNat 8 % 2^64 :=
      toNat_p2roundup bufsize height
    have hlt : roundUp bufsize.toNat 8 < bufsize.toNat+8 := roundUp_lt height.pos
    by_cases hcut : roundUp bufsize.toNat 8 < 2^64
    · left
      rw [hround, Nat.mod_eq_of_lt hcut]
    · right
      have hdvd : 8 ∣ roundUp bufsize.toNat 8 := dvd_roundUp _ _
      have heq : roundUp bufsize.toNat 8 = 2^64 := by omega
      refine ⟨BitVec.eq_of_toNat_eq ?_, by omega⟩
      rw [hround, heq]
      rfl
  · rw [if_neg (show ¬ (8 : Word) ≤ align from fun h => h8 (BitVec.le_def.mp h)), if_neg h8]
    left
    exact (roundUp_of_dvd Nat.one_pos (Nat.one_dvd _)).symm

theorem toNat_p2roundup_le_half {x align : Word} (halign : IsPow2 align) (hx : x.toNat ≤ 2^63) :
    (p2roundup x align).toNat ≤ 2^63 := by
  have hround : roundUp x.toNat align.toNat ≤ 2^63 := by
    apply roundUp_le_of_dvd halign.pos _ hx
    obtain ⟨k, hk, heq⟩ := halign
    rw [heq]
    exact Nat.pow_dvd_pow 2 (by omega)
  rw [toNat_p2roundup x halign]
  exact (Nat.mod_le _ _).trans hround

def tagRoom (buftag : Bool) : Nat := if buftag then sizeofBuftag else 0

theorem chunkParts_size (bufsize align : Word) (buftag : Bool) :
    (chunkParts bufsize align buftag).2.2 =
      (if 8 ≤ align then p2roundup bufsize 8 else bufsize)+BitVec.ofNat 64 (tagRoom buftag) := by
  cases buftag with
  | false => exact (add_zero _).symm
  | true => rfl

theorem toNat_chunksize {bufsize align : Word} (buftag : Bool) (halign : IsPow2 align)
    (hpos : 0 < bufsize.toNat)
    (hle : bufsize.toNat ≤ (p2roundup (chunkParts bufsize align buftag).2.2 align).toNat) :
    (if 8 ≤ align then p2roundup bufsize 8 else bufsize).toNat = bufRoom bufsize align ∧
    (p2roundup (chunkParts bufsize align buftag).2.2 align).toNat =
      roundUp (bufRoom bufsize align+tagRoom buftag) align.toNat := by
  have hlt := bufRoom_lt bufsize align
  have hroom := le_bufRoom bufsize align
  have htag : tagRoom buftag ≤ 24 := by cases buftag <;> decide
  have htagNat : (BitVec.ofNat 64 (tagRoom buftag)).toNat = tagRoom buftag := by
    rw [BitVec.toNat_ofNat, Nat.mod_eq_of_lt (by omega)]
  rw [chunkParts_size] at hle ⊢
  rcases toNat_bufRoom bufsize align with hexact | ⟨hzero, hhuge⟩
  · refine ⟨hexact, ?_⟩
    generalize (if 8 ≤ align then p2roundup bufsize 8 else bufsize) = words at *
    have hsum : (words+BitVec.ofNat 64 (tagRoom buftag)).toNat =
        (bufRoom bufsize align+tagRoom buftag) % 2^64 := by
      rw [BitVec.toNat_add, hexact, htagNat]
    by_cases hwrap : bufRoom bufsize align+tagRoom buftag < 2^64
    · rw [Nat.mod_eq_of_lt hwrap] at hsum
      rw [toNat_p2roundup _ halign, hsum] at hle ⊢
      rw [Nat.mod_eq_of_lt]
      by_contra hover
      have hmax : roundUp (bufRoom bufsize align+tagRoom buftag) align.toNat ≤ 2^64 :=
        roundUp_le_of_dvd halign.pos halign.dvd_two_pow hwrap.le
      have heq : roundUp (bufRoom bufsize align+tagRoom buftag) align.toNat = 2^64 := by omega
      rw [heq, Nat.mod_self] at hle
      omega
    · have hhalf := toNat_p2roundup_le_half halign
        (show (words+BitVec.ofNat 64 (tagRoom buftag)).toNat ≤ 2^63 by omega)
      omega
  · rw [hzero] at hle
    have hhalf := toNat_p2roundup_le_half halign
      (show ((0 : Word)+BitVec.ofNat 64 (tagRoom buftag)).toNat ≤ 2^63 by
        rw [zero_add, htagNat]
        omega)
    omega

end

variable {quantum chunksize : Word}

/-- A slab size that a turn of the loop may choose. -/
def Candidate (quantum chunksize slabsize : Word) : Prop :=
  quantum.toNat ∣ slabsize.toNat ∧ chunksize.toNat ≤ slabsize.toNat

theorem add_quantum_le (hq : IsPow2 quantum) {x : Word} (hx : quantum.toNat ∣ x.toNat) :
    x.toNat+quantum.toNat ≤ 2^64 := by
  have hlt := x.isLt
  have hdvd : quantum.toNat ∣ 2^64-x.toNat := Nat.dvd_sub hq.dvd_two_pow hx
  have := Nat.le_of_dvd (by omega) hdvd
  omega

theorem turn_size (hq : IsPow2 quantum) {chunks : Word} (hchunks : 0 < chunks.toNat)
    (htest : ¬ p2roundup (chunksize * chunks) quantum/chunks < chunksize) :
    chunksize.toNat * chunks.toNat ≤ (p2roundup (chunksize * chunks) quantum).toNat ∧
    quantum.toNat ∣ (p2roundup (chunksize * chunks) quantum).toNat ∧
    ((p2roundup (chunksize * chunks) quantum).toNat+1 < 2^64 ∨
      (p2roundup (chunksize * chunks) quantum).toNat = chunksize.toNat * chunks.toNat) := by
  have hdvd : quantum.toNat ∣ (p2roundup (chunksize * chunks) quantum).toNat :=
    dvd_p2roundup hq _ (dvd_refl _)
  have hle : chunksize.toNat * chunks.toNat ≤ (p2roundup (chunksize * chunks) quantum).toNat := by
    rw [BitVec.lt_def, BitVec.toNat_udiv, Nat.not_lt] at htest
    exact (Nat.le_div_iff_mul_le hchunks).mp htest
  refine ⟨hle, hdvd, ?_⟩
  have hroom := add_quantum_le hq hdvd
  by_cases hone : quantum.toNat = 1
  · right
    have hround := toNat_p2roundup (chunksize * chunks) hq
    rw [hone, roundUp_of_dvd Nat.one_pos (Nat.one_dvd _),
      Nat.mod_eq_of_lt (chunksize * chunks).isLt, BitVec.toNat_mul] at hround
    have := Nat.mod_le (chunksize.toNat * chunks.toNat) (2^64)
    omega
  · left
    have := hq.pos
    omega

theorem mod_add_le {a b : Nat} (hb : 0 < b) (hle : b ≤ a) : a % b+b ≤ a := by
  have hdiv := Nat.div_add_mod a b
  have hquot : 1 ≤ a/b := Nat.div_pos hle hb
  have : b * 1 ≤ b * (a/b) := Nat.mul_le_mul_left _ hquot
  omega

/-- The loop ends with a best fit, or with an error. Each turn is for more chunks than the one before,
and the first one always sets the best fit. -/
theorem bestFitLoop_ends (hq : IsPow2 quantum) (hpos : 0 < chunksize.toNat) {n : Nat}
    {chunks minwaste : Word} {bestfit : Option Word} (hn : 9 ≤ n+chunks.toNat)
    (hchunks : 0 < chunks.toNat) (hbest : ∀ b, bestfit = some b → Candidate quantum chunksize b)
    (hset : bestfit ≠ none ∨ chunks = 1 ∧ minwaste = longMax) :
    ∃ r, bestFitLoop quantum chunksize n chunks minwaste bestfit = some r ∧
      ∀ x, r = .ok x → ∃ b, x = some b ∧ Candidate quantum chunksize b := by
  induction n generalizing chunks minwaste bestfit with
  | zero =>
    have hlast : (8 : Word) < chunks := BitVec.lt_def.mpr (by change 8 < chunks.toNat; omega)
    rw [bestFitLoop, if_pos hlast]
    refine ⟨_, rfl, ?_⟩
    rintro x ⟨rfl⟩
    rcases hset with hset | ⟨hone, -⟩
    · obtain ⟨b, hb⟩ := Option.ne_none_iff_exists'.mp hset
      exact ⟨b, hb, hbest b hb⟩
    · rw [hone] at hlast
      exact absurd hlast (by decide)
  | succ n ih =>
    rw [bestFitLoop]
    split
    · rename_i hlast
      refine ⟨_, rfl, ?_⟩
      rintro x ⟨rfl⟩
      rcases hset with hset | ⟨hone, -⟩
      · obtain ⟨b, hb⟩ := Option.ne_none_iff_exists'.mp hset
        exact ⟨b, hb, hbest b hb⟩
      · rw [hone] at hlast
        exact absurd hlast (by decide)
    · rename_i hmore
      dsimp only
      split
      · exact ⟨_, rfl, by simp⟩
      · rename_i htest
        obtain ⟨hle, hdvd, hroom⟩ := turn_size hq hchunks htest
        have hmore' : chunks.toNat≤8 := by
          rw [BitVec.lt_def, Nat.not_lt] at hmore
          exact hmore
        generalize p2roundup (chunksize * chunks) quantum = slabsize at *
        have hsize : chunksize.toNat ≤ slabsize.toNat :=
          (Nat.le_mul_of_pos_right _ hchunks).trans hle
        -- there are as many chunks as asked for, and one more is still a word
        have hquot : chunks.toNat ≤ (slabsize/chunksize).toNat := by
          rw [BitVec.toNat_udiv, Nat.le_div_iff_mul_le hpos, Nat.mul_comm]
          exact hle
        have hnext : (slabsize/chunksize+1).toNat = (slabsize/chunksize).toNat+1 := by
          have hlt : (slabsize/chunksize).toNat+1 < 2^64 := by
            rw [BitVec.toNat_udiv]
            rcases hroom with hroom | hexact
            · have := Nat.div_le_self slabsize.toNat chunksize.toNat
              omega
            · rw [hexact, Nat.mul_div_cancel_left _ hpos]
              omega
          rw [BitVec.toNat_add]
          exact Nat.mod_eq_of_lt hlt
        split
        · apply ih
          · omega
          · omega
          · rintro b ⟨rfl⟩
            exact ⟨hdvd, hsize⟩
          · exact .inl (by simp)
        · rename_i hwaste
          apply ih
          · omega
          · omega
          · exact hbest
          · left
            rcases hset with hset | ⟨-, rfl⟩
            · exact hset
            · -- the waste of the first turn is below `LONG_MAX`
              exfalso
              apply hwaste
              rw [BitVec.lt_def, BitVec.toNat_udiv, BitVec.toNat_umod]
              have hdiv := Nat.div_le_self (slabsize.toNat % chunksize.toNat)
                (slabsize/chunksize).toNat
              have hmax : longMax.toNat = 2^63-1 := rfl
              rcases hroom with hroom | hexact
              · have hmod := Nat.mod_lt slabsize.toNat hpos
                have hsum := mod_add_le hpos hsize
                omega
              · rw [hexact, Nat.mul_mod_right] at hdiv ⊢
                omega

theorem raiseDensity_candidate (hq : IsPow2 quantum) (hpos : 0 < chunksize.toNat) {bestfit : Word}
    (h : Candidate quantum chunksize bestfit) :
    Candidate quantum chunksize (raiseDensity quantum chunksize bestfit) := by
  unfold raiseDensity
  dsimp only
  split
  · split
    · rename_i hwant
      simp only [Bool.and_eq_true, decide_eq_true_eq] at hwant
      have hcount := hwant.1
      refine ⟨dvd_p2roundup hq _ (dvd_refl _), ?_⟩
      rw [BitVec.le_def, BitVec.toNat_udiv] at hcount
      have : 16 * chunksize.toNat ≤ (p2roundup (chunksize * 16) quantum).toNat :=
        (Nat.le_div_iff_mul_le hpos).mp hcount
      omega
    · exact h
  · exact h

end Libumem.Slab
