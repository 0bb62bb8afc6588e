import Libumem.SizeClass.Sizes

/-!
# From sizes to caches and to bins

`umem_cache_init` fills `umem_alloc_table` with the cache that serves each request size, and
`umem_ptc_init` gives each index the bin of the per-thread cache that its objects go to. A cache is
named by its slot in `umem_alloc_sizes`.
-/

namespace Libumem.SizeClass
open Function Arith

/-- The number of entries of `umem_alloc_table`. -/
def allocTableSize : Nat := umemMaxbuf / umemAlign

/-- `none` is `umem_null_cache`. -/
abbrev AllocTable := Nat → Option Nat

/-- The inner loop of `umem_cache_init` for the cache in slot `i`, with `n` turns left. -/
def fillClass (i cacheSize : Nat) : Nat → Nat × AllocTable → Nat × AllocTable
  | 0, s => s
  | n + 1, (size, table) =>
    if size ≤ cacheSize then
      fillClass i cacheSize n
        (size + umemAlign, update table ((size - 1) / umemAlign) (some i))
    else (size, table)

/-- The outer loop of `umem_cache_init`, with `n` turns left. -/
def fillTable (sizes : Sizes) : Nat → Nat → Nat × AllocTable → Nat × AllocTable
  | 0, _, s => s
  | n + 1, i, s =>
    if sizes i = 0 then s
    -- the inner loop takes one turn for each index of the class
    else fillTable sizes n (i + 1) (fillClass i (sizes i) allocTableSize s)

/-- Whether all caches are created, where `created` says so for each slot. -/
def createCaches (sizes : Sizes) (created : Nat → Bool) : Nat → Nat → Bool
  | 0, _ => true
  | n + 1, i => if sizes i = 0 then true else created i && createCaches sizes created n (i + 1)

/-- `umem_alloc_table` after `umem_cache_init`, which fails when a cache cannot be created. -/
def umemCacheInit (sizes : Sizes) (created : Nat → Bool) : Option AllocTable :=
  if createCaches sizes created numAllocSizes 0 then
    some (fillTable sizes numAllocSizes 0 (umemAlign, fun _ => none)).2
  else none

/-- `PTC_NBINS`. -/
def ptcNbins : Nat := 36

def ptcSizeClasses : List Nat :=
  [8, 16, 32, 48, 64, 80, 96, 112, 128, 160, 192, 224, 256, 320, 384, 448, 512, 640, 768, 896, 1024,
    1280, 1536, 1792, 2048, 0, 0, 0, 2560, 3072, 3584, 4096, 5120, 6144, 7168, 8192]

def umemPtcBinSize (bin : Int) : Nat :=
  if bin < 0 ∨ (ptcNbins : Int) ≤ bin then 0 else ptcSizeClasses.getD bin.toNat 0

/-- `PTC_SIZE_TO_BIN_ENTRIES`. -/
def sizeToBinEntries : Nat := 8192 / 8 + 1

/-- `UMF_AUDIT | UMF_DEADBEEF | UMF_REDZONE`. -/
def umfDebug : Word := 7

/-- The caches that back `umem_alloc`, by slot: their object sizes, which are the sizes that
`umem_cache_init` creates them with, and their flags. -/
structure Caches where
  cacheBufsize : Sizes
  cacheFlags : Nat → Word

/-- The object size and flags of `umem_null_cache` are zero. -/
def Caches.bufsizeOf (caches : Caches) (cp : Option Nat) : Nat := (cp.map caches.cacheBufsize).getD 0

def Caches.flagsOf (caches : Caches) (cp : Option Nat) : Word := (cp.map caches.cacheFlags).getD 0

/-- The second loop of `umem_ptc_init`: every class has its bin. -/
def classBins : Nat → (Nat → Int)
  | 0 => fun _ => -1
  | bin + 1 =>
    let size := ptcSizeClasses.getD bin 0
    if size / 8 < sizeToBinEntries then update (classBins bin) (size / 8) bin
    else classBins bin

/-- The third loop of `umem_ptc_init`: no bin for a class whose cache is debugged. -/
def undebuggedBins (table : AllocTable) (caches : Caches) : Nat → (Nat → Int)
  | 0 => classBins ptcNbins
  | bin + 1 =>
    let sizeToBin := undebuggedBins table caches bin
    let size := ptcSizeClasses.getD bin 0
    if size = 0 then sizeToBin
    else if caches.flagsOf (table ((size - 1) / umemAlign)) &&& umfDebug ≠ 0 then
      if size / 8 < sizeToBinEntries then update sizeToBin (size / 8) (-1) else sizeToBin
    else sizeToBin

/-- `size_to_bin_table` after `umem_ptc_init`. -/
def sizeToBinTable (table : AllocTable) (caches : Caches) : Nat → Int :=
  undebuggedBins table caches ptcNbins

/-- `umem_ptc_bin_real` after `umem_ptc_init`. -/
def umemPtcBinReal (table : AllocTable) (caches : Caches) (maxsize : Word) (idx : Nat) : Int :=
  let allocSize := (idx + 1) * umemAlign
  if maxsize.toNat < allocSize then -1
  else
    let objSize := caches.bufsizeOf (table idx)
    if maxsize.toNat < objSize then -1
    else if sizeToBinEntries ≤ objSize / 8 then -1
    else sizeToBinTable table caches (objSize / 8)

/-- `umem_ptc_bin_table` as it is published, where `enabled` says whether `umem_ptc_init` got to its
end. -/
def umemPtcBinTable (enabled hooked : Bool) (table : AllocTable) (caches : Caches) (maxsize : Word)
    (idx : Nat) : Int :=
  if enabled = false then -1
  else if hooked then -1
  else umemPtcBinReal table caches maxsize idx

/-- The cache that `umem_ptc_bin_flush` and `umem_ptc_bin_refill` use for a bin of this size. -/
def umemPtcBinCache (table : AllocTable) (size : Nat) : Option Nat := table ((size - 1) / umemAlign)

section
variable {sizes : Sizes} {last : Nat}

/-- Slot `j` is the first one whose size serves the requests of index `k`. -/
def Serves (sizes : Sizes) (k j : Nat) : Prop :=
  (k + 1) * umemAlign ≤ sizes j ∧ ∀ j' < j, sizes j' < (k + 1) * umemAlign

theorem fillClass_eq (i : Nat) {c m n : Nat} (table : AllocTable) (hm : m ≤ c) (hn : c ≤ m+n) :
    fillClass i (c * umemAlign) n ((m+1) * umemAlign, table) =
      ((c+1) * umemAlign, fun k => if m ≤ k ∧ k < c then some i else table k) := by
  induction n generalizing m table with
  | zero =>
    obtain rfl : m = c := by omega
    rw [fillClass]
    congr 1
    funext k
    rw [if_neg (by omega)]
  | succ n ih =>
    rw [fillClass]
    by_cases hlt : m < c
    · have hindex : ((m+1) * umemAlign-1)/umemAlign = m := by
        simp only [umemAlign]
        omega
      have hnext : (m+1) * umemAlign+umemAlign = (m+1+1) * umemAlign := by
        simp only [umemAlign]
        omega
      rw [if_pos (Nat.mul_le_mul_right umemAlign hlt), hindex, hnext, ih _ hlt (by omega)]
      congr 1
      funext k
      by_cases hk : k = m
      · subst hk
        rw [if_neg (by omega), update_self, if_pos ⟨le_refl _, hlt⟩]
      · rw [update_of_ne hk]
        by_cases hin : m+1 ≤ k ∧ k < c
        · rw [if_pos hin, if_pos (by omega)]
        · rw [if_neg hin, if_neg (by omega)]
    · obtain rfl : m = c := by omega
      rw [if_neg (by simp only [umemAlign]; omega)]
      congr 1
      funext k
      rw [if_neg (by omega)]

/-- Slot by slot, the table is filled up to the size of the slot. -/
theorem fillTable_serves (h : SizesOk sizes last) {n i m : Nat} {table : AllocTable}
    (hn : i+n = numAllocSizes) (hi : i ≤ last+1) (hm : ∀ j < i, sizes j ≤ m * umemAlign)
    (hdone : i = last+1 → m = allocTableSize) (hbelow : i ≤ last → m * umemAlign < sizes i)
    (hentry : ∀ k < m, ∃ j < numAllocSizes, table k = some j ∧ Serves sizes k j) :
    ∀ k < allocTableSize, ∃ j < numAllocSizes,
      (fillTable sizes n i ((m+1) * umemAlign, table)).2 k = some j ∧ Serves sizes k j := by
  have hbound := h.bound
  induction n generalizing i m table with
  | zero =>
    rw [fillTable, ← hdone (by omega)]
    exact hentry
  | succ n ih =>
    rw [fillTable]
    by_cases hlast : i ≤ last
    · obtain ⟨⟨c, hc⟩, hpos⟩ := h.aligned i hlast
      rw [Nat.mul_comm] at hc
      have hmc : m < c := by
        have := hbelow hlast
        rw [hc] at this
        exact Nat.lt_of_mul_lt_mul_right this
      have hcmax : c ≤ allocTableSize := by
        have := h.le_maxbuf (i := i) (by omega)
        rw [hc] at this
        simp only [umemAlign, umemMaxbuf, allocTableSize] at this ⊢
        omega
      have hne : sizes i ≠ 0 := by
        simp only [umemAlign] at hpos
        omega
      rw [if_neg hne, hc, fillClass_eq i table hmc.le (by omega)]
      apply ih (by omega) (by omega)
      · intro j hj
        rcases Nat.lt_succ_iff_lt_or_eq.mp hj with hj | rfl
        · rw [← hc]
          exact (h.sorted j i hj hlast).le
        · exact hc.le
      · intro heq
        obtain rfl : i = last := by omega
        rw [h.maxbuf] at hc
        simp only [umemAlign, umemMaxbuf, allocTableSize] at hc ⊢
        omega
      · intro hle
        rw [← hc]
        exact h.sorted i (i+1) (Nat.lt_succ_self i) hle
      · intro k hk
        by_cases hin : m ≤ k ∧ k < c
        · refine ⟨i, by omega, if_pos hin, ?_, ?_⟩
          · rw [hc]
            exact Nat.mul_le_mul_right umemAlign hk
          · intro j hj
            exact lt_of_le_of_lt (hm j hj)
              (Nat.mul_lt_mul_of_pos_right (Nat.lt_succ_of_le hin.1) (by decide))
        · rw [if_neg hin]
          exact hentry k (by omega)
    · have hzero : sizes i = 0 := h.zeros i (by omega) (by omega)
      rw [if_pos hzero, ← hdone (by omega)]
      exact hentry

theorem umemCacheInit_serves (h : SizesOk sizes last) {created : Nat → Bool} {table : AllocTable}
    (hinit : umemCacheInit sizes created = some table) {k : Nat} (hk : k < allocTableSize) :
    ∃ j < numAllocSizes, table k = some j ∧ Serves sizes k j := by
  obtain ⟨-, hinit⟩ := Option.ite_none_right_eq_some.mp hinit
  cases hinit
  have hstart : (umemAlign, fun _ => none) = (((0+1) * umemAlign, fun _ => none) :
      Nat × AllocTable) := rfl
  rw [hstart]
  apply fillTable_serves h (Nat.zero_add _) (Nat.zero_le _) (by simp) (by omega) _ (by simp) k hk
  intro _
  have := (h.aligned 0 (Nat.zero_le _)).2
  simp only [umemAlign] at this ⊢
  omega

theorem SizesOk.le_last (h : SizesOk sizes last) {k j : Nat} (hj : j < numAllocSizes)
    (hle : (k+1) * umemAlign ≤ sizes j) : j ≤ last := by
  by_contra hgt
  have := h.zeros j (by omega) hj
  simp only [umemAlign] at hle
  omega

theorem SizesOk.le_of_serves (h : SizesOk sizes last) {k i j : Nat} (hi : Serves sizes k i)
    (hj : j < numAllocSizes) (hle : (k+1) * umemAlign ≤ sizes j) : sizes i ≤ sizes j := by
  apply h.le_of_le _ (h.le_last hj hle)
  by_contra hlt
  have := hi.2 j (by omega)
  omega

theorem Serves.unique {k j j' : Nat} (h : Serves sizes k j) (h' : Serves sizes k j') : j = j' := by
  rcases lt_trichotomy j j' with hlt | heq | hgt
  · have := h'.2 j hlt
    exact absurd h.1 (by omega)
  · exact heq
  · have := h.2 j' hgt
    exact absurd h'.1 (by omega)

end

section
variable {table : AllocTable} {caches : Caches} {c : Nat}

theorem classBins_spec (n : Nat) (hn : n ≤ ptcNbins) :
    classBins n c = -1 ∧ (∀ bin < n, ptcSizeClasses.getD bin 0/8 ≠ c) ∨
      ∃ bin < n, classBins n c = bin ∧ ptcSizeClasses.getD bin 0/8 = c := by
  induction n with
  | zero => exact .inl ⟨rfl, by simp⟩
  | succ n ih =>
    have hclass : ∀ bin < ptcNbins, ptcSizeClasses.getD bin 0/8 < sizeToBinEntries := by decide
    rw [classBins, if_pos (hclass n hn)]
    by_cases hc : c = ptcSizeClasses.getD n 0/8
    · subst hc
      exact .inr ⟨n, Nat.lt_succ_self n, update_self _ _ _, rfl⟩
    · rw [update_of_ne hc]
      rcases ih (by omega) with ⟨heq, hne⟩ | ⟨bin, hbin, heq, hsize⟩
      · refine .inl ⟨heq, fun bin hbin => ?_⟩
        rcases Nat.lt_succ_iff_lt_or_eq.mp hbin with hbin | rfl
        · exact hne bin hbin
        · exact Ne.symm hc
      · exact .inr ⟨bin, by omega, heq, hsize⟩

/-- The turn of a bin in the third loop clears the entry of a class. -/
def Clears (table : AllocTable) (caches : Caches) (c bin : Nat) : Prop :=
  ptcSizeClasses.getD bin 0 ≠ 0 ∧ ptcSizeClasses.getD bin 0 / 8 = c ∧
    caches.flagsOf (umemPtcBinCache table (ptcSizeClasses.getD bin 0)) &&& umfDebug ≠ 0

variable (table caches)

theorem undebuggedBins_spec (hc : c < sizeToBinEntries) (n : Nat) :
    (∃ bin < n, Clears table caches c bin) ∧ undebuggedBins table caches n c = -1 ∨
      (∀ bin < n, ¬Clears table caches c bin) ∧
        undebuggedBins table caches n c = classBins ptcNbins c := by
  induction n with
  | zero => exact .inr ⟨by simp, rfl⟩
  | succ n ih =>
    by_cases hclear : Clears table caches c n
    · refine .inl ⟨⟨n, Nat.lt_succ_self n, hclear⟩, ?_⟩
      obtain ⟨hne, rfl, hdebug⟩ := hclear
      rw [umemPtcBinCache] at hdebug
      rw [undebuggedBins, if_neg hne, if_pos hdebug, if_pos hc, update_self]
    · have hturn : undebuggedBins table caches (n+1) c = undebuggedBins table caches n c := by
        rw [Clears, umemPtcBinCache] at hclear
        rw [undebuggedBins]
        grind [update_of_ne]
      rw [hturn]
      rcases ih with ⟨⟨bin, hbin, hclears⟩, heq⟩ | ⟨hnone, heq⟩
      · exact .inl ⟨⟨bin, by omega, hclears⟩, heq⟩
      · refine .inr ⟨fun bin hbin => ?_, heq⟩
        rcases Nat.lt_succ_iff_lt_or_eq.mp hbin with hbin | rfl
        · exact hnone bin hbin
        · exact hclear

/-- A class with a bin: its cache is not debugged. -/
def Binned (table : AllocTable) (caches : Caches) (size : Nat) : Prop :=
  (∃ bin < ptcNbins, ptcSizeClasses.getD bin 0 = size) ∧
    caches.flagsOf (umemPtcBinCache table size) &&& umfDebug = 0

/-- What is found in `size_to_bin_table` for a size. -/
theorem sizeToBinTable_spec (hpos : 0 < c) {bin : Int}
    (h : (if sizeToBinEntries ≤ c then -1 else sizeToBinTable table caches c) = bin) :
    ¬Binned table caches (8 * c) ∧ bin = -1 ∨ Binned table caches (8 * c) ∧ ∃ b < ptcNbins,
      bin = (b : Nat) ∧ ptcSizeClasses.getD b 0 = 8 * c := by
  have hclass : ∀ b < ptcNbins, ptcSizeClasses.getD b 0/8 = c →
      ptcSizeClasses.getD b 0 = 8 * c := by
    have hdvd : ∀ b < ptcNbins, 8 ∣ ptcSizeClasses.getD b 0 := by decide
    intro b hb heq
    rw [← heq, Nat.mul_div_cancel' (hdvd b hb)]
  split at h
  · rename_i hc
    refine .inl ⟨?_, h.symm⟩
    rintro ⟨⟨b, hb, hsize⟩, -⟩
    have hmax : ∀ b < ptcNbins, ptcSizeClasses.getD b 0/8 < sizeToBinEntries := by decide
    have := hmax b hb
    omega
  rename_i hc
  rw [sizeToBinTable] at h
  rcases undebuggedBins_spec table caches (Nat.not_le.mp hc) ptcNbins with
    ⟨⟨b, hb, -, hsize, hdebug⟩, heq⟩ | ⟨hnone, heq⟩
  · rw [hclass b hb hsize] at hdebug
    exact .inl ⟨fun hbinned => hdebug hbinned.2, h.symm.trans heq⟩
  · rw [heq] at h
    rcases classBins_spec (c := c) ptcNbins (le_refl _) with ⟨heq, hne⟩ | ⟨b, hb, heq, hsize⟩
    · refine .inl ⟨?_, h.symm.trans heq⟩
      rintro ⟨⟨b, hb, hsize⟩, -⟩
      exact hne b hb (by omega)
    · have hsize' := hclass b hb hsize
      refine .inr ⟨⟨⟨b, hb, hsize'⟩, ?_⟩, b, hb, h.symm.trans heq, hsize'⟩
      by_contra hdebug
      exact hnone b hb ⟨by omega, hsize, by rwa [hsize']⟩

variable {table}

theorem undebuggedBins_of_plain (hplain : ∀ i, caches.cacheFlags i &&& umfDebug = 0) (n : Nat) :
    undebuggedBins table caches n = classBins ptcNbins := by
  induction n with
  | zero => rfl
  | succ n ih =>
    have hflags : ∀ cp, caches.flagsOf cp &&& umfDebug = 0 := by
      intro cp
      cases cp with
      | none => exact BitVec.zero_and
      | some i => exact hplain i
    unfold undebuggedBins
    rw [ih]
    dsimp only
    rw [if_neg (not_not.mpr (hflags _)), ite_self]

end

/-- What a published bin says about its index. -/
theorem umemPtcBinReal_spec {sizes : Sizes} {last : Nat} (h : SizesOk sizes last)
    {table : AllocTable} (htable : ∀ k < allocTableSize, ∃ j < numAllocSizes,
      table k = some j ∧ Serves sizes k j) {flags : Nat → Word} {maxsize : Word} {idx : Nat}
    (hidx : idx < allocTableSize) (hbin : 0 ≤ umemPtcBinReal table ⟨sizes, flags⟩ maxsize idx) :
    ∃ i, i ≤ last ∧ table idx = some i ∧
      sizes i = umemPtcBinSize (umemPtcBinReal table ⟨sizes, flags⟩ maxsize idx) ∧
      flags i &&& umfDebug = 0 ∧ umemPtcBinCache table
        (umemPtcBinSize (umemPtcBinReal table ⟨sizes, flags⟩ maxsize idx)) = some i := by
  obtain ⟨i, hi, hentry, hserves⟩ := htable idx hidx
  have hlast := h.le_last hi hserves.1
  obtain ⟨⟨c, hcsize⟩, hpos⟩ := h.aligned i hlast
  have hobj : Caches.bufsizeOf ⟨sizes, flags⟩ (table idx) = sizes i := by
    rw [hentry]
    rfl
  have hdiv : sizes i/8 = c := by
    rw [hcsize, umemAlign, Nat.mul_div_cancel_left c (by decide)]
  unfold umemPtcBinReal at hbin ⊢
  dsimp only at hbin ⊢
  rw [hobj, hdiv] at hbin ⊢
  split at hbin
  · omega
  rename_i hsize
  rw [if_neg hsize]
  split at hbin
  · omega
  rename_i hobjsize
  rw [if_neg hobjsize]
  have hcpos : 0 < c := by
    simp only [umemAlign] at hpos hcsize
    omega
  obtain ⟨-, hnone⟩ | ⟨⟨-, hflags⟩, bin, hlt, hbineq, hclass⟩ :=
    sizeToBinTable_spec table ⟨sizes, flags⟩ hcpos rfl
  · rw [hnone] at hbin
    omega
  have hbinsize : umemPtcBinSize (if sizeToBinEntries ≤ c then -1
      else sizeToBinTable table ⟨sizes, flags⟩ c) = sizes i := by
    rw [hbineq, umemPtcBinSize, if_neg (by omega), Int.toNat_natCast, hclass, hcsize]
    rfl
  -- the requests of exactly that size are served by the same cache
  have hself : umemPtcBinCache table (sizes i) = some i := by
    have hindex : (sizes i-1)/umemAlign = c-1 := by
      rw [hcsize]
      simp only [umemAlign]
      omega
    have hle := h.le_maxbuf hi
    obtain ⟨j, hj, hjentry, hjserves⟩ := htable (c-1) (by
      simp only [umemAlign, umemMaxbuf, allocTableSize] at hle hcsize ⊢
      omega)
    have hiserves : Serves sizes (c-1) i := by
      rw [Serves, Nat.sub_add_cancel hcpos, Nat.mul_comm, ← hcsize]
      exact ⟨le_refl _, fun j' hj' => h.sorted j' i hj' hlast⟩
    rw [umemPtcBinCache, hindex, hjentry, hjserves.unique hiserves]
  refine ⟨i, hlast, hentry, hbinsize.symm, ?_, by rw [hbinsize]; exact hself⟩
  rw [← umemAlign, ← hcsize, hself] at hflags
  exact hflags

/-- The tables after any sequence of size options: the sizes are sorted and end with `UMEM_MAXBUF`,
every index names the cache of the smallest size that serves it, and every index with a bin has the
cache of the bin's class, which is not debugged and is the one that the bin is flushed to. -/
theorem size_tables (ops : List SizeOp) :
    (∃ last, SizesOk (ops.foldl SizeOp.apply umemAllocSizes) last) ∧
    ∀ sizes, sizes = ops.foldl SizeOp.apply umemAllocSizes →
      ∀ created table, umemCacheInit sizes created = some table →
        (∀ idx < allocTableSize, ∃ i < numAllocSizes, table idx = some i ∧
          (idx + 1) * umemAlign ≤ sizes i ∧
            ∀ j < numAllocSizes, (idx + 1) * umemAlign ≤ sizes j → sizes i ≤ sizes j) ∧
        ∀ flags maxsize enabled hooked idx bin, idx < allocTableSize → 0 ≤ bin →
          umemPtcBinTable enabled hooked table ⟨sizes, flags⟩ maxsize idx = bin →
          ∃ i, table idx = some i ∧ sizes i = umemPtcBinSize bin ∧ flags i &&& umfDebug = 0 ∧
            umemPtcBinCache table (umemPtcBinSize bin) = some i ∧
            ∀ idx' < allocTableSize,
              umemPtcBinTable enabled hooked table ⟨sizes, flags⟩ maxsize idx' = bin →
                table idx' = some i := by
  obtain ⟨last, h⟩ := SizesOk.default.apply_all ops
  refine ⟨⟨last, h⟩, ?_⟩
  intro sizes hsizes created table hinit
  rw [← hsizes] at h
  have htable := fun k (hk : k < allocTableSize) => umemCacheInit_serves h hinit hk
  refine ⟨?_, ?_⟩
  · intro idx hidx
    obtain ⟨i, hi, hentry, hserves⟩ := htable idx hidx
    refine ⟨i, hi, hentry, hserves.1, ?_⟩
    intro j hj hle
    exact h.le_of_serves hserves hj hle
  · intro flags maxsize enabled hooked idx bin hidx hbin heq
    have hreal : ∀ k, umemPtcBinTable enabled hooked table ⟨sizes, flags⟩ maxsize k = bin →
        umemPtcBinReal table ⟨sizes, flags⟩ maxsize k = bin := by
      intro k hk
      rw [umemPtcBinTable] at hk
      split at hk
      · omega
      · split at hk
        · omega
        · exact hk
    have hidxbin := hreal idx heq
    obtain ⟨i, hi, hentry, hsize, hflags, hcache⟩ :=
      umemPtcBinReal_spec h htable hidx (hidxbin ▸ hbin)
    rw [hidxbin] at hsize hcache
    refine ⟨i, hentry, hsize, hflags, hcache, ?_⟩
    intro idx' hidx' heq'
    have hidxbin' := hreal idx' heq'
    obtain ⟨i', hi', hentry', hsize', -⟩ := umemPtcBinReal_spec h htable hidx' (hidxbin' ▸ hbin)
    rw [hidxbin'] at hsize'
    -- two slots of one size are one slot
    rw [hentry', h.injective hi' hi (hsize'.trans hsize.symm)]

/-- Where no cache is debugged, the bin depends on the object size alone. -/
theorem umemPtcBinTable_of_plain {table : AllocTable} {sizes : Sizes} {flags : Nat → Word}
    {maxsize : Word} {idx i size : Nat} (hplain : ∀ i, flags i &&& umfDebug = 0)
    (hentry : table idx = some i) (hsize : sizes i = size) (hserves : (idx+1) * umemAlign ≤ size)
    (hmax : size ≤ maxsize.toNat) :
    umemPtcBinTable true false table ⟨sizes, flags⟩ maxsize idx =
      if sizeToBinEntries ≤ size/8 then -1 else classBins ptcNbins (size/8) := by
  have hobj : Caches.bufsizeOf ⟨sizes, flags⟩ (table idx) = size := by
    rw [hentry]
    exact hsize
  change umemPtcBinReal table ⟨sizes, flags⟩ maxsize idx = _
  unfold umemPtcBinReal
  dsimp only
  rw [hobj, if_neg (Nat.not_lt.mpr (hserves.trans hmax)), if_neg (Nat.not_lt.mpr hmax),
    sizeToBinTable, undebuggedBins_of_plain _ hplain]

theorem exists_defaultTable : ∃ table, umemCacheInit umemAllocSizes (fun _ => true) = some table ∧
    ∀ k < allocTableSize, ∀ i, Serves umemAllocSizes k i → table k = some i := by
  have hinit : umemCacheInit umemAllocSizes (fun _ => true) = some _ := if_pos (by decide)
  refine ⟨_, hinit, fun k hk i hi => ?_⟩
  obtain ⟨j, -, hentry, hj⟩ := umemCacheInit_serves SizesOk.default hinit hk
  rw [hentry, hj.unique hi]

/-- With no cache of eight bytes, the smallest requests go to the cache and to the bin of 16 bytes. -/
theorem size_tables_removed : ∃ table,
    umemCacheInit (umemAllocSizesRemove umemAllocSizes 8) (fun _ => true) = some table ∧
    ∃ i, table 0 = some i ∧ umemAllocSizesRemove umemAllocSizes 8 i = 16 ∧
      umemPtcBinCache table 16 = some i := by
  set sizes := umemAllocSizesRemove umemAllocSizes 8 with hsizes
  have hinit : umemCacheInit sizes (fun _ => true) =
      some (fillTable sizes numAllocSizes 0 (umemAlign, fun _ => none)).2 := if_pos (by decide +kernel)
  generalize (fillTable sizes numAllocSizes 0 (umemAlign, fun _ => none)).2 = table at hinit
  obtain ⟨htable, hbins⟩ := (size_tables [.remove 8]).2 sizes rfl (fun _ => true) table hinit
  obtain ⟨i, hi, hentry, hle, hleast⟩ := htable 0 (by decide)
  have hsize : sizes i = 16 := by
    have hleast' : sizes i ≤ 16 := hleast 0 (by decide) (by decide +kernel)
    have hnot : ∀ i < numAllocSizes, sizes i = 0 ∨ 16 ≤ sizes i := by decide +kernel
    have := hnot i hi
    simp only [umemAlign] at hle
    omega
  have hbin : umemPtcBinTable true false table ⟨sizes, fun _ => 0⟩ 8192 0 = 1 := by
    refine (umemPtcBinTable_of_plain (fun _ => BitVec.zero_and) hentry hsize ?_ ?_).trans ?_ <;> decide
  obtain ⟨i', hentry', -, -, hcache, -⟩ :=
    hbins (fun _ => 0) 8192 true false 0 1 (by decide) (by decide) hbin
  obtain rfl := Option.some.inj (hentry.symm.trans hentry')
  exact ⟨table, hinit, i, hentry, hsize, hcache⟩

end Libumem.SizeClass
