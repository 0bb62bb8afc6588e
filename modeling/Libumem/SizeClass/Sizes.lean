import Libumem.Arith.P2

/-!
# The table of allocation sizes

`umem_alloc_sizes` is an array of fixed length whose entries are sorted, end with `UMEM_MAXBUF` and
are followed by zeros. The options may clear it, add sizes to it and remove them, before the caches
are created from it. The array is a function of the index here.
-/

namespace Libumem.SizeClass
open Function Arith Lib.Pow2

def umemAlign : Nat := 8

def umemMaxbuf : Nat := 131072

/-- The initial contents of `umem_alloc_sizes` up to the slots for user expansion. -/
def defaultSizes : List Nat :=
  [8, 16, 32, 48, 64, 80, 96, 112, 128, 160, 192, 224, 256, 320, 384, 448, 512, 640, 768, 896, 1024,
    1280, 1536, 1792, 2048, 2560, 3072, 3584, 4096, 5120, 6144, 7168, 8192, 10240, 12288, 14336,
    16384, 20480, 24576, 32768, 40960, 49152, 57344, 65536, 73728, 81920, 98304, 114688, umemMaxbuf]

/-- `NUM_ALLOC_SIZES`: there are 16 slots for user expansion. -/
def numAllocSizes : Nat := 65

abbrev Sizes := Nat → Nat

def umemAllocSizes : Sizes := fun i => defaultSizes.getD i 0

def umemAllocSizesClear : Sizes := fun i => if i = 0 then umemMaxbuf else 0

/-- The first loop of `umem_alloc_sizes_add`, with `n` turns left: the slot for a new size, or `none`
when the size is in the table. -/
def addSlot (sizes : Sizes) (size : Nat) : Nat → Nat → Option Nat
  | 0, i => some i
  | n + 1, i =>
    if sizes i = size then none
    else if size < sizes i then some i
    else addSlot sizes size n (i + 1)

/-- The second loop of `umem_alloc_sizes_add`, which moves up the entries behind slot `i`. -/
def shiftUp (i : Nat) : Nat → Sizes → Sizes
  | 0, sizes => sizes
  | j + 1, sizes =>
    if i < j + 1 then shiftUp i j (update sizes (j + 1) (sizes j)) else sizes

def umemAllocSizesAdd (sizes : Sizes) (sizeArg : Word) : Sizes :=
  if sizeArg = 0 then sizes
  else if umemMaxbuf < sizeArg.toNat then sizes
  else if sizes (numAllocSizes - 1) ≠ 0 then sizes
  else
    let size := (if p2phase sizeArg 8 ≠ 0 then p2roundup sizeArg 8 else sizeArg).toNat
    match addSlot sizes size numAllocSizes 0 with
    | none => sizes
    | some i => update (shiftUp i (numAllocSizes - 1) sizes) i size

/-- The first loop of `umem_alloc_sizes_remove`: the slot of the size, or `none` when it is not in
the table. The loop may run off the end of a full table. -/
def removeSlot (sizes : Sizes) (size : Nat) : Nat → Nat → Option Nat
  | 0, i => some i
  | n + 1, i =>
    if sizes i = size then some i
    else if size < sizes i ∨ sizes i = 0 then none
    else removeSlot sizes size n (i + 1)

/-- The second loop of `umem_alloc_sizes_remove` and the write behind it, with `n` turns left. -/
def shiftDown : Nat → Nat → Sizes → Sizes
  | 0, i, sizes => update sizes i 0
  | n + 1, i, sizes => shiftDown n (i + 1) (update sizes i (sizes (i + 1)))

def umemAllocSizesRemove (sizes : Sizes) (size : Word) : Sizes :=
  if size.toNat = umemMaxbuf then sizes
  else
    match removeSlot sizes size.toNat numAllocSizes 0 with
    | none => sizes
    | some i => shiftDown (numAllocSizes - 1 - i) i sizes

inductive SizeOp
  | clear
  | add (size : Word)
  | remove (size : Word)
  deriving DecidableEq, Repr

def SizeOp.apply (sizes : Sizes) : SizeOp → Sizes
  | .clear => umemAllocSizesClear
  | .add size => umemAllocSizesAdd sizes size
  | .remove size => umemAllocSizesRemove sizes size

/-- The table with its last entry in slot `last`. -/
structure SizesOk (sizes : Sizes) (last : Nat) : Prop where
  bound : last < numAllocSizes
  maxbuf : sizes last = umemMaxbuf
  sorted : ∀ i j, i < j → j ≤ last → sizes i < sizes j
  aligned : ∀ i, i ≤ last → umemAlign ∣ sizes i ∧ umemAlign ≤ sizes i
  zeros : ∀ i, last < i → i < numAllocSizes → sizes i = 0

namespace SizesOk
variable {sizes : Sizes} {last : Nat}

theorem default : SizesOk umemAllocSizes 48 := by
  refine ⟨by decide, by decide, ?_, ?_, ?_⟩
  · have h : ∀ j < 49, ∀ i < j, umemAllocSizes i < umemAllocSizes j := by decide +kernel
    intro i j hij hj
    exact h j (by omega) i hij
  · have h : ∀ i < 49, umemAlign ∣ umemAllocSizes i ∧ umemAlign ≤ umemAllocSizes i := by
      decide +kernel
    intro i hi
    exact h i (by omega)
  · have h : ∀ i < 65, 48 < i → umemAllocSizes i = 0 := by decide +kernel
    intro i hi hi'
    exact h i hi' hi

theorem clear : SizesOk umemAllocSizesClear 0 where
  bound := by decide
  maxbuf := rfl
  sorted i j hij hj := by omega
  aligned i hi := by
    obtain rfl : i = 0 := by omega
    decide
  zeros i hi _ := if_neg (by omega)

theorem le_maxbuf (h : SizesOk sizes last) {i : Nat} (hi : i < numAllocSizes) :
    sizes i ≤ umemMaxbuf := by
  rcases lt_trichotomy i last with hlt | rfl | hgt
  · rw [← h.maxbuf]
    exact (h.sorted i last hlt (le_refl _)).le
  · exact h.maxbuf.le
  · rw [h.zeros i hgt hi]
    exact Nat.zero_le _

theorem le_of_le (h : SizesOk sizes last) {i j : Nat} (hij : i ≤ j) (hj : j ≤ last) :
    sizes i ≤ sizes j := by
  rcases Nat.lt_or_eq_of_le hij with hlt | rfl
  · exact (h.sorted i j hlt hj).le
  · exact le_refl _

theorem injective (h : SizesOk sizes last) {i j : Nat} (hi : i ≤ last) (hj : j ≤ last)
    (heq : sizes i = sizes j) : i = j := by
  rcases lt_trichotomy i j with hlt | heq' | hgt
  · exact absurd heq (h.sorted i j hlt hj).ne
  · exact heq'
  · exact absurd heq.symm (h.sorted j i hgt hi).ne

theorem addSlot_eq_some (h : SizesOk sizes last) {size n i k : Nat} (hsize : size ≤ umemMaxbuf)
    (hn : i+n = numAllocSizes) (hi : i ≤ last) (hbelow : ∀ j < i, sizes j < size)
    (hk : addSlot sizes size n i = some k) :
    k ≤ last ∧ (∀ j < k, sizes j < size) ∧ size < sizes k := by
  induction n generalizing i with
  | zero =>
    have := h.bound
    omega
  | succ n ih =>
    rw [addSlot] at hk
    split at hk
    · simp at hk
    rename_i hne
    split at hk
    · rename_i hlt
      cases hk
      exact ⟨hi, hbelow, hlt⟩
    · rename_i hge
      have hlt : sizes i < size := by omega
      -- the last entry is not below the size, so the loop does not reach it
      have hne : i ≠ last := by
        rintro rfl
        rw [h.maxbuf] at hlt
        omega
      apply ih (by omega) (by omega) _ hk
      intro j hj
      rcases Nat.lt_succ_iff_lt_or_eq.mp hj with hj | rfl
      · exact hbelow j hj
      · exact hlt

end SizesOk

theorem shiftUp_apply (i j k : Nat) (sizes : Sizes) :
    shiftUp i j sizes k = if i < k ∧ k ≤ j then sizes (k-1) else sizes k := by
  induction j generalizing sizes with
  | zero =>
    rw [shiftUp, if_neg (by omega)]
  | succ j ih =>
    rw [shiftUp]
    by_cases hij : i < j+1
    · rw [if_pos hij, ih]
      by_cases hk : k = j+1
      · subst hk
        rw [if_neg (by omega), update_self, if_pos ⟨hij, le_refl _⟩, Nat.add_sub_cancel]
      · by_cases hik : i < k ∧ k ≤ j
        · rw [if_pos hik, update_of_ne (by omega), if_pos (by omega)]
        · rw [if_neg hik, update_of_ne hk, if_neg (by omega)]
    · rw [if_neg hij, if_neg (by omega)]

theorem shiftDown_apply (n i k : Nat) (sizes : Sizes) :
    shiftDown n i sizes k =
      if i ≤ k ∧ k < i+n then sizes (k+1) else if k = i+n then 0 else sizes k := by
  induction n generalizing i sizes with
  | zero =>
    rw [shiftDown, if_neg (by omega), Nat.add_zero]
    by_cases hk : k = i
    · subst hk
      rw [update_self, if_pos rfl]
    · rw [update_of_ne hk, if_neg hk]
  | succ n ih =>
    rw [shiftDown, ih]
    by_cases hk : i+1 ≤ k ∧ k < i+1+n
    · rw [if_pos hk, update_of_ne (by omega), if_pos (by omega)]
    · rw [if_neg hk]
      by_cases hend : k = i+1+n
      · rw [if_pos hend, if_neg (by omega), if_pos (by omega)]
      · rw [if_neg hend]
        by_cases hki : k = i
        · subst hki
          rw [update_self, if_pos (by omega)]
        · rw [update_of_ne hki, if_neg (by omega), if_neg (by omega)]

namespace SizesOk
variable {sizes : Sizes} {last : Nat}

theorem insert (h : SizesOk sizes last) (hroom : sizes (numAllocSizes-1) = 0) {i size : Nat}
    (hi : i ≤ last) (hbelow : ∀ j < i, sizes j < size) (habove : size < sizes i)
    (halign : umemAlign ∣ size) (hpos : umemAlign ≤ size) :
    SizesOk (update (shiftUp i (numAllocSizes-1) sizes) i size) (last+1) := by
  have hlast : last < numAllocSizes-1 := by
    have hb := h.bound
    have hm := h.maxbuf
    rcases Nat.lt_or_eq_of_le (Nat.le_sub_one_of_lt hb) with hlt | heq
    · exact hlt
    · rw [heq, hroom] at hm
      simp [umemMaxbuf] at hm
  have hval : ∀ k, k < numAllocSizes →
      update (shiftUp i (numAllocSizes-1) sizes) i size k =
        if k < i then sizes k else if k = i then size else sizes (k-1) := by
    intro k hk
    by_cases hki : k = i
    · subst hki
      rw [update_self, if_neg (lt_irrefl _), if_pos rfl]
    · rw [update_of_ne hki, shiftUp_apply]
      by_cases hlt : k < i
      · rw [if_neg (by omega), if_pos hlt]
      · rw [if_pos (by omega), if_neg hlt, if_neg hki]
  refine ⟨by omega, ?_, ?_, ?_, ?_⟩
  · rw [hval _ (by omega), if_neg (by omega), if_neg (by omega), Nat.add_sub_cancel]
    exact h.maxbuf
  · intro a b hab hb
    rw [hval a (by omega), hval b (by omega)]
    split
    · rename_i ha
      split
      · exact h.sorted a b hab (by omega)
      · split
        · exact hbelow a ha
        · exact h.sorted a (b-1) (by omega) (by omega)
    · split
      · rw [if_neg (by omega), if_neg (by omega)]
        exact lt_of_lt_of_le habove (h.le_of_le (by omega) (by omega))
      · rw [if_neg (by omega), if_neg (by omega)]
        exact h.sorted (a-1) (b-1) (by omega) (by omega)
  · intro k hk
    rw [hval k (by omega)]
    split
    · exact h.aligned k (by omega)
    · split
      · exact ⟨halign, hpos⟩
      · exact h.aligned (k-1) (by omega)
  · intro k hk hk'
    rw [hval k hk', if_neg (by omega), if_neg (by omega)]
    exact h.zeros (k-1) (by omega) (by omega)

theorem entered_eq (sizeArg : Word) (hmax : sizeArg.toNat ≤ umemMaxbuf) :
    (if p2phase sizeArg 8 ≠ 0 then p2roundup sizeArg 8 else sizeArg).toNat =
      roundUp sizeArg.toNat umemAlign := by
  have hpow : IsPow2 8 := ⟨3, by decide, rfl⟩
  have hphase : (p2phase sizeArg 8).toNat = sizeArg.toNat % umemAlign := toNat_p2phase sizeArg hpow
  split
  · have hle : roundUp sizeArg.toNat umemAlign ≤ umemMaxbuf :=
      roundUp_le_of_dvd (by decide) (by decide) hmax
    apply toNat_p2roundup_of_lt hpow
    exact lt_of_le_of_lt hle (by decide)
  · rename_i hzero
    rw [not_not] at hzero
    rw [hzero] at hphase
    exact (roundUp_of_dvd (by decide) (Nat.dvd_of_mod_eq_zero hphase.symm)).symm

theorem add (h : SizesOk sizes last) (sizeArg : Word) :
    ∃ last', SizesOk (umemAllocSizesAdd sizes sizeArg) last' := by
  unfold umemAllocSizesAdd
  split
  · exact ⟨last, h⟩
  rename_i hzero
  split
  · exact ⟨last, h⟩
  rename_i hmax
  split
  · exact ⟨last, h⟩
  rename_i hroom
  rw [not_not] at hroom
  dsimp only
  rw [entered_eq sizeArg (by omega)]
  have hle : roundUp sizeArg.toNat umemAlign ≤ umemMaxbuf :=
    roundUp_le_of_dvd (by decide) (by decide) (by omega)
  cases hslot : addSlot sizes (roundUp sizeArg.toNat umemAlign) numAllocSizes 0 with
  | none => exact ⟨last, h⟩
  | some i =>
    obtain ⟨hi, hbelow, habove⟩ := h.addSlot_eq_some hle (Nat.zero_add _) (Nat.zero_le _)
      (by simp) hslot
    have hdvd : umemAlign ∣ roundUp sizeArg.toNat umemAlign := dvd_roundUp _ _
    have hpos : 0 < roundUp sizeArg.toNat umemAlign := by
      apply roundUp_pos (by decide)
      bv_omega
    exact ⟨last+1, h.insert hroom hi hbelow habove hdvd (Nat.le_of_dvd hpos hdvd)⟩

theorem removeSlot_eq_some (h : SizesOk sizes last) {size n i k : Nat} (hn : i+n = numAllocSizes)
    (hbelow : ∀ j < i, sizes j < size) (hk : removeSlot sizes size n i = some k) :
    k = numAllocSizes ∨ (k ≤ last ∧ sizes k = size) := by
  induction n generalizing i with
  | zero =>
    cases hk
    exact .inl (by omega)
  | succ n ih =>
    rw [removeSlot] at hk
    split at hk
    · rename_i heq
      obtain rfl := Option.some.inj hk
      refine .inr ⟨?_, heq⟩
      -- behind the last entry there are zeros, and the last entry is below the size by then
      by_contra hgt
      have h0 := h.zeros i (by omega) (by omega)
      have hlt := hbelow last (by omega)
      omega
    · split at hk
      · simp at hk
      · apply ih (by omega) _ hk
        intro j hj
        rcases Nat.lt_succ_iff_lt_or_eq.mp hj with hj | rfl
        · exact hbelow j hj
        · omega

theorem erase (h : SizesOk sizes last) {i : Nat} (hi : i < last) :
    SizesOk (shiftDown (numAllocSizes-1-i) i sizes) (last-1) := by
  have hb := h.bound
  have hval : ∀ k, k < numAllocSizes → shiftDown (numAllocSizes-1-i) i sizes k =
      if k < i then sizes k else if k < numAllocSizes-1 then sizes (k+1) else 0 := by
    intro k hk
    rw [shiftDown_apply]
    by_cases hlt : k < i
    · rw [if_neg (by omega), if_neg (by omega), if_pos hlt]
    · rw [if_neg hlt]
      by_cases hend : k < numAllocSizes-1
      · rw [if_pos (by omega), if_pos hend]
      · rw [if_neg (by omega), if_pos (by omega), if_neg hend]
  refine ⟨by omega, ?_, ?_, ?_, ?_⟩
  · rw [hval _ (by omega), if_neg (by omega), if_pos (by omega), Nat.sub_add_cancel (by omega)]
    exact h.maxbuf
  · intro a b hab hb'
    rw [hval a (by omega), hval b (by omega)]
    split
    · split
      · exact h.sorted a b hab (by omega)
      · rw [if_pos (by omega)]
        exact h.sorted a (b+1) (by omega) (by omega)
    · rw [if_pos (by omega), if_neg (by omega), if_pos (by omega)]
      exact h.sorted (a+1) (b+1) (by omega) (by omega)
  · intro k hk
    rw [hval k (by omega)]
    split
    · exact h.aligned k (by omega)
    · rw [if_pos (by omega)]
      exact h.aligned (k+1) (by omega)
  · intro k hk hk'
    rw [hval k hk', if_neg (by omega)]
    split
    · exact h.zeros (k+1) (by omega) (by omega)
    · rfl

theorem remove (h : SizesOk sizes last) (size : Word) :
    ∃ last', SizesOk (umemAllocSizesRemove sizes size) last' := by
  unfold umemAllocSizesRemove
  split
  · exact ⟨last, h⟩
  rename_i hmax
  cases hslot : removeSlot sizes size.toNat numAllocSizes 0 with
  | none => exact ⟨last, h⟩
  | some i =>
    dsimp only
    rcases h.removeSlot_eq_some (Nat.zero_add _) (by simp) hslot with rfl | ⟨hi, heq⟩
    · -- the write falls behind the table
      have hval : ∀ k < numAllocSizes,
          shiftDown (numAllocSizes-1-numAllocSizes) numAllocSizes sizes k = sizes k := by
        intro k hk
        rw [shiftDown_apply, if_neg (by omega), if_neg (by omega)]
      refine ⟨last, h.bound, ?_, ?_, ?_, ?_⟩
      · rw [hval last h.bound]
        exact h.maxbuf
      · intro a b hab hb
        have := h.bound
        rw [hval a (by omega), hval b (by omega)]
        exact h.sorted a b hab hb
      · intro k hk
        have := h.bound
        rw [hval k (by omega)]
        exact h.aligned k hk
      · intro k hk hk'
        rw [hval k hk']
        exact h.zeros k hk hk'
    · have hne : i ≠ last := by
        rintro rfl
        exact hmax (heq.symm.trans h.maxbuf)
      exact ⟨last-1, h.erase (by omega)⟩

theorem apply_all (ops : List SizeOp) (h : SizesOk sizes last) :
    ∃ last', SizesOk (ops.foldl SizeOp.apply sizes) last' := by
  induction ops generalizing sizes last with
  | nil => exact ⟨last, h⟩
  | cons op ops ih =>
    have hstep : ∃ last', SizesOk (op.apply sizes) last' := by
      cases op with
      | clear => exact ⟨0, clear⟩
      | add size => exact h.add size
      | remove size => exact h.remove size
    obtain ⟨last', h'⟩ := hstep
    exact ih h'

end SizesOk
end Libumem.SizeClass
