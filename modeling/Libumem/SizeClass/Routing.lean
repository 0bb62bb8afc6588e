import Libumem.SizeClass.Tables

/-!
# Requests to the per-thread cache

`umem_ptc_size_to_bin` looks a request up in `size_to_bin_table` by its own size, while
`umem_ptc_init` records its bin by the object size of the cache that serves it. Everything here
happens after `umem_ptc_init` has got to its end. An object comes with the cache that it is from, and
a bin is the list of its objects, the last one first.
-/

namespace Libumem.SizeClass
open Function List Arith

structure Obj where
  cache : Option Nat
  addr : Word

abbrev PtcBins := Nat → List Obj

/-- What a call leaves in the bins, returns, gives to `_umem_cache_free` and of which cache, and the
entries of `umem_alloc_table` that it reads. -/
structure PtcCall where
  bins : PtcBins
  ret : Option Obj
  freed : List (Option Nat × Obj)
  reads : List Nat

def ptcBinCapacity (bin : Int) : Nat :=
  if bin < 13 then 128 else if bin < 21 then 64 else if bin < 28 then 32 else 16

/-- `(size - 1) >> UMEM_ALIGN_SHIFT`, the index of a size in `umem_alloc_table`. -/
def allocIndex (size : Word) : Nat := ((size - 1) >>> 3).toNat

/-- The size that bins are filled and flushed with. -/
def binWord (bin : Int) : Word := .ofNat 64 (umemPtcBinSize bin)

structure Ptc where
  table : AllocTable
  caches : Caches
  maxsize : Word

namespace Ptc
variable (p : Ptc) (size : Word)

def umemPtcSizeToBin : Int :=
  if p.maxsize.toNat < size.toNat then -1
  else
    let index := ((size + 7) &&& ~~~7).toNat / 8
    if sizeToBinEntries ≤ index then -1 else sizeToBinTable p.table p.caches index

/-- `umem_ptc_bin_refill`, where `supply` is what `_umem_cache_alloc` returns before it fails:
whether there are new objects, the bin, and the entries that are read. -/
def umemPtcBinRefill (bin : List Obj) (supply : List Word) : Bool × List Obj × List Nat :=
  let binIdx := p.umemPtcSizeToBin size
  if binIdx < 0 then (false, bin, [])
  else
    let objs := (supply.take (ptcBinCapacity binIdx / 2)).map (Obj.mk (p.table (allocIndex size)))
    (!objs.isEmpty, objs.reverse ++ bin, [allocIndex size])

/-- `umem_ptc_bin_flush`: the bin, the objects that are freed, and the entries that are read. -/
def umemPtcBinFlush (bin : List Obj) : List Obj × List (Option Nat × Obj) × List Nat :=
  if bin.length = 0 then (bin, [], [])
  else
    let flushCount := if bin.length / 2 = 0 then bin.length else bin.length / 2
    (bin.drop flushCount, (bin.take flushCount).map (Prod.mk (p.table (allocIndex size))),
      [allocIndex size])

/-- `got` says whether `umem_ptc_get` returns a cache. Where it does not, nothing is done. -/
def umemPtcAlloc (bins : PtcBins) (got : Bool) (supply : List Word) : PtcCall :=
  let binIdx := p.umemPtcSizeToBin size
  if binIdx < 0 ∨ !got then ⟨bins, none, [], []⟩
  else
    let bin := bins binIdx.toNat
    if 0 < bin.length then ⟨update bins binIdx.toNat bin.tail, bin.head?, [], []⟩
    else
      let (ok, bin, reads) := p.umemPtcBinRefill (binWord binIdx) bin supply
      if ok then ⟨update bins binIdx.toNat bin.tail, bin.head?, [], reads⟩
      else ⟨update bins binIdx.toNat bin, none, [], reads⟩

/-- `umem_ptc_free`, and whether it takes the object. -/
def umemPtcFree (bins : PtcBins) (got : Bool) (ptr : Obj) : Bool × PtcCall :=
  let binIdx := p.umemPtcSizeToBin size
  if ptr.addr = 0 ∨ binIdx < 0 ∨ !got then (false, ⟨bins, none, [], []⟩)
  else
    let bin := bins binIdx.toNat
    if bin.length < ptcBinCapacity binIdx then
      (true, ⟨update bins binIdx.toNat (ptr :: bin), none, [], []⟩)
    else
      let (bin, freed, reads) := p.umemPtcBinFlush (binWord binIdx) bin
      if bin.length < ptcBinCapacity binIdx then
        (true, ⟨update bins binIdx.toNat (ptr :: bin), none, freed, reads⟩)
      else (false, ⟨update bins binIdx.toNat bin, none, freed, reads⟩)

/-- The bin recorded in `umem_ptc_bin_real`. -/
def recordedBin : Int :=
  if allocIndex size < allocTableSize then
    umemPtcBinReal p.table p.caches p.maxsize (allocIndex size)
  else -1

/-- The cache that `umem_alloc` takes an object of a size from. -/
def umemAllocCache : Option Nat :=
  if allocIndex size < allocTableSize then p.table (allocIndex size) else none

/-- Every bin holds objects of the cache that it is flushed to. -/
def Stocked (bins : PtcBins) : Prop := ∀ b, ∀ o ∈ bins b, o.cache = p.table (allocIndex (binWord b))

structure Moves (c : PtcCall) : Prop where
  stocked : p.Stocked c.bins
  ret : ∀ o ∈ c.ret, o.cache = p.umemAllocCache size
  freed : ∀ x ∈ c.freed, x.2.cache = x.1
  inside : ∀ i ∈ c.reads, i < allocTableSize

/-- The requests of a size go to the recorded bin, stay inside `umem_alloc_table` and move objects of
the cache that `umem_alloc` uses. -/
structure Routed : Prop where
  bin : p.umemPtcSizeToBin size = p.recordedBin size
  alloc : ∀ bins got supply, p.Stocked bins → p.Moves size (p.umemPtcAlloc size bins got supply)
  free : ∀ bins got ptr, p.Stocked bins → ptr.cache = p.umemAllocCache size →
    p.Moves size (p.umemPtcFree size bins got ptr).2
  refill : ∀ bin supply, (∀ i ∈ (p.umemPtcBinRefill size bin supply).2.2, i < allocTableSize) ∧
    ∀ o ∈ (p.umemPtcBinRefill size bin supply).2.1, o ∈ bin ∨ o.cache = p.umemAllocCache size

/-- What the agreement of the two computations comes down to: a request up to `tcache_max` does not
wrap around when it is rounded up, and one inside the table has the size of its cache, or neither
size has a bin. -/
def Agrees : Prop :=
  size.toNat ≤ p.maxsize.toNat → 8 ≤ (size + 7).toNat ∧ (allocIndex size < allocTableSize →
    let need := 8 * (allocIndex size + 1)
    let objSize := p.caches.bufsizeOf (p.table (allocIndex size))
    objSize = need ∧ need ≤ p.maxsize.toNat ∨
      ¬Binned p.table p.caches need ∧ (Binned p.table p.caches objSize → p.maxsize.toNat < objSize))

variable {p size}

theorem toNat_allocIndex : allocIndex size = (size-1).toNat/8 := by
  rw [allocIndex, BitVec.toNat_ushiftRight, Nat.shiftRight_eq_div_pow]

theorem umemPtcSizeToBin_eq (p : Ptc) (size : Word) : p.umemPtcSizeToBin size =
    if p.maxsize.toNat < size.toNat then -1
    else if sizeToBinEntries ≤ (size+7).toNat/8 then -1
    else sizeToBinTable p.table p.caches ((size+7).toNat/8) := by
  have hpow : IsPow2 8 := ⟨3, by decide, rfl⟩
  have hround : ((size+7) &&& ~~~7).toNat/8 = (size+7).toNat/8 := by
    have hmask : (~~~7 : Word) = -8 := by decide
    rw [hmask, ← p2align, toNat_p2align _ hpow]
    simp only [BitVec.reduceToNat]
    omega
  rw [umemPtcSizeToBin, hround]

/-- A size inside the table is rounded up to the class of its index. -/
theorem roundup_eq (h : allocIndex size < allocTableSize) :
    (size+7).toNat/8 = allocIndex size+1 ∧ size.toNat ≤ 8 * (allocIndex size+1) := by
  simp only [toNat_allocIndex, allocTableSize, umemMaxbuf, umemAlign] at h ⊢
  bv_omega

theorem allocIndex_binWord (h : allocIndex size < allocTableSize)
    (hbin : ¬p.umemPtcSizeToBin size < 0) :
    allocIndex (binWord (p.umemPtcSizeToBin size)) = allocIndex size := by
  rw [umemPtcSizeToBin_eq, (roundup_eq h).1] at hbin ⊢
  split at hbin
  · omega
  rename_i hmax
  rw [if_neg hmax]
  obtain ⟨-, hnone⟩ | ⟨-, b, hb, heq, hclass⟩ :=
    sizeToBinTable_spec p.table p.caches (Nat.succ_pos (allocIndex size)) rfl
  · rw [hnone] at hbin
    omega
  · rw [heq, binWord, umemPtcBinSize, if_neg (by omega), Int.toNat_natCast, hclass]
    simp only [toNat_allocIndex, allocTableSize, umemMaxbuf, umemAlign] at h ⊢
    bv_omega

theorem umemPtcBinRefill_spec (p : Ptc) (size : Word) (bin : List Obj) (supply : List Word) :
    (∀ i ∈ (p.umemPtcBinRefill size bin supply).2.2, i = allocIndex size) ∧
      ∀ o ∈ (p.umemPtcBinRefill size bin supply).2.1, o ∈ bin ∨
        o.cache = p.table (allocIndex size) := by
  unfold umemPtcBinRefill
  dsimp only
  split
  · exact ⟨by simp, fun o ho => .inl ho⟩
  · refine ⟨by simp, fun o ho => ?_⟩
    rcases mem_append.mp ho with ho | ho
    · obtain ⟨a, -, rfl⟩ := mem_map.mp (mem_reverse.mp ho)
      exact .inr rfl
    · exact .inl ho

theorem umemPtcBinFlush_spec (p : Ptc) (size : Word) (bin : List Obj) :
    (∀ i ∈ (p.umemPtcBinFlush size bin).2.2, i = allocIndex size) ∧
    (∀ o ∈ (p.umemPtcBinFlush size bin).1, o ∈ bin) ∧
    ∀ x ∈ (p.umemPtcBinFlush size bin).2.1, x.1 = p.table (allocIndex size) ∧ x.2 ∈ bin := by
  unfold umemPtcBinFlush
  split
  · simp
  · refine ⟨by simp, fun o ho => mem_of_mem_drop ho, fun x hx => ?_⟩
    obtain ⟨o, ho, rfl⟩ := mem_map.mp hx
    exact ⟨rfl, mem_of_mem_take ho⟩

/-- A request that goes to its recorded bin has all the rest. -/
theorem Routed.of_bin (h : p.umemPtcSizeToBin size = p.recordedBin size) : p.Routed size := by
  have hrefill := p.umemPtcBinRefill_spec size
  by_cases hneg : p.umemPtcSizeToBin size < 0
  · refine ⟨h, ?_, ?_, ?_⟩
    · intro bins got supply hstock
      rw [umemPtcAlloc, if_pos (.inl hneg)]
      exact ⟨hstock, by simp, by simp, by simp⟩
    · intro bins got ptr hstock hptr
      rw [umemPtcFree, if_pos (.inr (.inl hneg))]
      exact ⟨hstock, by simp, by simp, by simp⟩
    · intro bin supply
      rw [umemPtcBinRefill, if_pos hneg]
      exact ⟨by simp, fun o ho => .inl ho⟩
  have hidx : allocIndex size < allocTableSize := by
    by_contra hge
    rw [h, recordedBin, if_neg hge] at hneg
    omega
  have hcache : p.umemAllocCache size = p.table (allocIndex size) := if_pos hidx
  have hclass := allocIndex_binWord hidx hneg
  have hnat := Int.toNat_of_nonneg (Int.not_lt.mp hneg)
  have hhold : ∀ bins, p.Stocked bins → ∀ o ∈ bins (p.umemPtcSizeToBin size).toNat,
      o.cache = p.umemAllocCache size := by
    intro bins hstock o ho
    rw [hstock _ o ho, hnat, hclass, hcache]
  have hput : ∀ bins, p.Stocked bins → ∀ bin : List Obj,
      (∀ o ∈ bin, o.cache = p.umemAllocCache size) →
        p.Stocked (update bins (p.umemPtcSizeToBin size).toNat bin) := by
    intro bins hstock bin hbin b o ho
    by_cases hb : b = (p.umemPtcSizeToBin size).toNat
    · rw [hb, update_self] at ho
      rw [hb, hnat, hclass, hbin o ho, hcache]
    · rw [update_of_ne hb] at ho
      exact hstock b o ho
  refine ⟨h, ?_, ?_, ?_⟩
  · intro bins got supply hstock
    have hhold := hhold bins hstock
    obtain ⟨hreads, hobjs⟩ := p.umemPtcBinRefill_spec (binWord (p.umemPtcSizeToBin size))
      (bins (p.umemPtcSizeToBin size).toNat) supply
    rw [hclass] at hreads hobjs
    rw [umemPtcAlloc]
    split
    · exact ⟨hstock, by simp, by simp, by simp⟩
    dsimp only
    generalize p.umemPtcBinRefill _ _ supply = r at hreads hobjs ⊢
    have hin : ∀ o ∈ r.2.1, o.cache = p.umemAllocCache size := by
      intro o ho
      rcases hobjs o ho with ho | ho
      · exact hhold o ho
      · rw [ho, hcache]
    have hbound : ∀ i ∈ r.2.2, i < allocTableSize := fun i hi => hreads i hi ▸ hidx
    split
    · exact ⟨hput _ hstock _ fun o ho => hhold o (mem_of_mem_tail ho),
        fun o ho => hhold o (mem_of_mem_head? ho), by simp, by simp⟩
    · split
      · exact ⟨hput _ hstock _ fun o ho => hin o (mem_of_mem_tail ho),
          fun o ho => hin o (mem_of_mem_head? ho), by simp, hbound⟩
      · exact ⟨hput _ hstock _ hin, by simp, by simp, hbound⟩
  · intro bins got ptr hstock hptr
    have hhold := hhold bins hstock
    obtain ⟨hreads, hbin, hfreed⟩ := p.umemPtcBinFlush_spec (binWord (p.umemPtcSizeToBin size))
      (bins (p.umemPtcSizeToBin size).toNat)
    rw [hclass] at hreads hfreed
    rw [umemPtcFree]
    split
    · exact ⟨hstock, by simp, by simp, by simp⟩
    dsimp only
    split
    · exact ⟨hput _ hstock _ (by simpa [hptr] using hhold), by simp, by simp, by simp⟩
    generalize p.umemPtcBinFlush _ _ = r at hreads hbin hfreed ⊢
    have hin : ∀ o ∈ r.1, o.cache = p.umemAllocCache size := fun o ho => hhold o (hbin o ho)
    have hback : ∀ x ∈ r.2.1, x.2.cache = x.1 := fun x hx => by
      rw [hhold _ (hfreed x hx).2, (hfreed x hx).1, hcache]
    have hbound : ∀ i ∈ r.2.2, i < allocTableSize := fun i hi => hreads i hi ▸ hidx
    split
    · exact ⟨hput _ hstock _ (by simpa [hptr] using hin), by simp, hback, hbound⟩
    · exact ⟨hput _ hstock _ hin, by simp, hback, hbound⟩
  · intro bin supply
    obtain ⟨hreads, hobjs⟩ := hrefill bin supply
    rw [← hcache] at hobjs
    exact ⟨fun i hi => hreads i hi ▸ hidx, hobjs⟩

/-- The padding among the classes gives the last bin of size zero to the first entry. -/
theorem sizeToBinTable_zero (table : AllocTable) (caches : Caches) :
    sizeToBinTable table caches 0 = 27 := by
  rcases undebuggedBins_spec table caches (c := 0) (by decide) ptcNbins with
    ⟨⟨bin, hbin, hne, hzero, -⟩, -⟩ | ⟨-, heq⟩
  · have hpos : ∀ bin < ptcNbins, ptcSizeClasses.getD bin 0 ≠ 0 →
        ptcSizeClasses.getD bin 0/8 ≠ 0 := by decide
    exact absurd hzero (hpos bin hbin hne)
  · rw [sizeToBinTable, heq]
    decide

theorem sizeToBin_eq_neg_one_iff (hidx : ¬allocIndex size < allocTableSize) :
    p.umemPtcSizeToBin size = -1 ↔ (size.toNat ≤ p.maxsize.toNat → 8 ≤ (size+7).toNat) := by
  rw [umemPtcSizeToBin_eq]
  by_cases hmax : p.maxsize.toNat < size.toNat
  · rw [if_pos hmax]
    exact iff_of_true rfl fun h => absurd hmax (Nat.not_lt.mpr h)
  rw [if_neg hmax]
  by_cases hwrap : 8 ≤ (size+7).toNat
  · -- what is not in the table is too large for the bins
    have hlarge : sizeToBinEntries ≤ (size+7).toNat/8 := by
      simp only [toNat_allocIndex, allocTableSize, umemMaxbuf, umemAlign,
        sizeToBinEntries] at hidx ⊢
      bv_omega
    rw [if_pos hlarge]
    exact iff_of_true rfl fun _ => hwrap
  · have hzero : (size+7).toNat/8 = 0 := by omega
    rw [hzero, sizeToBinTable_zero]
    exact iff_of_false (by decide) fun h => hwrap (h (Nat.not_lt.mp hmax))

theorem sizeToBin_eq_binReal_iff (hidx : allocIndex size < allocTableSize) {c : Nat}
    (hc : allocIndex size < c) (hobj : p.caches.bufsizeOf (p.table (allocIndex size)) = 8 * c) :
    p.umemPtcSizeToBin size = umemPtcBinReal p.table p.caches p.maxsize (allocIndex size) ↔
      p.Agrees size := by
  obtain ⟨hround, hle⟩ := roundup_eq hidx
  have hdiv : 8 * c/8 = c := Nat.mul_div_cancel_left c (by decide)
  have h8 : 8 ≤ (size+7).toNat := by omega
  rw [umemPtcSizeToBin_eq, umemPtcBinReal, Agrees, hround, hobj]
  dsimp only
  rw [hdiv]
  generalize hown : (if sizeToBinEntries ≤ allocIndex size+1 then -1
    else sizeToBinTable p.table p.caches (allocIndex size+1)) = own
  generalize hreal : (if sizeToBinEntries ≤ c then -1
    else sizeToBinTable p.table p.caches c) = real
  have hown := sizeToBinTable_spec p.table p.caches (Nat.succ_pos _) hown
  have hreal := sizeToBinTable_spec p.table p.caches (Nat.zero_lt_of_lt hc) hreal
  simp only [umemAlign, hidx, h8, true_and, forall_const]
  grind

end Ptc
open Ptc

/-- After any sequence of size options, the requests that go to the recorded bin. -/
theorem size_routing_iff (ops : List SizeOp) (created : Nat → Bool) (table : AllocTable)
    (hinit : umemCacheInit (ops.foldl SizeOp.apply umemAllocSizes) created = some table)
    (flags : Nat → Word) (maxsize size : Word) :
    Routed ⟨table, ⟨ops.foldl SizeOp.apply umemAllocSizes, flags⟩, maxsize⟩ size ↔
      Agrees ⟨table, ⟨ops.foldl SizeOp.apply umemAllocSizes, flags⟩, maxsize⟩ size := by
  obtain ⟨last, h⟩ := SizesOk.default.apply_all ops
  refine Iff.trans ⟨Routed.bin, Routed.of_bin⟩ ?_
  rw [recordedBin]
  by_cases hidx : allocIndex size < allocTableSize
  · obtain ⟨i, hi, hentry, hserves⟩ := umemCacheInit_serves h hinit hidx
    obtain ⟨c, hc⟩ := (h.aligned i (h.le_last hi hserves.1)).1
    have hle := hserves.1
    rw [hc] at hle
    simp only [umemAlign] at hle
    rw [if_pos hidx]
    apply sizeToBin_eq_binReal_iff hidx (c := c) (by omega)
    exact (congrArg (Caches.bufsizeOf _) hentry).trans hc
  · rw [if_neg hidx, sizeToBin_eq_neg_one_iff hidx, Agrees]
    simp only [hidx, false_imp_iff, and_true]

theorem size_routing_exact : ∃ table, umemCacheInit umemAllocSizes (fun _ => true) = some table ∧
    Routed ⟨table, ⟨umemAllocSizes, fun _ => 0⟩, 8192⟩ 192 := by
  obtain ⟨table, hinit, htable⟩ := exists_defaultTable
  refine ⟨table, hinit, (size_routing_iff [] _ table hinit _ _ _).mpr fun _ => ⟨by decide, ?_⟩⟩
  have hentry : table (allocIndex 192) = some 10 := htable 23 (by decide) 10 ⟨by decide, by decide⟩
  simp only [hentry]
  exact fun _ => .inl (by decide)

/-- A request of 176 bytes gets no bin, although its cache is the one of 192 bytes, whose bin is
recorded for it; a request of no bytes gets a bin that is filled from behind `umem_alloc_table`. -/
theorem size_routing_gap : ∃ table, umemCacheInit umemAllocSizes (fun _ => true) = some table ∧
    ¬Routed ⟨table, ⟨umemAllocSizes, fun _ => 0⟩, 8192⟩ 176 ∧
    ¬Routed ⟨table, ⟨umemAllocSizes, fun _ => 0⟩, 8192⟩ 0 := by
  obtain ⟨table, hinit, htable⟩ := exists_defaultTable
  have hplain : ∀ n, undebuggedBins table ⟨umemAllocSizes, fun _ => 0⟩ n = classBins ptcNbins :=
    undebuggedBins_of_plain _ fun _ => BitVec.zero_and
  refine ⟨table, hinit, fun h => ?_, fun h => ?_⟩
  · have hentry : table (allocIndex 176) = some 10 :=
      htable 21 (by decide) 10 ⟨by decide, by decide⟩
    have hbin := h.bin
    rw [umemPtcSizeToBin, recordedBin, umemPtcBinReal] at hbin
    simp only [hentry, sizeToBinTable, hplain] at hbin
    exact absurd hbin (by decide)
  · have hbin := h.bin
    rw [recordedBin, if_neg (by decide), umemPtcSizeToBin] at hbin
    simp only [sizeToBinTable, hplain] at hbin
    exact absurd hbin (by decide)

end Libumem.SizeClass
