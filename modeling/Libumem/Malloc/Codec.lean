import Libumem.Malloc.Tag

/-!
# The tags are a codec

Whatever `umem_malloc` and `umem_memalign` put in front of a buffer, `process_free` reads back: the
size that was asked for, the block that was obtained and the allocator it came from. The owner of a
buffer may write anything into it, so only the words in front of the pointer are known to be the
same when it is freed.
-/

namespace Libumem.Malloc
open Function List Arith Lib Vmem Pow2
section

theorem mallocDecode_encode (type sz : Half) : mallocDecode (mallocEncode type sz) sz = type :=
  BitVec.sub_add_cancel type sz

theorem size_of_halves (size : Word) :
    (lowSize size).setWidth 64+((highSize size).setWidth 64 <<< 32) = size := by
  apply BitVec.eq_of_toNat_eq
  have := size.isLt
  simp only [lowSize, highSize, BitVec.toNat_add, BitVec.toNat_shiftLeft, BitVec.toNat_setWidth,
    BitVec.toNat_ushiftRight, Nat.shiftLeft_eq, Nat.shiftRight_eq_div_pow]
  omega

theorem size_of_low {size : Word} (h : highSize size = 0) : (lowSize size).setWidth 64 = size := by
  have := size_of_halves size
  rw [h] at this
  simpa using this

variable {mem mem' : Mem} {buf : Word} {tag : MallocData}

theorem writeTag_of_ne {a : Word} (h : a ≠ buf) (h' : a ≠ buf+4) :
    writeTag mem buf tag a = mem a := by
  rw [writeTag, update_of_ne h', update_of_ne h]

theorem writeTag_changed {a : Word} (h : writeTag mem buf tag a ≠ mem a) : a = buf ∨ a = buf+4 := by
  by_contra hne
  rw [not_or] at hne
  exact h (writeTag_of_ne hne.1 hne.2)

theorem writeTags_changed {tag' : MallocData} {a : Word}
    (h : writeTag (writeTag mem buf tag) (buf+8) tag' a ≠ mem a) :
    a = buf ∨ a = buf+4 ∨ a = buf+8 ∨ a = buf+12 := by
  by_cases h' : writeTag (writeTag mem buf tag) (buf+8) tag' a = writeTag mem buf tag a
  · rw [h'] at h
    rcases writeTag_changed h with h | h
    · exact .inl h
    · exact .inr (.inl h)
  · rcases writeTag_changed h' with h | h
    · exact .inr (.inr (.inl h))
    · right; right; right
      rw [h]
      bv_omega

theorem readTag_writeTag : readTag (writeTag mem buf tag) buf = tag := by
  have hne : buf ≠ buf+4 := by bv_omega
  rw [readTag, writeTag, update_of_ne hne, update_self, update_self]

theorem readTag_congr (h : mem' buf = mem buf) (h' : mem' (buf+4) = mem (buf+4)) :
    readTag mem' buf = readTag mem buf := by
  rw [readTag, h, h', readTag]

theorem readTag_writeTag_next : readTag (writeTag mem (buf+8) tag) buf = readTag mem buf := by
  apply readTag_congr
  · apply writeTag_of_ne <;> bv_omega
  · apply writeTag_of_ne <;> bv_omega

end

section

/-- What `vmem_span_create` publishes: spans in address order, inside the hull. -/
structure HeapView.WellFormed (heap : HeapView) : Prop where
  sorted : heap.spans.Sorted
  hull : ∀ k < heap.spans.vmemSpanCnt, heap.current.lo ≤ (heap.spans.vmemSpanTab k).vseBase ∧
    (heap.spans.vmemSpanTab k).vseEnd ≤ heap.current.hi

/-- `[base, base + size)` lies in one heap span. -/
def HeapView.Holds (heap : HeapView) (base size : Word) : Prop :=
  ∃ k < heap.spans.vmemSpanCnt, (heap.spans.vmemSpanTab k).vseBase ≤ base ∧
    base.toNat + size.toNat ≤ (heap.spans.vmemSpanTab k).vseEnd.toNat

variable {heap : HeapView} {cache : SpanCache} {base size : Word}
section
variable {a n : Word} (hw : heap.WellFormed) (h : heap.Holds base size) (ha : a ≠ 0) (hn : n ≠ 0)
  (hlo : base ≤ a) (hhi : a.toNat + n.toNat ≤ base.toNat + size.toNat)
include hw h ha hn hlo hhi

theorem hullContains_part : hullContains heap.current a n = true := by
  obtain ⟨k, hk, hbase, hend⟩ := h
  obtain ⟨hl, hh⟩ := hw.hull k hk
  unfold hullContains
  dsimp only
  have hsum : (a+n).toNat = a.toNat+n.toNat := by bv_omega
  have hwrap : ¬ (a = 0 ∨ n = 0 ∨ a+n < a) := by
    rintro (h | h | h)
    · exact ha h
    · exact hn h
    · bv_omega
  rw [if_neg hwrap, Bool.and_eq_true, decide_eq_true_iff, decide_eq_true_iff]
  constructor
  · bv_omega
  · bv_omega

theorem mayRead_part : mayRead heap a n = true := by
  rw [mayRead, hullContains_part hw h ha hn hlo hhi, Bool.or_true]

end

theorem spanOwnsCached_of_holds (hw : heap.WellFormed) (h : heap.Holds base size)
    (hsize : size ≠ 0) : (spanOwnsCached heap cache base size).1 = true := by
  obtain ⟨k, hk, hbase, hend⟩ := h
  have hfind := vmemSpanFind_isSome hw.sorted hk hbase hsize hend
  unfold spanOwnsCached
  dsimp only
  split
  · rfl
  · cases hf : vmemSpanFind heap.spans base size with
    | none => simp [hf] at hfind
    | some span =>
      dsimp only
      split <;> rfl

theorem mayOwn_of_holds (hw : heap.WellFormed) (h : heap.Holds base size) (hbase : base ≠ 0)
    (hsize : size ≠ 0) : (mayOwn heap cache base size).1 = true := by
  have hcur := hullContains_part hw h hbase hsize (BitVec.le_refl base) (le_refl _)
  have hspan : ∀ cache, (spanOwnsCached heap cache base size).1 = true := fun cache =>
    spanOwnsCached_of_holds hw h hsize
  have hmay : ∀ cache, (umemMayOwn heap cache base size).1 = true := fun cache => by
    rw [umemMayOwn, hcur, if_neg (by simp), hspan]
  unfold mayOwn
  split
  · dsimp only
    rw [hspan, if_pos rfl]
  · exact hmay cache

end

/-- The four layouts: a pointer, the block in front of whose data it stands, and the size of the
data. The first eight bytes of the second layout may hold anything. -/
inductive Tagged (mem : Mem) : Word → Obtained → Word → Prop
  | malloc {base size : Word} (least : tagSize ≤ size) (high : highSize size = 0)
      (tag : readTag mem base = tagOf mallocMagic (lowSize size)) :
      Tagged mem (base + 8) ⟨.umem, base, size⟩ (size - tagSize)
  | second {base size : Word} (least : 2 * tagSize ≤ size) (high : highSize size = 0)
      (tag : readTag mem (base + 8) = tagOf mallocSecondMagic (lowSize size)) :
      Tagged mem (base + 16) ⟨.umem, base, size⟩ (size - 2 * tagSize)
  | oversize {base size : Word} (least : 2 * tagSize ≤ size)
      (tag : readTag mem (base + 8) = tagOf mallocOversizeMagic (lowSize size))
      (upper : readTag mem base = tagOf mallocMagic (highSize size)) :
      Tagged mem (base + 16) ⟨.umem, base, size⟩ (size - 2 * tagSize)
  | memalign {base size : Word} (least : 2 * tagSize ≤ size)
      (tag : readTag mem (base + 8) = tagOf memalignMagic (lowSize size))
      (upper : readTag mem base = tagOf memalignMagic (highSize size)) :
      Tagged mem (base + 16) ⟨.memalignArena, base, size⟩ (size - 2 * tagSize)

section
variable {heap : HeapView} {cache : SpanCache} {mem mem' : Mem} {ptr dataSize ret size : Word}
  {block : Obtained}

theorem magics_distinct : [mallocMagic, mallocSecondMagic, mallocOversizeMagic,
    memalignMagic].Nodup := by
  decide

theorem mayRead_second (hw : heap.WellFormed) {base size : Word} (hh : heap.Holds base size)
    (least : 2 * tagSize ≤ size) : mayRead heap (base+16-tagSize) tagSize = true := by
  obtain ⟨k, hk, hlo, hhi⟩ := hh
  have hend := (heap.spans.vmemSpanTab k).vseEnd.isLt
  have hsum : (base+16-tagSize).toNat = base.toNat+8 := by
    simp only [tagSize] at least ⊢
    bv_omega
  apply mayRead_part hw ⟨k, hk, hlo, hhi⟩ _ (by decide)
  · bv_omega
  · simp only [tagSize] at least hsum ⊢
    bv_omega
  · intro hz
    rw [hz] at hsum
    simp at hsum

theorem decodeTwoTags_tagged (hw : heap.WellFormed) {base size : Word} {type : Half}
    {memalign : Bool} (hh : heap.Holds base size) (hbase : base ≠ 0) (least : 2 * tagSize ≤ size)
    (upper : readTag mem base = tagOf type (highSize size)) :
    decodeTwoTags heap mem (base+8) ((lowSize size).setWidth 64) type memalign =
      .ok ⟨base, size, 2 * tagSize, size-2 * tagSize, base, 2, memalign⟩ := by
  have hbuf : base+8-tagSize = base := by
    rw [tagSize]
    bv_omega
  have hread : mayRead heap base tagSize = true := by
    apply mayRead_part hw hh hbase (by decide) (BitVec.le_refl base)
    simp only [tagSize] at least ⊢
    bv_omega
  unfold decodeTwoTags
  dsimp only
  rw [hbuf, hread, if_neg (by simp), upper]
  simp only [tagOf, mallocDecode_encode, ne_eq, not_true_eq_false, if_false, size_of_halves]

/-- Each layout is decoded as itself, with the block and the data size it stands for. -/
theorem decodeTags_tagged (hw : heap.WellFormed) (hh : heap.Holds block.base block.size)
    (hbase : block.base ≠ 0) (ht : Tagged mem ptr block dataSize) :
    ∃ c, decodeTags heap mem ptr = .ok c ∧ c.block = block ∧ c.base = block.base ∧
      c.size = block.size ∧ c.dataSize = dataSize ∧ ¬ c.size < c.overheadMin := by
  have hd := magics_distinct
  simp only [nodup_cons, mem_cons, not_or, not_mem_nil, or_false] at hd
  cases ht with
  | @malloc base size least high tag =>
    have hbuf : base+8-tagSize = base := by
      rw [tagSize]
      bv_omega
    have hread : mayRead heap base tagSize = true := by
      apply mayRead_part hw hh hbase (by decide) (BitVec.le_refl base)
      simp only at *
      bv_omega
    refine ⟨⟨base, size, tagSize, size-tagSize, base, 1, false⟩, ?_, rfl, rfl, rfl, rfl, ?_⟩
    · unfold decodeTags
      dsimp only
      rw [hbuf, hread, if_neg (by simp), tag]
      simp only [tagOf, mallocDecode_encode, if_true, size_of_low high]
    · bv_omega
  | @second base size least high tag =>
    have hbuf : base+16-tagSize = base+8 := by
      rw [tagSize]
      bv_omega
    have hbase' : base+8-tagSize = base := by
      rw [tagSize]
      bv_omega
    have hread := mayRead_second hw hh least
    refine ⟨⟨base, size, 2 * tagSize, size-2 * tagSize, base+8, 1, false⟩, ?_, rfl, rfl, rfl, rfl,
      ?_⟩
    · unfold decodeTags
      dsimp only
      rw [hread, if_neg (by simp), hbuf, tag]
      simp only [tagOf, mallocDecode_encode, size_of_low high, hbase']
      rw [if_neg (Ne.symm hd.1.1), if_pos trivial]
    · bv_omega
  | @oversize base size least tag upper =>
    have hbuf : base+16-tagSize = base+8 := by
      rw [tagSize]
      bv_omega
    have hread := mayRead_second hw hh least
    refine ⟨⟨base, size, 2 * tagSize, size-2 * tagSize, base, 2, false⟩, ?_, rfl, rfl, rfl, rfl, ?_⟩
    · unfold decodeTags
      dsimp only
      rw [hread, if_neg (by simp), hbuf, tag]
      simp only [tagOf, mallocDecode_encode]
      rw [if_neg (Ne.symm hd.1.2.1), if_neg (Ne.symm hd.2.1.1), if_pos trivial,
        decodeTwoTags_tagged hw hh hbase least upper]
    · bv_omega
  | @memalign base size least tag upper =>
    have hbuf : base+16-tagSize = base+8 := by
      rw [tagSize]
      bv_omega
    have hread := mayRead_second hw hh least
    refine ⟨⟨base, size, 2 * tagSize, size-2 * tagSize, base, 2, true⟩, ?_, rfl, rfl, rfl, rfl, ?_⟩
    · unfold decodeTags
      dsimp only
      rw [hread, if_neg (by simp), hbuf, tag]
      simp only [tagOf, mallocDecode_encode]
      rw [if_neg (Ne.symm hd.1.2.2), if_neg (Ne.symm hd.2.1.2), if_neg (Ne.symm hd.2.2.1),
        if_pos trivial, decodeTwoTags_tagged hw hh hbase least upper]
    · bv_omega

theorem Tagged.size_ne (ht : Tagged mem ptr block dataSize) : block.size ≠ 0 := by
  cases ht with
  | malloc least _ _ | second least _ _ | oversize least _ _ | memalign least _ _ =>
    simp only [tagSize] at least ⊢; bv_omega

theorem acceptTags_tagged (cache : SpanCache) (hw : heap.WellFormed)
    (hh : heap.Holds block.base block.size)
    (hbase : block.base ≠ 0) (ht : Tagged mem ptr block dataSize) :
    ∃ c, (acceptTags heap cache mem ptr).1 = .ok c ∧ c.block = block ∧ c.dataSize = dataSize := by
  obtain ⟨c, hdec, hblock, hcb, hcs, hdata, hleast⟩ := decodeTags_tagged hw hh hbase ht
  refine ⟨c, ?_, hblock, hdata⟩
  have hown : (mayOwn heap cache c.base c.size).1 = true := by
    rw [hcb, hcs]
    exact mayOwn_of_holds hw hh hbase ht.size_ne
  unfold acceptTags
  rw [hdec]
  dsimp only
  rw [if_neg hleast, hown, if_pos rfl]

theorem processFreeUmem_tagged (hw : heap.WellFormed) (hh : heap.Holds block.base block.size)
    (hbase : block.base ≠ 0) (ht : Tagged mem ptr block dataSize) (doFree : Bool) :
    (processFreeUmem heap cache mem ptr doFree).1 =
      if doFree then .freed block else .dataSize dataSize := by
  obtain ⟨c, hacc, rfl, rfl⟩ := acceptTags_tagged cache hw hh hbase ht
  unfold processFreeUmem
  split
  · rename_i hpair
    rw [hpair] at hacc
    simp at hacc
  · rename_i c' cache' hpair
    rw [hpair] at hacc
    cases hacc
    cases doFree <;> rfl

theorem mallocFreeFast_tagged (ht : Tagged mem ptr block dataSize) {got : Obtained × Mem}
    (h : (mallocFreeFast heap cache mem ptr).1 = some got) : got.1 = block := by
  have hd := magics_distinct
  simp only [nodup_cons, mem_cons, not_or, not_mem_nil, or_false] at hd
  have hsub : ∀ base : Word, base+16-tagSize = base+8 ∧ base+8-tagSize = base := by
    intro base
    rw [tagSize]
    constructor <;> bv_omega
  unfold mallocFreeFast at h
  dsimp only at h
  split at h
  · simp at h
  cases ht with
  | @malloc base size least high tag =>
    rw [(hsub base).2, tag] at h
    simp only [tagOf, mallocDecode_encode, size_of_low high, true_or, if_true] at h
    split at h
    · simp at h
    split at h
    · simp at h
    split at h
    · cases h
      rfl
    · simp at h
  | @second base size least high tag =>
    rw [(hsub base).1, tag] at h
    simp only [tagOf, mallocDecode_encode, size_of_low high, or_true, if_true, (hsub base).2] at h
    rw [if_neg (Ne.symm hd.1.1), if_neg (Ne.symm hd.1.1)] at h
    split at h
    · simp at h
    split at h
    · simp at h
    split at h
    · cases h
      rfl
    · simp at h
  | @oversize base size least tag upper =>
    rw [(hsub base).1, tag] at h
    simp only [tagOf, mallocDecode_encode] at h
    rw [if_neg (by simp [Ne.symm hd.1.2.1, Ne.symm hd.2.1.1])] at h
    simp at h
  | @memalign base size least tag upper =>
    rw [(hsub base).1, tag] at h
    simp only [tagOf, mallocDecode_encode] at h
    rw [if_neg (by simp [Ne.symm hd.1.2.2, Ne.symm hd.2.1.2])] at h
    simp at h

theorem umemMallocFree_tagged (hw : heap.WellFormed) {s : State}
    (hh : heap.Holds block.base block.size) (hbase : block.base ≠ 0) (hptr : ptr ≠ 0)
    (hboot : bootstrapPointerP s.boot ptr = false) (ht : Tagged s.mem ptr block dataSize) :
    (umemMallocFree heap cache s ptr).1 = .freed block := by
  unfold umemMallocFree
  rw [if_neg hptr, hboot, if_neg (by simp)]
  split
  · rename_i got mem cache' hpair
    have hfast : (mallocFreeFast heap cache s.mem ptr).1 = some (got, mem) := by rw [hpair]
    rw [← mallocFreeFast_tagged ht hfast]
  · exact processFreeUmem_tagged hw hh hbase ht true

theorem Tagged.congr {ptr dataSize : Word} {block : Obtained} (ht : Tagged mem ptr block dataSize)
    (hbound : block.base.toNat+block.size.toNat < 2^64)
    (hmem : ∀ a : Word, block.base ≤ a → a < ptr → mem' a = mem a) :
    Tagged mem' ptr block dataSize := by
  cases ht with
  | @malloc base size least high tag =>
    simp only [tagSize] at least hbound hmem
    refine .malloc least high ?_
    rw [← tag]
    apply readTag_congr <;> apply hmem <;> bv_omega
  | @second base size least high tag =>
    simp only [tagSize] at least hbound hmem
    refine .second least high ?_
    rw [← tag]
    apply readTag_congr <;> apply hmem <;> bv_omega
  | @oversize base size least tag upper =>
    simp only [tagSize] at least hbound hmem
    refine .oversize least ?_ ?_
    · rw [← tag]
      apply readTag_congr <;> apply hmem <;> bv_omega
    · rw [← upper]
      apply readTag_congr <;> apply hmem <;> bv_omega
  | @memalign base size least tag upper =>
    simp only [tagSize] at least hbound hmem
    refine .memalign least ?_ ?_
    · rw [← tag]
      apply readTag_congr <;> apply hmem <;> bv_omega
    · rw [← upper]
      apply readTag_congr <;> apply hmem <;> bv_omega

theorem mallocTaggedSize_cases {sizeArg : Word} (hover : ¬ mallocTaggedSize sizeArg < sizeArg) :
    (sizeArg.toNat ≤ 8 ∧ (mallocTaggedSize sizeArg).toNat = sizeArg.toNat+8) ∨
      (8 < sizeArg.toNat ∧ (mallocTaggedSize sizeArg).toNat = sizeArg.toNat+16) := by
  unfold mallocTaggedSize at hover ⊢
  dsimp only at hover ⊢
  by_cases hbig : umemSecondAlign < sizeArg+tagSize
  · rw [if_pos hbig] at hover ⊢
    simp only [umemSecondAlign, tagSize] at hbig hover ⊢
    bv_omega
  · rw [if_neg hbig] at hover ⊢
    simp only [umemSecondAlign, tagSize] at hbig hover ⊢
    bv_omega

theorem mallocTaggedSize_lt_iff {sizeArg : Word} :
    mallocTaggedSize sizeArg < sizeArg ↔ 2^64 ≤ sizeArg.toNat+16 := by
  unfold mallocTaggedSize
  dsimp only
  by_cases hbig : umemSecondAlign < sizeArg+tagSize
  · rw [if_pos hbig]
    simp only [umemSecondAlign, tagSize] at hbig ⊢
    bv_omega
  · rw [if_neg hbig]
    simp only [umemSecondAlign, tagSize] at hbig ⊢
    bv_omega

theorem highSize_of_small (h : size.toNat < 2^32) : highSize size = 0 := by
  apply BitVec.eq_of_toNat_eq
  simp only [highSize, BitVec.toNat_setWidth, BitVec.toNat_ushiftRight, Nat.shiftRight_eq_div_pow]
  rw [Nat.div_eq_of_lt h]
  rfl

theorem mallocTags_tagged {sizeArg : Word} (hsize : size = mallocTaggedSize sizeArg)
    (hover : ¬ size < sizeArg) :
    Tagged (mallocTags mem ret size).2 (mallocTags mem ret size).1 ⟨.umem, ret, size⟩ sizeArg := by
  subst hsize
  generalize hsize : mallocTaggedSize sizeArg = size at *
  have hcases := mallocTaggedSize_cases (hsize ▸ hover)
  rw [hsize] at hcases
  rcases hcases with ⟨hle, heq⟩ | ⟨hgt, heq⟩
  · have hdata : sizeArg = size-tagSize := by
      rw [tagSize]
      bv_omega
    have hnot : ¬ umemSecondAlign < size := by
      rw [umemSecondAlign]
      bv_omega
    have hhigh : highSize size = 0 := highSize_of_small (by omega)
    rw [mallocTags, if_neg (fun h => hnot h.1), if_neg hnot, hdata]
    refine .malloc ?_ hhigh readTag_writeTag
    rw [tagSize]
    bv_omega
  · have hdata : sizeArg = size-2 * tagSize := by
      rw [tagSize]
      bv_omega
    have hbig : umemSecondAlign < size := by
      rw [umemSecondAlign]
      bv_omega
    have least : 2 * tagSize ≤ size := by
      rw [tagSize]
      bv_omega
    by_cases hhigh : highSize size = 0
    · rw [mallocTags, if_neg (fun h => h.2 hhigh), if_pos hbig, hdata]
      exact .second least hhigh readTag_writeTag
    · rw [mallocTags, if_pos ⟨hbig, hhigh⟩, hdata]
      refine .oversize least readTag_writeTag ?_
      rw [readTag_writeTag_next, readTag_writeTag]

theorem memalignTags_tagged {sizeArg : Word} (hsize : size = sizeArg+2 * tagSize)
    (hover : ¬ size < sizeArg) :
    Tagged (memalignTags mem ret size).2 (memalignTags mem ret size).1
      ⟨.memalignArena, ret, size⟩ sizeArg := by
  have hdata : sizeArg = size-2 * tagSize := by
    rw [hsize, BitVec.add_sub_cancel]
  have least : 2 * tagSize ≤ size := by
    simp only [tagSize] at hsize ⊢
    bv_omega
  rw [memalignTags]
  dsimp only
  rw [hdata]
  refine .memalign least readTag_writeTag ?_
  rw [readTag_writeTag_next, readTag_writeTag]

end

/-- What the allocators promise: a block that does not run over the end of the address space, with
the alignment that was asked for, or the one that all blocks of its size have. -/
structure Allocators.Contract (env : Allocators) : Prop where
  umemAlloc : ∀ size b, env.umemAlloc size = some b → b ≠ 0 ∧ b.toNat + size.toNat < 2 ^ 64 ∧
    8 ∣ b.toNat ∧ (16 ≤ size.toNat → 16 ∣ b.toNat)
  vmemXalloc : ∀ size align phase b, IsPow2 align → env.vmemXalloc size align phase = some b →
    b ≠ 0 ∧ b.toNat + size.toNat < 2 ^ 64 ∧ b.toNat % align.toNat = phase.toNat % align.toNat
  mmap : ∀ size b, env.mmap size = some b → b ≠ 0 ∧ b.toNat + size.toNat < 2 ^ 64 ∧
    4096 ∣ b.toNat

/-- The mapping of a bootstrap pointer has no byte of `[base, base + size)`. -/
def Unmapped (boot : Bootstrap) (base size : Word) : Prop :=
  ∀ e ∈ boot.ptrs.entries, (e.1 - bootstrapHeader).toNat + e.2.toNat ≤ base.toNat ∨
    base.toNat + size.toNat ≤ (e.1 - bootstrapHeader).toNat

/-- A later state in which the buffer `r` has not been freed: the words in front of it are as they
were left, and its block still lies in a heap span, or is still registered. -/
structure Kept (r : Returned) (heap : HeapView) (s : State) : Prop where
  view : heap.WellFormed
  registry : s.boot.WellFormed
  words : ∀ a : Word, r.got.base ≤ a → a < r.ptr → s.mem a = r.state.mem a
  home : if r.got.origin = .bootstrap then s.boot.ptrs.find r.ptr = some r.got.size
    else heap.Holds r.got.base r.got.size ∧ Unmapped s.boot r.got.base r.got.size

/-- What holds of a buffer of `sizeArg` bytes that was allocated from the state `s`. -/
structure Codec (s : State) (r : Returned) (sizeArg : Word) : Prop where
  /-- The buffer lies in the block. -/
  inside : r.ptr.toNat + sizeArg.toNat ≤ r.got.base.toNat + r.got.size.toNat
  /-- The tags lie in the block, in front of the buffer. -/
  tags : ∀ a, r.state.mem a ≠ s.mem a → r.got.base ≤ a ∧ a < r.ptr
  reports : ∀ heap cache s', Kept r heap s' →
    (processFree heap cache s' r.ptr false).1 = .dataSize sizeArg
  frees : ∀ heap cache s', Kept r heap s' → (umemMallocFree heap cache s' r.ptr).1 = .freed r.got

section
variable {env : Allocators} {s : State} {sizeArg align : Word} {r : Returned}

theorem not_bootstrap_of_unmapped {boot : Bootstrap} (hw : boot.WellFormed) {base size ptr : Word}
    (hu : Unmapped boot base size) (hlo : base.toNat+8 ≤ ptr.toNat)
    (hhi : ptr.toNat ≤ base.toNat+16) (hsize : 8 ≤ size.toNat) :
    bootstrapPointerP boot ptr = false := by
  rw [hw.pointerP_iff]
  cases hf : boot.ptrs.find ptr with
  | none => rfl
  | some total =>
    have hmem := (Slots.find_eq_some hw.distinct).mp hf
    obtain ⟨hshape, -, hleast⟩ := hw.shape _ hmem
    have hge : 16 ≤ ptr.toNat := by
      have hle : (ptr &&& 4095).toNat ≤ ptr.toNat := by
        rw [BitVec.toNat_and]
        exact Nat.and_le_left
      rw [hshape] at hle
      simpa [bootstrapHeader] using hle
    have hap := hu _ hmem
    simp only [bootstrapHeader] at hap hleast
    bv_omega

theorem Tagged.place {mem : Mem} {ptr : Word} {block : Obtained} {dataSize : Word}
    (ht : Tagged mem ptr block dataSize) (hbound : block.base.toNat+block.size.toNat < 2^64) :
    block.base.toNat+8 ≤ ptr.toNat ∧ ptr.toNat ≤ block.base.toNat+16 ∧ 8 ≤ block.size.toNat ∧
      ptr.toNat+dataSize.toNat = block.base.toNat+block.size.toNat := by
  cases ht with
  | malloc least _ _ | second least _ _ | oversize least _ _ | memalign least _ _ =>
    simp only [tagSize] at least hbound ⊢
    bv_omega

theorem codec_of_tagged {got : Obtained} {mem : Mem} {ptr : Word}
    (ht : Tagged mem ptr got sizeArg) (hbase : got.base ≠ 0)
    (hbound : got.base.toNat+got.size.toNat < 2^64)
    (htags : ∀ a, mem a ≠ s.mem a → got.base ≤ a ∧ a < ptr) :
    Codec s ⟨ptr, got, { s with mem := mem }⟩ sizeArg := by
  have horigin : got.origin ≠ .bootstrap := by
    cases ht <;> simp
  obtain ⟨hlo, hhi, hsize, hend⟩ := ht.place hbound
  have hptr : ptr ≠ 0 := by
    rintro rfl
    simp at hlo
  have hlater : ∀ heap s', Kept ⟨ptr, got, { s with mem := mem }⟩ heap s' →
      heap.Holds got.base got.size ∧ bootstrapPointerP s'.boot ptr = false ∧
        Tagged s'.mem ptr got sizeArg := by
    intro heap s' hk
    have hhome := hk.home
    rw [if_neg horigin] at hhome
    exact ⟨hhome.1, not_bootstrap_of_unmapped hk.registry hhome.2 hlo hhi hsize,
      ht.congr hbound hk.words⟩
  refine ⟨hend.le, htags, ?_, ?_⟩
  · intro heap cache s' hk
    obtain ⟨hh, hb, ht'⟩ := hlater heap s' hk
    unfold processFree
    rw [if_neg (by simp [hb])]
    exact processFreeUmem_tagged hk.view hh hbase ht' false
  · intro heap cache s' hk
    obtain ⟨hh, hb, ht'⟩ := hlater heap s' hk
    exact umemMallocFree_tagged hk.view hh hbase hptr hb ht'

theorem bootstrapMalloc_eq_some {boot boot' : Bootstrap} {mmap : Word → Option Word}
    {size buf total : Word} (h : bootstrapMalloc boot mmap size = some (buf, total, boot')) :
    ∃ hdr, mmap (size+bootstrapHeader) = some hdr ∧ buf = hdr+bootstrapHeader ∧
      total = size+bootstrapHeader ∧ size.toNat+16 < 2^64 := by
  obtain ⟨hover, h⟩ := Option.ite_none_left_eq_some.mp h
  simp only [Option.bind_eq_bind, Option.bind_eq_some_iff, Option.pure_def, Option.some.injEq,
    Prod.mk.injEq] at h
  obtain ⟨hdr, hmap, boot', -, rfl, rfl, -⟩ := h
  refine ⟨hdr, hmap, rfl, rfl, ?_⟩
  have hall : (BitVec.allOnes 64).toNat = 2^64-1 := BitVec.toNat_allOnes
  simp only [bootstrapHeader] at hover
  bv_omega

/-- A bootstrap pointer is 16 bytes behind its mapping, and its header holds the size. -/
theorem bootstrapAlloc_codec (henv : env.Contract) (h : bootstrapAlloc env s sizeArg = .ok r) :
    Codec s r sizeArg ∧ 16 ∣ r.ptr.toNat := by
  unfold bootstrapAlloc at h
  split at h
  · split_ifs at h
  rename_i buf total boot hm
  cases h
  obtain ⟨hdr, hmap, rfl, rfl, hover⟩ := bootstrapMalloc_eq_some hm
  obtain ⟨hne, hbound, hpage⟩ := henv.mmap _ _ hmap
  have hsub : hdr+bootstrapHeader-bootstrapHeader = hdr := BitVec.add_sub_cancel _ _
  have htotal : (sizeArg+bootstrapHeader).toNat = sizeArg.toNat+16 := by
    rw [bootstrapHeader]
    bv_omega
  have hptr : (hdr+bootstrapHeader).toNat = hdr.toNat+16 := by
    simp only [bootstrapHeader] at htotal ⊢
    bv_omega
  have hptr0 : hdr+bootstrapHeader ≠ 0 := by
    intro hz
    rw [hz] at hptr
    simp at hptr
  rw [hsub]
  -- a registered pointer is recognised, and its header is the one that was written
  have hlater : ∀ {heap : HeapView} {s' : State} {mem : Mem} {boot' : Bootstrap},
      Kept ⟨hdr+bootstrapHeader, ⟨.bootstrap, hdr, sizeArg+bootstrapHeader⟩,
        { s with mem := mem, boot := boot' }⟩ heap s' →
      s'.boot.ptrs.find (hdr+bootstrapHeader) = some (sizeArg+bootstrapHeader) ∧
        bootstrapPointerP s'.boot (hdr+bootstrapHeader) = true := by
    intro heap s' mem boot' hk
    have hfind := hk.home
    rw [if_pos rfl] at hfind
    refine ⟨hfind, ?_⟩
    rw [hk.registry.pointerP_iff, hfind]
    rfl
  refine ⟨⟨?_, ?_, ?_, ?_⟩, ?_⟩
  · simp only [hptr, htotal]
    omega
  · intro a ha
    simp only [bootstrapHeader] at hptr htotal ⊢
    rcases writeTags_changed ha with h | h | h | h <;> bv_omega
  · intro heap cache s' hk
    obtain ⟨-, hp⟩ := hlater hk
    unfold processFree
    rw [if_pos ⟨hptr0, hp⟩]
    have hat : hdr+bootstrapHeader-8 = hdr+8 := by
      rw [bootstrapHeader]
      bv_omega
    have hread : readTag s'.mem (hdr+8) =
        ⟨lowSize (sizeArg+bootstrapHeader), highSize (sizeArg+bootstrapHeader)⟩ := by
      simp only [bootstrapHeader] at hptr
      have hwritten : readTag (writeTag (writeTag s.mem hdr ⟨0xB007B007, 0xB007B007⟩) (hdr+8)
          ⟨lowSize (sizeArg+bootstrapHeader), highSize (sizeArg+bootstrapHeader)⟩) (hdr+8) =
          ⟨lowSize (sizeArg+bootstrapHeader), highSize (sizeArg+bootstrapHeader)⟩ :=
        readTag_writeTag
      rw [← hwritten]
      apply readTag_congr
      · apply hk.words
        · change hdr ≤ hdr+8
          bv_omega
        · change hdr+8 < hdr+bootstrapHeader
          rw [bootstrapHeader]
          bv_omega
      · apply hk.words
        · change hdr ≤ hdr+8+4
          bv_omega
        · change hdr+8+4 < hdr+bootstrapHeader
          rw [bootstrapHeader]
          bv_omega
    rw [bootstrapHeaderSize, hat, hread]
    dsimp only
    rw [size_of_halves, BitVec.add_sub_cancel]
  · intro heap cache s' hk
    obtain ⟨hfind, hp⟩ := hlater hk
    unfold umemMallocFree
    rw [if_neg hptr0, if_pos hp, bootstrapFree, hfind]
    dsimp only
    rw [hsub]
  · rw [hptr]
    omega

theorem mallocTags_changed {mem : Mem} {ret size a : Word} (hsize : 8 ≤ size.toNat)
    (hbound : ret.toNat+size.toNat < 2^64) (h : (mallocTags mem ret size).2 a ≠ mem a) :
    ret ≤ a ∧ a < (mallocTags mem ret size).1 := by
  unfold mallocTags at h ⊢
  split at h
  · rename_i hbig
    rw [if_pos hbig]
    have hbig' := hbig.1
    simp only [umemSecondAlign] at hbig'
    rcases writeTags_changed h with h | h | h | h <;> bv_omega
  · rename_i hbig
    rw [if_neg hbig]
    split at h
    · rename_i hbig'
      rw [if_pos hbig']
      simp only [umemSecondAlign] at hbig'
      rcases writeTag_changed h with h | h <;> bv_omega
    · rename_i hsmall
      rw [if_neg hsmall]
      rcases writeTag_changed h with h | h <;> bv_omega

theorem mallocTags_fst {mem : Mem} {ret size : Word} :
    (mallocTags mem ret size).1 = if umemSecondAlign < size then ret+16 else ret+8 := by
  unfold mallocTags
  by_cases hbig : umemSecondAlign < size
  · rw [if_pos hbig, if_pos hbig]
    split <;> rfl
  · rw [if_neg hbig, if_neg hbig, if_neg (fun h => hbig h.1)]

theorem umemMalloc_eq_ok (h : umemMalloc env s sizeArg = .ok r) :
    bootstrapAlloc env s sizeArg = .ok r ∨
      ∃ ret, ¬ mallocTaggedSize sizeArg < sizeArg ∧
        env.umemAlloc (mallocTaggedSize sizeArg) = some ret ∧
        r = ⟨(mallocTags s.mem ret (mallocTaggedSize sizeArg)).1,
          ⟨.umem, ret, mallocTaggedSize sizeArg⟩,
          { s with mem := (mallocTags s.mem ret (mallocTaggedSize sizeArg)).2 }⟩ := by
  unfold umemMalloc at h
  split at h
  · exact .inl h
  split at h
  · exact .inl h
  dsimp only at h
  split at h
  · simp at h
  rename_i hover
  split at h
  · simp at h
  rename_i ret halloc
  exact .inr ⟨ret, hover, halloc, (Except.ok.inj h).symm⟩

theorem umemMemalign_eq_ok (h : umemMemalign env s align sizeArg = .ok r) :
    IsPow2 align ∧
      ((align ≤ umemAlign ∨ (align ≤ umemSecondAlign ∧ umemSecondAlign ≤ sizeArg)) ∧
        umemMalloc env s sizeArg = .ok r ∨
      ¬ align ≤ umemAlign ∧ ∃ buf, ¬ sizeArg+2 * tagSize < sizeArg ∧
        env.vmemXalloc (sizeArg+2 * tagSize) align (align-2 * tagSize) = some buf ∧
        r = ⟨(memalignTags s.mem buf (sizeArg+2 * tagSize)).1,
          ⟨.memalignArena, buf, sizeArg+2 * tagSize⟩,
          { s with mem := (memalignTags s.mem buf (sizeArg+2 * tagSize)).2 }⟩) := by
  unfold umemMemalign at h
  split at h
  · simp at h
  rename_i hargs
  simp only [not_or, not_not] at hargs
  obtain ⟨-, halign0, hmask⟩ := hargs
  refine ⟨isPow2_of_isP2 halign0 hmask, ?_⟩
  split at h
  · rename_i hsmall
    exact .inl ⟨hsmall, h⟩
  rename_i hlarge
  dsimp only at h
  split at h
  · simp at h
  split at h
  · simp at h
  rename_i hover
  split at h
  · simp at h
  rename_i buf halloc
  exact .inr ⟨fun hle => hlarge (.inl hle), buf, hover, halloc, (Except.ok.inj h).symm⟩

theorem umemMalloc_codec (henv : env.Contract) (h : umemMalloc env s sizeArg = .ok r) :
    Codec s r sizeArg ∧ 8 ∣ r.ptr.toNat ∧ (8 < sizeArg.toNat → 16 ∣ r.ptr.toNat) := by
  rcases umemMalloc_eq_ok h with hboot | ⟨ret, hover, halloc, rfl⟩
  · obtain ⟨hc, hd⟩ := bootstrapAlloc_codec henv hboot
    exact ⟨hc, Dvd.dvd.trans (by decide) hd, fun _ => hd⟩
  obtain ⟨hne, hbound, h8, h16⟩ := henv.umemAlloc _ _ halloc
  have hcases := mallocTaggedSize_cases hover
  have hleast : 8 ≤ (mallocTaggedSize sizeArg).toNat := by omega
  refine ⟨?_, ?_⟩
  · exact codec_of_tagged (mallocTags_tagged rfl hover) hne hbound
      fun a ha => mallocTags_changed hleast hbound ha
  · dsimp only
    rw [mallocTags_fst]
    split
    · rename_i hbig
      simp only [umemSecondAlign] at hbig
      have h16 := h16 (by bv_omega)
      have hend : (ret+16).toNat = ret.toNat+16 := by bv_omega
      rw [hend]
      omega
    · rename_i hsmall
      simp only [umemSecondAlign] at hsmall
      have hend : (ret+8).toNat = ret.toNat+8 := by bv_omega
      have hle : (mallocTaggedSize sizeArg).toNat ≤ 16 := by bv_omega
      rw [hend]
      omega

theorem memalignTags_changed {mem : Mem} {ret size a : Word}
    (hbound : ret.toNat+16 < 2^64) (h : (memalignTags mem ret size).2 a ≠ mem a) :
    ret ≤ a ∧ a < (memalignTags mem ret size).1 := by
  rw [memalignTags] at h ⊢
  rcases writeTags_changed h with h | h | h | h <;> bv_omega

theorem aligned_of_phase {buf align : Word} (hbig : 16 ≤ align.toNat)
    (hphase : buf.toNat % align.toNat = (align-2 * tagSize).toNat % align.toNat) :
    align.toNat ∣ buf.toNat+16 := by
  have hsub : (align-2 * tagSize).toNat = align.toNat-16 := by
    rw [tagSize]
    bv_omega
  rw [hsub] at hphase
  apply Nat.dvd_of_mod_eq_zero
  calc (buf.toNat+16) % align.toNat
      = (align.toNat-16+16) % align.toNat := Nat.ModEq.add_right 16 hphase
    _ = 0 := by rw [Nat.sub_add_cancel hbig, Nat.mod_self]

theorem umemMemalign_codec (henv : env.Contract) (h : umemMemalign env s align sizeArg = .ok r) :
    Codec s r sizeArg ∧ align.toNat ∣ r.ptr.toNat := by
  obtain ⟨hpow, ⟨hsmall, hmalloc⟩ | ⟨hlarge, buf, hover, halloc, rfl⟩⟩ := umemMemalign_eq_ok h
  · obtain ⟨hc, h8, h16⟩ := umemMalloc_codec henv hmalloc
    refine ⟨hc, ?_⟩
    rcases hsmall with hle | ⟨hle, hsize⟩
    · exact (hpow.dvd_of_le (q := 8) ⟨3, by decide, rfl⟩ hle).trans h8
    · simp only [umemSecondAlign] at hsize
      exact (hpow.dvd_of_le (q := 16) ⟨4, by decide, rfl⟩ hle).trans (h16 (by bv_omega))
  have hbig : 16 ≤ align.toNat := by
    have h8 : ¬ align ≤ 8 := hlarge
    have : (8 : Word).toNat ∣ align.toNat :=
      IsPow2.dvd_of_le ⟨3, by decide, rfl⟩ hpow (by bv_omega)
    have h8' : (8 : Word).toNat = 8 := rfl
    rw [h8'] at this
    bv_omega
  obtain ⟨hne, hbound, hphase⟩ := henv.vmemXalloc _ _ _ _ hpow halloc
  have hroom : buf.toNat+16 < 2^64 := by
    simp only [tagSize] at hover hbound
    bv_omega
  refine ⟨?_, ?_⟩
  · exact codec_of_tagged (memalignTags_tagged rfl hover) hne hbound
      fun a ha => memalignTags_changed hroom ha
  · have hptr : (memalignTags s.mem buf (sizeArg+2 * tagSize)).1.toNat = buf.toNat+16 := by
      rw [memalignTags]
      bv_omega
    rw [hptr]
    exact aligned_of_phase hbig hphase

theorem allocated_tagged (henv : env.Contract)
    (h : umemMalloc env s sizeArg = .ok r ∨ ∃ align, umemMemalign env s align sizeArg = .ok r)
    (horigin : r.got.origin ≠ .bootstrap) :
    Tagged r.state.mem r.ptr r.got sizeArg ∧ r.got.base ≠ 0 ∧
      r.got.base.toNat+r.got.size.toNat < 2^64 ∧
      (umemSecondAlign < r.got.size → r.ptr = r.got.base+16) := by
  have hmalloc : ∀ r, umemMalloc env s sizeArg = .ok r → r.got.origin ≠ .bootstrap →
      Tagged r.state.mem r.ptr r.got sizeArg ∧ r.got.base ≠ 0 ∧
        r.got.base.toNat+r.got.size.toNat < 2^64 ∧
        (umemSecondAlign < r.got.size → r.ptr = r.got.base+16) := by
    intro r h horigin
    rcases umemMalloc_eq_ok h with hboot | ⟨ret, hover, halloc, rfl⟩
    · exfalso
      unfold bootstrapAlloc at hboot
      split at hboot
      · split_ifs at hboot
      · cases hboot
        exact horigin rfl
    · obtain ⟨hne, hbound, -, -⟩ := henv.umemAlloc _ _ halloc
      refine ⟨mallocTags_tagged rfl hover, hne, hbound, fun hbig => ?_⟩
      exact mallocTags_fst.trans (if_pos hbig)
  rcases h with h | ⟨align, h⟩
  · exact hmalloc r h horigin
  · obtain ⟨hpow, ⟨-, h⟩ | ⟨-, buf, hover, halloc, rfl⟩⟩ := umemMemalign_eq_ok h
    · exact hmalloc r h horigin
    · obtain ⟨hne, hbound, -⟩ := henv.vmemXalloc _ _ _ _ hpow halloc
      exact ⟨memalignTags_tagged rfl hover, hne, hbound, fun _ => rfl⟩

theorem umemMalloc_refuses (hwrap : 2^64 ≤ sizeArg.toNat+16) :
    ∃ e, umemMalloc env s sizeArg = .error e := by
  have hboot : bootstrapAlloc env s sizeArg = .error .enomem := by
    have hall : (BitVec.allOnes 64).toNat = 2^64-1 := BitVec.toNat_allOnes
    have hover : BitVec.allOnes 64-bootstrapHeader < sizeArg := by
      rw [bootstrapHeader]
      bv_omega
    have hnone : bootstrapMalloc s.boot env.mmap sizeArg = none := by
      unfold bootstrapMalloc
      exact if_pos hover
    rw [bootstrapAlloc, hnone]
    exact if_pos hover
  unfold umemMalloc
  split
  · exact ⟨_, hboot⟩
  split
  · exact ⟨_, hboot⟩
  dsimp only
  rw [if_pos (mallocTaggedSize_lt_iff.mpr hwrap)]
  exact ⟨_, rfl⟩

theorem umemMemalign_refuses (hwrap : 2^64 ≤ sizeArg.toNat+16) :
    ∃ e, umemMemalign env s align sizeArg = .error e := by
  unfold umemMemalign
  split
  · exact ⟨_, rfl⟩
  split
  · exact umemMalloc_refuses hwrap
  dsimp only
  split
  · exact ⟨_, rfl⟩
  have hover : sizeArg+2 * tagSize < sizeArg := by
    rw [tagSize]
    bv_omega
  rw [if_pos hover]
  exact ⟨_, rfl⟩

end

/-- Over allocators that keep their contracts, a buffer is aligned as promised, lies in the block
behind its tags, reports the size that was asked for and gives back the block that was obtained; a
size that does not fit with its tags is refused. -/
theorem malloc_codec {env : Allocators} (henv : env.Contract) :
    (∀ s sizeArg r, umemMalloc env s sizeArg = .ok r → Codec s r sizeArg ∧ 8 ∣ r.ptr.toNat ∧
      (8 < sizeArg.toNat → 16 ∣ r.ptr.toNat)) ∧
    (∀ s align sizeArg r, umemMemalign env s align sizeArg = .ok r →
      Codec s r sizeArg ∧ align.toNat ∣ r.ptr.toNat) ∧
    (∀ s (align sizeArg : Word), 2 ^ 64 ≤ sizeArg.toNat + 16 →
      (∃ e, umemMalloc env s sizeArg = .error e) ∧
        ∃ e, umemMemalign env s align sizeArg = .error e) :=
  ⟨fun _ _ _ h => umemMalloc_codec henv h, fun _ _ _ _ h => umemMemalign_codec henv h,
    fun _ _ _ h => ⟨umemMalloc_refuses h, umemMemalign_refuses h⟩⟩

def oneBlock : Allocators where
  umemAlloc size := if size ≤ 4096 then some 0x10000 else none
  vmemXalloc size align phase :=
    if size ≤ 4096 ∧ align ≤ 4096 then some (0x20000 + phase % align) else none
  mmap size := if size ≤ 4096 then some 0x70000 else none
  memalignArena := true

theorem oneBlock_contract : oneBlock.Contract where
  umemAlloc size b h := by
    simp only [oneBlock, Option.ite_none_right_eq_some, Option.some.injEq] at h
    obtain ⟨hsize, rfl⟩ := h
    refine ⟨by decide, ?_, by decide, fun _ => by decide⟩
    bv_omega
  vmemXalloc size align phase b halign h := by
    simp only [oneBlock, Option.ite_none_right_eq_some, Option.some.injEq] at h
    obtain ⟨⟨hsize, hle⟩, rfl⟩ := h
    have hdvd : align.toNat ∣ 0x20000 := by
      refine (halign.dvd_of_le (q := 4096) ⟨12, by decide, rfl⟩ hle).trans (by decide)
    have hpos := halign.pos
    have hphase : (phase % align).toNat = phase.toNat % align.toNat := BitVec.toNat_umod
    have hlt := Nat.mod_lt phase.toNat hpos
    have hsum : (0x20000+phase % align).toNat = 0x20000+phase.toNat % align.toNat := by
      bv_omega
    refine ⟨?_, ?_, ?_⟩
    · intro hz
      rw [hz] at hsum
      have : (0 : Word).toNat = 0 := rfl
      omega
    · bv_omega
    · rw [hsum, Nat.add_mod, Nat.mod_eq_zero_of_dvd hdvd, Nat.zero_add, Nat.mod_mod, Nat.mod_mod]
  mmap size b h := by
    simp only [oneBlock, Option.ite_none_right_eq_some, Option.some.injEq] at h
    obtain ⟨hsize, rfl⟩ := h
    refine ⟨by decide, ?_, by decide⟩
    bv_omega

/-- A heap of one span that both blocks lie in. -/
def oneSpan : HeapView where
  loaded := ⟨0, 0⟩
  current := ⟨0x10000, 0x30000⟩
  spans := ⟨0, false, 1, fun _ => ⟨0x10000, 0x30000⟩⟩

/-- A ready allocator with no bootstrap pointer, where every two words decode as the tag of a
small buffer. -/
def freshState : State where
  mem _ := 0x1d086000
  boot := ⟨[], 0, fun _ => none⟩
  ready := true
  depth := 0

theorem oneSpan_wellFormed : oneSpan.WellFormed := by
  refine ⟨⟨?_, ?_⟩, ?_⟩
  · intro i _
    exact (by decide : (0x10000 : Word) < 0x30000)
  · intro i j hij hj
    have : j<1 := hj
    omega
  · intro k _
    exact ⟨BitVec.le_refl _, BitVec.le_refl _⟩

theorem freshState_registry : freshState.boot.WellFormed :=
  ⟨rfl, nodup_nil, fun _ he => absurd he not_mem_nil⟩

theorem freshState_unmapped (base size : Word) : Unmapped freshState.boot base size :=
  fun _ he => absurd he not_mem_nil

def oneBuffer : State := { freshState with mem := (mallocTags freshState.mem 0x10000 116).2 }

theorem oneBuffer_kept : Kept ⟨0x10010, ⟨.umem, 0x10000, 116⟩, oneBuffer⟩ oneSpan oneBuffer where
  view := oneSpan_wellFormed
  registry := freshState_registry
  words _ _ _ := rfl
  home := by
    rw [if_neg (by decide)]
    exact ⟨⟨0, by decide, by decide, by decide⟩, freshState_unmapped _ _⟩

/-- The padding in front of the tag is not taken for a tag. -/
theorem malloc_codec_oneBlock :
    (umemMallocFree oneSpan ⟨0, 0, 0⟩
      { freshState with mem := (mallocTags freshState.mem 0x10000 116).2 } 0x10010).1 =
        .freed ⟨.umem, 0x10000, 116⟩ := by
  have hmalloc : umemMalloc oneBlock freshState 100 =
      .ok ⟨0x10010, ⟨.umem, 0x10000, 116⟩, oneBuffer⟩ := rfl
  exact ((malloc_codec oneBlock_contract).1 _ _ _ hmalloc).1.frees _ _ _ oneBuffer_kept

end Libumem.Malloc
