import Libumem.Malloc.Codec

/-!
# Freeing a buffer twice

A free leaves the size in the tag and writes a pattern over the status, so that the tag should
decode to none of the four layouts. The pattern is a constant that the size is added to, and for
each layout there is one size word with which the sum is the type of that layout.
-/

namespace Libumem.Malloc
open Function Arith Lib Vmem

/-- The size word with which the pattern decodes to a type. -/
def revivedBy (type : Half) : Half := type - umemFreePattern32

theorem mallocDecode_pattern_iff {type sz : Half} :
    mallocDecode umemFreePattern32 sz = type ↔ sz = revivedBy type := by
  rw [mallocDecode, revivedBy]
  constructor
  · rintro rfl
    rw [BitVec.add_comm, BitVec.add_sub_cancel]
  · rintro rfl
    rw [BitVec.add_comm, BitVec.sub_add_cancel]

example : [mallocMagic, mallocSecondMagic, mallocOversizeMagic, memalignMagic].map revivedBy =
    [0x5b630111, 0x380cb111, 0x2836b111, 0x5f8c5111] := by
  decide

/-- The tag right in front of a buffer is as a free left it. -/
def Poisoned (mem : Mem) (ptr size : Word) : Prop :=
  readTag mem (ptr - tagSize) = ⟨lowSize size, umemFreePattern32⟩

/-- The tag in front of the one in front of the buffer is of a type. -/
def UpperTag (mem : Mem) (ptr : Word) (type : Half) : Prop :=
  mallocDecode (readTag mem (ptr - 2 * tagSize)).mallocStat
    (readTag mem (ptr - 2 * tagSize)).mallocSize = type

instance (mem : Mem) (ptr : Word) (type : Half) : Decidable (UpperTag mem ptr type) :=
  inferInstanceAs (Decidable (_ = _))

/-- The size makes a tag out of the pattern, and where the layout has a second tag that is of the
right type. -/
def Revived (mem : Mem) (ptr size : Word) : Prop :=
  lowSize size = revivedBy mallocMagic ∨ lowSize size = revivedBy mallocSecondMagic ∨
    lowSize size = revivedBy mallocOversizeMagic ∧ UpperTag mem ptr mallocMagic ∨
    lowSize size = revivedBy memalignMagic ∧ UpperTag mem ptr memalignMagic

instance (mem : Mem) (ptr size : Word) : Decidable (Revived mem ptr size) :=
  inferInstanceAs (Decidable (_ ∨ _))

section
variable {heap : HeapView} {cache : SpanCache} {mem : Mem} {ptr size dataSize : Word} {c : Claimed}
  {s : State} {block : Obtained}

theorem sub_two_tags (ptr : Word) : ptr-tagSize-tagSize = ptr-2 * tagSize := by
  rw [tagSize]
  bv_omega

theorem decodeTwoTags_isOk_iff {low : Word} {type : Half} {memalign : Bool}
    (hread : mayRead heap (ptr-2 * tagSize) tagSize = true) :
    (∃ c, decodeTwoTags heap mem (ptr-tagSize) low type memalign = .ok c) ↔
      UpperTag mem ptr type := by
  unfold decodeTwoTags UpperTag
  dsimp only
  rw [sub_two_tags, hread, if_neg (by simp)]
  split
  · rename_i hne
    refine iff_of_false ?_ hne
    rintro ⟨c, hc⟩
    simp at hc
  · rename_i heq
    exact iff_of_true ⟨_, rfl⟩ (not_not.mp heq)

theorem decodeTags_poisoned (hp : Poisoned mem ptr size)
    (hread : mayRead heap (ptr-tagSize) tagSize = true)
    (hupper : 2 * tagSize < size → mayRead heap (ptr-2 * tagSize) tagSize = true) :
    (∃ c, decodeTags heap mem ptr = .ok c) ↔ Revived mem ptr size := by
  have hlarge : ∀ w : Half, lowSize size = w → 16 < w → 2 * tagSize < size := by
    intro w hw hlt
    have hle : (lowSize size).toNat ≤ size.toNat := by
      rw [lowSize, BitVec.toNat_setWidth]
      exact Nat.mod_le _ _
    rw [hw] at hle
    simp only [tagSize]
    bv_omega
  unfold decodeTags
  dsimp only
  rw [hread, if_neg (by simp), hp]
  simp only [mallocDecode_pattern_iff]
  rw [Revived]
  split
  · rename_i h
    exact iff_of_true ⟨_, rfl⟩ (.inl h)
  rename_i h1
  split
  · rename_i h
    exact iff_of_true ⟨_, rfl⟩ (.inr (.inl h))
  rename_i h2
  split
  · rename_i h
    rw [decodeTwoTags_isOk_iff (hupper (hlarge _ h (by decide)))]
    have h4 : lowSize size ≠ revivedBy memalignMagic := by
      rw [h]
      decide
    constructor
    · exact fun hu => .inr (.inr (.inl ⟨h, hu⟩))
    · rintro (h' | h' | ⟨-, hu⟩ | ⟨h', -⟩)
      · exact absurd h' h1
      · exact absurd h' h2
      · exact hu
      · exact absurd h' h4
  rename_i h3
  split
  · rename_i h
    rw [decodeTwoTags_isOk_iff (hupper (hlarge _ h (by decide)))]
    constructor
    · exact fun hu => .inr (.inr (.inr ⟨h, hu⟩))
    · rintro (h' | h' | ⟨h', -⟩ | ⟨-, hu⟩)
      · exact absurd h' h1
      · exact absurd h' h2
      · exact absurd h' h3
      · exact hu
  rename_i h4
  simp only [h1, h2, h3, h4, false_or, false_and]
  split <;> simp

theorem decodeTags_poison (h : decodeTags heap mem ptr = .ok c) :
    c.poisonLo = ptr-tagSize ∧ c.npoison = 1 ∨
      c.poisonLo = ptr-2 * tagSize ∧ c.npoison = 2 ∧ c.base = c.poisonLo := by
  have htwo : ∀ low type memalign, decodeTwoTags heap mem (ptr-tagSize) low type memalign = .ok c →
      c.poisonLo = ptr-2 * tagSize ∧ c.npoison = 2 ∧ c.base = c.poisonLo := by
    intro low type memalign h
    unfold decodeTwoTags at h
    dsimp only at h
    split at h
    · simp at h
    split at h
    · simp at h
    cases h
    exact ⟨sub_two_tags ptr, rfl, rfl⟩
  unfold decodeTags at h
  dsimp only at h
  split at h
  · simp at h
  split at h
  · cases h
    exact .inl ⟨rfl, rfl⟩
  split at h
  · cases h
    exact .inl ⟨rfl, rfl⟩
  split at h
  · exact .inr (htwo _ _ _ h)
  split at h
  · exact .inr (htwo _ _ _ h)
  split at h
  · simp at h
  · simp at h

theorem readTag_pattern (mem : Mem) (buf : Word) :
    readTag (update mem (buf+4) umemFreePattern32) buf =
      ⟨(readTag mem buf).mallocSize, umemFreePattern32⟩ := by
  have hne : buf ≠ buf+4 := by bv_omega
  rw [readTag, update_of_ne hne, update_self]
  rfl

theorem readTag_poisonTags (h : decodeTags heap mem ptr = .ok c) :
    readTag (poisonTags mem c.poisonLo c.npoison) (ptr-tagSize) =
      ⟨(readTag mem (ptr-tagSize)).mallocSize, umemFreePattern32⟩ := by
  rcases decodeTags_poison h with ⟨hlo, hn⟩ | ⟨hlo, hn, -⟩
  · rw [hlo, hn]
    exact readTag_pattern mem _
  · have hnext : ptr-2 * tagSize+tagSize = ptr-tagSize := by
      rw [tagSize]
      bv_omega
    have hne : ptr-tagSize ≠ ptr-2 * tagSize+4 := by
      rw [tagSize]
      bv_omega
    rw [hlo, hn, poisonTags, poisonTags, poisonTags, hnext, readTag_pattern]
    simp only [readTag, update_of_ne hne]

theorem processFreeUmem_refuses (cache : SpanCache) (h : ∀ c, decodeTags heap mem ptr ≠ .ok c)
    (doFree : Bool) :
    ∃ e, processFreeUmem heap cache mem ptr doFree = (.refused e, mem, cache) := by
  unfold processFreeUmem acceptTags
  cases hd : decodeTags heap mem ptr with
  | error e => exact ⟨e, rfl⟩
  | ok c => exact absurd hd (h c)

theorem mallocFreeFast_defers (h : ∀ c, decodeTags heap mem ptr ≠ .ok c) :
    mallocFreeFast heap cache mem ptr = (none, cache) := by
  unfold mallocFreeFast
  dsimp only
  split
  · rfl
  rename_i hhull
  have hread : mayRead heap (ptr-tagSize) tagSize = true := by
    rw [mayRead, Bool.eq_true_of_not_eq_false hhull, Bool.true_or]
  split
  · rename_i hmagic
    exfalso
    unfold decodeTags at h
    dsimp only at h
    rw [hread, if_neg (by simp)] at h
    rcases hmagic with hmagic | hmagic
    · rw [if_pos hmagic] at h
      exact h _ rfl
    · rw [if_neg (by rw [hmagic]; decide), if_pos hmagic] at h
      exact h _ rfl
  · rfl

theorem decodeTags_of_accept {c : Claimed} (hc : (acceptTags heap cache mem ptr).1 = .ok c) :
    decodeTags heap mem ptr = .ok c := by
  unfold acceptTags at hc
  split at hc
  · simp at hc
  · rename_i c' hd
    split at hc
    · simp at hc
    dsimp only at hc
    split at hc
    · rw [hd, Except.ok.inj hc]
    · simp at hc

section

variable {block : Obtained} (h : (processFreeUmem heap cache mem ptr true).1 = .freed block)

include h

theorem processFreeUmem_eq_freed :
    ∃ c cache', decodeTags heap mem ptr = .ok c ∧ c.block = block ∧
      processFreeUmem heap cache mem ptr true =
        (.freed block, poisonTags mem c.poisonLo c.npoison, cache') := by
  unfold processFreeUmem at h ⊢
  split at h
  · simp at h
  · rename_i c cache' hacc
    obtain rfl := Processed.freed.inj h
    exact ⟨c, cache', decodeTags_of_accept (by rw [hacc]), rfl, rfl⟩

theorem processFreeUmem_poisons :
    readTag (processFreeUmem heap cache mem ptr true).2.1 (ptr-tagSize) =
      ⟨(readTag mem (ptr-tagSize)).mallocSize, umemFreePattern32⟩ := by
  obtain ⟨c, cache', hd, -, hpf⟩ := processFreeUmem_eq_freed h
  rw [hpf]
  exact readTag_poisonTags hd

end

theorem mallocFreeFast_poisons {got : Obtained × Mem}
    (h : (mallocFreeFast heap cache mem ptr).1 = some got) :
    readTag got.2 (ptr-tagSize) = ⟨(readTag mem (ptr-tagSize)).mallocSize, umemFreePattern32⟩ := by
  unfold mallocFreeFast at h
  dsimp only at h
  split at h
  · simp at h
  split at h
  · generalize (if _ = mallocMagic then ptr-tagSize else _) = base at h
    generalize (if _ = mallocMagic then tagSize else _) = overhead at h
    split at h
    · simp at h
    split at h
    · simp at h
    split at h
    · cases h
      exact readTag_pattern mem _
    · simp at h
  · simp at h

theorem Tagged.low (ht : Tagged s.mem ptr block dataSize) :
    (readTag s.mem (ptr-tagSize)).mallocSize = lowSize block.size := by
  have hsub : ∀ base : Word, base+16-tagSize = base+8 ∧ base+8-tagSize = base := by
    intro base
    rw [tagSize]
    constructor <;> bv_omega
  cases ht with
  | @malloc base size least high tag =>
    rw [(hsub base).2, tag]
    rfl
  | @second base size least high tag | @oversize base size least tag upper
  | @memalign base size least tag upper =>
    rw [(hsub base).1, tag]
    rfl

theorem poisoned_of_freed (cache : SpanCache) (hw : heap.WellFormed)
    (hh : heap.Holds block.base block.size) (hbase : block.base ≠ 0) (hptr : ptr ≠ 0)
    (hboot : bootstrapPointerP s.boot ptr = false) (ht : Tagged s.mem ptr block dataSize) :
    Poisoned (processFree heap cache s ptr true).2.1.mem ptr block.size ∧
      Poisoned (umemMallocFree heap cache s ptr).2.1.mem ptr block.size := by
  have hslow : ∀ cache, Poisoned (processFreeUmem heap cache s.mem ptr true).2.1 ptr block.size := by
    intro cache
    rw [Poisoned, processFreeUmem_poisons (processFreeUmem_tagged hw hh hbase ht true), ht.low]
  constructor
  · unfold processFree
    rw [if_neg (by simp [hboot])]
    exact hslow cache
  · unfold umemMallocFree
    rw [if_neg hptr, hboot, if_neg (by simp)]
    split
    · rename_i got mem cache' hpair
      have hfast : (mallocFreeFast heap cache s.mem ptr).1 = some (got, mem) := by rw [hpair]
      exact (mallocFreeFast_poisons hfast).trans (by rw [ht.low])
    · exact hslow _

end

/-- A later state in which nobody has touched the tags that a free left, and the block lies in a
heap span. -/
structure Stale (r : Returned) (freed : State) (heap : HeapView) (s : State) : Prop where
  view : heap.WellFormed
  registry : s.boot.WellFormed
  words : ∀ a : Word, r.got.base ≤ a → a < r.ptr → s.mem a = freed.mem a
  home : heap.Holds r.got.base r.got.size ∧ Unmapped s.boot r.got.base r.got.size

section
variable {env : Allocators} {s : State} {sizeArg : Word} {r : Returned}

theorem Stale.poisoned {freed later : State} {heap : HeapView} (h : Stale r freed heap later)
    (hlo : r.got.base.toNat+8 ≤ r.ptr.toNat) (hp : Poisoned freed.mem r.ptr r.got.size) :
    Poisoned later.mem r.ptr r.got.size := by
  rw [Poisoned, ← hp]
  simp only [tagSize]
  apply readTag_congr <;> apply h.words <;> bv_omega

/-- A buffer that was freed once: its tags decode to nothing unless the size revives them, and then
every way to free it again or to ask for its size is refused and leaves the memory alone. -/
theorem doubleFree_refused_iff (henv : env.Contract)
    (hr : umemMalloc env s sizeArg = .ok r ∨ ∃ align, umemMemalign env s align sizeArg = .ok r)
    (horigin : r.got.origin ≠ .bootstrap)
    (heap : HeapView) (cache : SpanCache) (live freed : State) (hlive : Kept r heap live)
    (hfree : freed = (processFree heap cache live r.ptr true).2.1 ∨
      freed = (umemMallocFree heap cache live r.ptr).2.1)
    (heap' : HeapView) (cache' : SpanCache) (later : State) (hlater : Stale r freed heap' later) :
    ((∀ c, decodeTags heap' later.mem r.ptr ≠ .ok c) ↔ ¬ Revived later.mem r.ptr r.got.size) ∧
    (¬ Revived later.mem r.ptr r.got.size →
      (∀ doFree, ∃ e, processFree heap' cache' later r.ptr doFree = (.refused e, later, cache')) ∧
      ∃ e, umemMallocFree heap' cache' later r.ptr = (.refused e, later, cache')) := by
  obtain ⟨ht, hbase, hbound, hsecond⟩ := allocated_tagged henv hr horigin
  obtain ⟨hlo, hhi, hsize, hend⟩ := ht.place hbound
  have hptr : r.ptr ≠ 0 := by
    intro hz
    rw [hz] at hlo
    simp at hlo
  have hhome := hlive.home
  rw [if_neg horigin] at hhome
  have htag := ht.congr hbound hlive.words
  have hboot := not_bootstrap_of_unmapped hlive.registry hhome.2 hlo hhi hsize
  have hboot' := not_bootstrap_of_unmapped hlater.registry hlater.home.2 hlo hhi hsize
  have hfreed : Poisoned freed.mem r.ptr r.got.size := by
    have hboth := poisoned_of_freed cache hlive.view hhome.1 hbase hptr hboot htag
    rcases hfree with rfl | rfl
    · exact hboth.1
    · exact hboth.2
  have hp := hlater.poisoned hlo hfreed
  have hread : mayRead heap' (r.ptr-tagSize) tagSize = true := by
    apply mayRead_part hlater.view hlater.home.1 _ (by decide)
    · simp only [tagSize]
      bv_omega
    · simp only [tagSize]
      bv_omega
    · simp only [tagSize]
      bv_omega
  have hupper : 2 * tagSize < r.got.size →
      mayRead heap' (r.ptr-2 * tagSize) tagSize = true := by
    intro hbig
    have hstart : r.ptr-2 * tagSize = r.got.base := by
      rw [hsecond hbig, tagSize]
      bv_omega
    rw [hstart]
    apply mayRead_part hlater.view hlater.home.1 hbase (by decide) (BitVec.le_refl _)
    simp only [tagSize]
    bv_omega
  have hiff : (∀ c, decodeTags heap' later.mem r.ptr ≠ .ok c) ↔
      ¬ Revived later.mem r.ptr r.got.size := by
    rw [← decodeTags_poisoned hp hread hupper, not_exists]
  refine ⟨hiff, fun hnot => ⟨fun doFree => ?_, ?_⟩⟩
  · obtain ⟨e, he⟩ := processFreeUmem_refuses cache' (hiff.mpr hnot) doFree
    refine ⟨e, ?_⟩
    rw [processFree, if_neg (by simp [hboot']), he]
  · obtain ⟨e, he⟩ := processFreeUmem_refuses cache' (hiff.mpr hnot) true
    refine ⟨e, ?_⟩
    rw [umemMallocFree, if_neg hptr, hboot', if_neg (by simp),
      mallocFreeFast_defers (hiff.mpr hnot)]
    dsimp only
    rw [he]

end

def oneFreed : State := (umemMallocFree oneSpan ⟨0, 0, 0⟩ oneBuffer 0x10010).2.1

/-- A buffer of 100 bytes is not freed twice. -/
theorem doubleFree_refused_oneBlock :
    ∃ e, umemMallocFree oneSpan ⟨0, 0, 0⟩ oneFreed 0x10010 = (.refused e, oneFreed, ⟨0, 0, 0⟩) := by
  have hmalloc : umemMalloc oneBlock freshState 100 =
      .ok ⟨0x10010, ⟨.umem, 0x10000, 116⟩, oneBuffer⟩ := rfl
  have hstale : Stale ⟨0x10010, ⟨.umem, 0x10000, 116⟩, oneBuffer⟩ oneFreed oneSpan oneFreed :=
    ⟨oneSpan_wellFormed, freshState_registry, fun _ _ _ => rfl,
      ⟨0, by decide, by decide, by decide⟩, freshState_unmapped _ _⟩
  exact ((doubleFree_refused_iff oneBlock_contract (.inl hmalloc) (by decide) oneSpan ⟨0, 0, 0⟩
    oneBuffer oneFreed oneBuffer_kept (.inr rfl) oneSpan ⟨0, 0, 0⟩ oneFreed hstale).2
      (by decide +kernel)).2

def bigBlock : Allocators where
  umemAlloc size := if size ≤ 0x40000000 then some 0x10000 else none
  vmemXalloc _ _ _ := none
  mmap _ := none
  memalignArena := true

theorem bigBlock_contract : bigBlock.Contract where
  umemAlloc size b h := by
    simp only [bigBlock, Option.ite_none_right_eq_some, Option.some.injEq] at h
    obtain ⟨hsize, rfl⟩ := h
    refine ⟨by decide, ?_, by decide, fun _ => by decide⟩
    bv_omega
  vmemXalloc size align phase b halign h := by simp [bigBlock] at h
  mmap size b h := by simp [bigBlock] at h

def bigSpan : HeapView where
  loaded := ⟨0, 0⟩
  current := ⟨0x10000, 0x50000000⟩
  spans := ⟨0, false, 1, fun _ => ⟨0x10000, 0x50000000⟩⟩

def bigBuffer : State := { freshState with mem := (mallocTags freshState.mem 0x10000 0x380cb111).2 }

def bigFreed : State := (umemMallocFree bigSpan ⟨0, 0, 0⟩ bigBuffer 0x10010).2.1

/-- A buffer of 940355841 bytes is freed once, and freed again by each of the functions. -/
theorem doubleFree_accepted :
    bigBlock.Contract ∧
    umemMalloc bigBlock freshState 940355841 =
      .ok ⟨0x10010, ⟨.umem, 0x10000, 0x380cb111⟩, bigBuffer⟩ ∧
    (umemMallocFree bigSpan ⟨0, 0, 0⟩ bigBuffer 0x10010).1 = .freed ⟨.umem, 0x10000, 0x380cb111⟩ ∧
    (umemMallocFree bigSpan ⟨0, 0, 0⟩ bigFreed 0x10010).1 = .freed ⟨.umem, 0x10000, 0x380cb111⟩ ∧
    (processFree bigSpan ⟨0, 0, 0⟩ bigFreed 0x10010 true).1 =
      .freed ⟨.umem, 0x10000, 0x380cb111⟩ ∧
    (processFree bigSpan ⟨0, 0, 0⟩ bigFreed 0x10010 false).1 = .dataSize 940355841 := by
  refine ⟨bigBlock_contract, rfl, ?_, ?_, ?_, ?_⟩
  · decide +kernel
  · decide +kernel
  · decide +kernel
  · decide +kernel

end Libumem.Malloc
