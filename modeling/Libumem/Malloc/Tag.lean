import Libumem.Malloc.Bootstrap
import Libumem.Vmem.SpanTable

/-!
# The tags in front of a malloc buffer

`umem_malloc` and `umem_memalign` put one or two eight-byte tags in front of the buffer they
return, and `process_free` finds from them the layout, the block that was obtained and the size
that was asked for. Memory is read and written in words of 32 bits.
-/

namespace Libumem.Malloc
open Function Arith Lib Vmem

abbrev Half := BitVec 32

abbrev Mem := Word → Half

/-- `malloc_data_t`. -/
structure MallocData where
  mallocSize : Half
  mallocStat : Half
  deriving DecidableEq, Repr

def readTag (mem : Mem) (buf : Word) : MallocData := ⟨mem buf, mem (buf + 4)⟩

def writeTag (mem : Mem) (buf : Word) (tag : MallocData) : Mem :=
  update (update mem buf tag.mallocSize) (buf + 4) tag.mallocStat

def umemAlign : Word := 8

def umemSecondAlign : Word := 16

def umemMaxbuf : Word := 131072

/-- `sizeof (malloc_data_t)`. -/
def tagSize : Word := 8

def mallocMagic : Half := 0x3a10c000

def memalignMagic : Half := 0x3e3a1000

def mallocSecondMagic : Half := 0x16ba7000

def mallocOversizeMagic : Half := 0x06e47000

/-- The low half of `UMEM_FREE_PATTERN`. -/
def umemFreePattern32 : Half := 0xdeadbeef

/-- `UMEM_MALLOC_ENCODE`. -/
def mallocEncode (type sz : Half) : Half := type - sz

/-- `UMEM_MALLOC_DECODE`. -/
def mallocDecode (stat sz : Half) : Half := stat + sz

/-- A tag for `sz` of the given type. -/
def tagOf (type sz : Half) : MallocData := ⟨sz, mallocEncode type sz⟩

def lowSize (size : Word) : Half := size.setWidth 32

def highSize (size : Word) : Half := (size >>> 32).setWidth 32

/-- Where a block came from, and where it goes back to. -/
inductive Origin
  | umem | memalignArena | bootstrap
  deriving DecidableEq, Repr

/-- A block that was obtained from an allocator, or is passed back to it. -/
structure Obtained where
  origin : Origin
  base : Word
  size : Word
  deriving DecidableEq, Repr

inductive Errno
  | einval | enomem | eagain
  /-- What a failed `mmap` left. -/
  | mmap
  deriving DecidableEq, Repr

/-- The allocators under `malloc`, each with `none` for a failure. -/
structure Allocators where
  umemAlloc : Word → Option Word
  /-- `vmem_xalloc` on `umem_memalign_arena` with a size, an alignment and a phase. -/
  vmemXalloc : Word → Word → Word → Option Word
  mmap : Word → Option Word
  /-- Whether `umem_memalign_arena` is there, or `umem_init` makes it. -/
  memalignArena : Bool

structure State where
  mem : Mem
  boot : Bootstrap
  /-- Whether `umem_ready` is `UMEM_READY`. -/
  ready : Bool
  /-- What `umem_enter_malloc` returns: how many calls of this thread are under way. -/
  depth : Nat

/-- What an allocation returns: the pointer, the block behind it and the new state. -/
structure Returned where
  ptr : Word
  got : Obtained
  state : State

/-- `bootstrap_malloc`, with the header written in front of the pointer. -/
def bootstrapAlloc (env : Allocators) (s : State) (size : Word) : Except Errno Returned :=
  match bootstrapMalloc s.boot env.mmap size with
  | none =>
    -- a sum that wraps around and a full table are `ENOMEM`, whatever `mmap` says
    if BitVec.allOnes 64 - bootstrapHeader < size then .error .enomem
    else if env.mmap (size + bootstrapHeader) = none then .error .mmap
    else .error .enomem
  | some (buf, total, boot) =>
    let hdr := buf - bootstrapHeader
    let mem := writeTag s.mem hdr ⟨0xB007B007, 0xB007B007⟩
    let mem := writeTag mem (hdr + 8) ⟨lowSize total, highSize total⟩
    .ok ⟨buf, ⟨.bootstrap, hdr, total⟩, { s with mem := mem, boot := boot }⟩

/-- The size that `umem_malloc` asks for: the request with one tag, or with two. -/
def mallocTaggedSize (sizeArg : Word) : Word :=
  let size := sizeArg + tagSize
  if umemSecondAlign < size then size + tagSize else size

/-- The tags of `umem_malloc` at the start of a block, and the pointer behind them. -/
def mallocTags (mem : Mem) (ret size : Word) : Word × Mem :=
  if umemSecondAlign < size ∧ highSize size ≠ 0 then
    let mem := writeTag mem ret (tagOf mallocMagic (highSize size))
    (ret + 16, writeTag mem (ret + 8) (tagOf mallocOversizeMagic (lowSize size)))
  else if umemSecondAlign < size then
    -- the first eight bytes are left alone
    (ret + 16, writeTag mem (ret + 8) (tagOf mallocSecondMagic (lowSize size)))
  else (ret + 8, writeTag mem ret (tagOf mallocMagic (lowSize size)))

def umemMalloc (env : Allocators) (s : State) (sizeArg : Word) : Except Errno Returned :=
  if s.ready = false then bootstrapAlloc env s sizeArg
  else if 0 < s.depth then bootstrapAlloc env s sizeArg
  else
    let size := mallocTaggedSize sizeArg
    if size < sizeArg then .error .enomem
    else
      match env.umemAlloc size with
      | none => .error (if size ≤ umemMaxbuf then .eagain else .enomem)
      | some ret =>
        let (ptr, mem) := mallocTags s.mem ret size
        .ok ⟨ptr, ⟨.umem, ret, size⟩, { s with mem := mem }⟩

/-- The two tags of `umem_memalign`. -/
def memalignTags (mem : Mem) (ret size : Word) : Word × Mem :=
  let mem := writeTag mem ret (tagOf memalignMagic (highSize size))
  (ret + 16, writeTag mem (ret + 8) (tagOf memalignMagic (lowSize size)))

def umemMemalign (env : Allocators) (s : State) (align sizeArg : Word) : Except Errno Returned :=
  if sizeArg = 0 ∨ align = 0 ∨ align &&& (align - 1) ≠ 0 then .error .einval
  else if align ≤ umemAlign ∨ (align ≤ umemSecondAlign ∧ umemSecondAlign ≤ sizeArg) then
    umemMalloc env s sizeArg
  else
    let overhead := 2 * tagSize
    let size := sizeArg + overhead
    let phase := align - overhead
    if env.memalignArena = false then .error .enomem
    else if size < sizeArg then .error .enomem
    else
      match env.vmemXalloc size align phase with
      | none => .error (if sizeArg + align ≤ umemMaxbuf then .eagain else .enomem)
      | some buf =>
        let (ptr, mem) := memalignTags s.mem buf size
        .ok ⟨ptr, ⟨.memalignArena, buf, size⟩, { s with mem := mem }⟩

/-- The bounds `[lo, hi)` around all heap spans. -/
structure Hull where
  lo : Word
  hi : Word

def hullContains (hull : Hull) (addr len : Word) : Bool :=
  let stop := addr + len
  if addr = 0 ∨ len = 0 ∨ stop < addr then false
  else decide (hull.lo ≤ addr) && decide (stop ≤ hull.hi)

/-- The heap as a thread sees it in one call: the hull it loaded at first, which may be old, the
hull as it is now, and the span table. -/
structure HeapView where
  loaded : Hull
  current : Hull
  spans : SpanTable

/-- The span that the last free of this thread landed in. -/
structure SpanCache where
  lo : Word
  hi : Word
  gen : BitVec 32

def spanOwnsCached (heap : HeapView) (cache : SpanCache) (addr len : Word) : Bool × SpanCache :=
  let gen := heap.spans.vmemSpanSeq
  if gen = cache.gen ∧ cache.lo ≤ addr ∧ addr + len ≤ cache.hi then (true, cache)
  else
    match vmemSpanFind heap.spans addr len with
    | none => (false, cache)
    | some span =>
      if span.vseBase ≠ 0 ∧ gen &&& 1 = 0 then (true, ⟨span.vseBase, span.vseEnd, gen⟩)
      else (true, cache)

/-- `MAY_READ`. -/
def mayRead (heap : HeapView) (p n : Word) : Bool :=
  hullContains heap.loaded p n || hullContains heap.current p n

def umemMayOwn (heap : HeapView) (cache : SpanCache) (p n : Word) : Bool × SpanCache :=
  if hullContains heap.current p n = false then (false, cache) else spanOwnsCached heap cache p n

/-- `MAY_OWN`. -/
def mayOwn (heap : HeapView) (cache : SpanCache) (p n : Word) : Bool × SpanCache :=
  if hullContains heap.loaded p n then
    let (owns, cache) := spanOwnsCached heap cache p n
    if owns then (true, cache) else umemMayOwn heap cache p n
  else umemMayOwn heap cache p n

/-- What the tags in front of a pointer say, before it is known whether they are to be trusted. -/
structure Claimed where
  base : Word
  size : Word
  overheadMin : Word
  dataSize : Word
  /-- The tags whose status is cleared by a free. -/
  poisonLo : Word
  npoison : Nat
  memalign : Bool
  deriving DecidableEq, Repr

/-- The message of a refused free or realloc. -/
inductive Refusal
  /-- "not a libumem allocation (outside umem's heap)" -/
  | outside
  /-- "invalid or corrupted buffer" -/
  | corrupted
  /-- "double-free or invalid buffer" -/
  | doubleFree
  /-- "header claims … bytes at …, which is not a libumem allocation; refusing" -/
  | notOwned (size base : Word)
  deriving DecidableEq, Repr

/-- A layout with the upper half of the size in a second tag, which has to be of type `type`. -/
def decodeTwoTags (heap : HeapView) (mem : Mem) (buf : Word) (low : Word) (type : Half)
    (memalign : Bool) : Except Refusal Claimed :=
  let buf := buf - tagSize
  if mayRead heap buf tagSize = false then .error .corrupted
  else
    let high := readTag mem buf
    if mallocDecode high.mallocStat high.mallocSize ≠ type then .error .corrupted
    else
      let size := low + (high.mallocSize.setWidth 64 <<< 32)
      .ok ⟨buf, size, 2 * tagSize, size - 2 * tagSize, buf, 2, memalign⟩

/-- Steps 2 and 3 of `process_free`: read the tag and find the layout. -/
def decodeTags (heap : HeapView) (mem : Mem) (bufArg : Word) : Except Refusal Claimed :=
  let buf := bufArg - tagSize
  if mayRead heap buf tagSize = false then .error .outside
  else
    let tag := readTag mem buf
    let size : Word := tag.mallocSize.setWidth 64
    let magic := mallocDecode tag.mallocStat tag.mallocSize
    if magic = mallocMagic then
      .ok ⟨buf, size, tagSize, size - tagSize, buf, 1, false⟩
    else if magic = mallocSecondMagic then
      .ok ⟨buf - tagSize, size, 2 * tagSize, size - 2 * tagSize, buf, 1, false⟩
    else if magic = mallocOversizeMagic then decodeTwoTags heap mem buf size mallocMagic false
    else if magic = memalignMagic then decodeTwoTags heap mem buf size memalignMagic true
    else if tag.mallocStat = umemFreePattern32 then .error .doubleFree
    else .error .corrupted

/-- Clear the status of `n` tags from `lo` on. -/
def poisonTags (mem : Mem) (lo : Word) : Nat → Mem
  | 0 => mem
  | n + 1 => poisonTags (update mem (lo + 4) umemFreePattern32) (lo + tagSize) n

/-- The block that an accepted free passes on. -/
def Claimed.block (c : Claimed) : Obtained :=
  ⟨if c.memalign then .memalignArena else .umem, c.base, c.size⟩

/-- Steps 2 to 4 of `process_free`: the tags, once they are accepted. -/
def acceptTags (heap : HeapView) (cache : SpanCache) (mem : Mem) (bufArg : Word) :
    Except Refusal Claimed × SpanCache :=
  match decodeTags heap mem bufArg with
  | .error e => (.error e, cache)
  | .ok c =>
    if c.size < c.overheadMin then (.error (.notOwned c.size c.base), cache)
    else
      let (owns, cache) := mayOwn heap cache c.base c.size
      if owns then (.ok c, cache) else (.error (.notOwned c.size c.base), cache)

/-- What a call that was asked to free, or to report the size, did. -/
inductive Processed
  | nothing
  | refused (why : Refusal)
  | dataSize (size : Word)
  | freed (block : Obtained)
  deriving DecidableEq, Repr

def processFreeUmem (heap : HeapView) (cache : SpanCache) (mem : Mem) (bufArg : Word)
    (doFree : Bool) : Processed × Mem × SpanCache :=
  match acceptTags heap cache mem bufArg with
  | (.error e, cache) => (.refused e, mem, cache)
  | (.ok c, cache) =>
    if doFree then (.freed c.block, poisonTags mem c.poisonLo c.npoison, cache)
    else (.dataSize c.dataSize, mem, cache)

def bootstrapHeaderSize (mem : Mem) (buf : Word) : Word :=
  let size := readTag mem (buf - 8)
  size.mallocSize.setWidth 64 + (size.mallocStat.setWidth 64 <<< 32)

def processFree (heap : HeapView) (cache : SpanCache) (s : State) (bufArg : Word)
    (doFree : Bool) : Processed × State × SpanCache :=
  if bufArg ≠ 0 ∧ bootstrapPointerP s.boot bufArg then
    (.dataSize (bootstrapHeaderSize s.mem bufArg - bootstrapHeader), s, cache)
  else
    let (r, mem, cache) := processFreeUmem heap cache s.mem bufArg doFree
    (r, { s with mem := mem }, cache)

/-- The fast path of `umem_malloc_free`, for the two layouts with a single status word. -/
def mallocFreeFast (heap : HeapView) (cache : SpanCache) (mem : Mem) (buf : Word) :
    Option (Obtained × Mem) × SpanCache :=
  let hdr := buf - tagSize
  if hullContains heap.loaded hdr tagSize = false then (none, cache)
  else
    let tag := readTag mem hdr
    let size : Word := tag.mallocSize.setWidth 64
    let magic := mallocDecode tag.mallocStat tag.mallocSize
    if magic = mallocMagic ∨ magic = mallocSecondMagic then
      let base := if magic = mallocMagic then hdr else hdr - tagSize
      let overhead := if magic = mallocMagic then tagSize else 2 * tagSize
      if size < overhead then (none, cache)
      else if hullContains heap.loaded base size = false then (none, cache)
      else
        let (owns, cache) := spanOwnsCached heap cache base size
        if owns then
          (some (⟨.umem, base, size⟩, update mem (hdr + 4) umemFreePattern32), cache)
        else (none, cache)
    else (none, cache)

def umemMallocFree (heap : HeapView) (cache : SpanCache) (s : State) (buf : Word) :
    Processed × State × SpanCache :=
  if buf = 0 then (.nothing, s, cache)
  else if bootstrapPointerP s.boot buf then
    let (boot, unmapped) := bootstrapFree s.boot buf
    match unmapped with
    | none => (.nothing, { s with boot := boot }, cache)
    | some (hdr, size) => (.freed ⟨.bootstrap, hdr, size⟩, { s with boot := boot }, cache)
  else
    match mallocFreeFast heap cache s.mem buf with
    | (some (block, mem), cache) => (.freed block, { s with mem := mem }, cache)
    | (none, cache) =>
      let (r, mem, cache) := processFreeUmem heap cache s.mem buf true
      (r, { s with mem := mem }, cache)

end Libumem.Malloc
