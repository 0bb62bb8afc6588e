import Libumem.Malloc.Codec

/-!
# The malloc interposer

`malloc`, `calloc`, `realloc`, `memalign`, `posix_memalign` and `free` of `malloc_interpose.c`. A
pointer that reaches `free` or `realloc` has one of four owners: the static buffer that serves
`dlsym`, the bootstrap allocator, libc, whose pointers are recorded in a table, and umem. A cell of
memory stands for each address; a 32-bit field is the cell at its address.
-/

namespace Libumem.Malloc
open Arith Lib Vmem

/-- `interpose_state_t`. -/
inductive Phase
  | uninit | bootstrap | ready
  deriving DecidableEq, Repr

/-- `interpose_owner_t`. -/
inductive Owner
  | unknown | static | bootstrap | libc | umem
  deriving DecidableEq, Repr

/-- `STATIC_BUFFER_SIZE`. -/
def staticBufferSize : Word := 4096

/-- `sizeof (static_chunk_t)`. -/
def staticChunk : Word := 16

/-- `MAX_LIBC_PTRS`. -/
def maxLibcPtrs : Nat := 512

/-- A 64-bit field as the two 32-bit fields it is made of. -/
def fieldOf (w : Word) : MallocData := ⟨lowSize w, highSize w⟩

def readField (mem : Mem) (a : Word) : Word :=
  let f := readTag mem a
  f.mallocSize.setWidth 64 + (f.mallocStat.setWidth 64 <<< 32)

/-- `STATIC_CHUNK_MAGIC`. -/
def staticChunkMagic : Word := 0x5A5A0BEEF

/-- `BOOTSTRAP_MAGIC`. -/
def bootstrapMagic : Word := 0xB007B007B007B007

structure Interposer where
  umem : State
  /-- The heap spans, as `process_free` looks them up. -/
  heap : HeapView
  /-- The span that the last free of the thread landed in. -/
  cache : SpanCache
  phase : Phase
  inDlsym : Bool
  /-- The address of the static buffer, and how much of it is handed out. -/
  staticBuffer : Word
  staticBufferUsed : Word
  libcPtrs : Slots Word Word
  libcPtrLive : Int
  /-- Which functions of libc are resolved. -/
  libcFree : Bool
  libcRealloc : Bool
  libcMemalign : Bool
  /-- Whether `umem_ready` is `UMEM_READY_STARTUP`. -/
  startup : Bool
  initAttempted : Bool
  /-- `calloc_depth` of the thread. -/
  callocDepth : Nat

/-- What one call meets: the allocators under it, whether `umem_init` succeeds, and libc. -/
structure Surroundings where
  alloc : Allocators
  umemInit : Bool
  libcMemalign : Word → Word → Option Word
  /-- The pointers that libc handed out before the interposer was there. -/
  libcOwns : Word → Bool
  libcRealloc : Word → Word → Option Word
  pagesize : Word

/-- Where the storage behind a pointer is from. -/
inductive Home
  | static | bootstrap | libc | umem | memalign
  deriving DecidableEq, Repr

/-- A pointer that was returned for a request of `req` bytes, and the block it stands in. -/
structure Buf where
  ptr : Word
  req : Word
  home : Home
  base : Word
  size : Word
  deriving DecidableEq, Repr

/-- What became of a pointer that was to be freed. -/
inductive Release
  /-- Static storage stays. -/
  | static
  | libc (ptr : Word)
  | umem (r : Processed)
  deriving DecidableEq, Repr

def Origin.home : Origin → Home
  | .umem => .umem
  | .memalignArena => .memalign
  | .bootstrap => .bootstrap

/-- The pointer that an allocation of malloc.c returned. -/
def Returned.buf (r : Returned) (req : Word) : Buf :=
  ⟨r.ptr, req, r.got.origin.home, r.got.base, r.got.size⟩

/-- The memory after `memset (ptr, 0, n)`. -/
def zeroFill (mem : Mem) (ptr n : Word) : Mem := fun a => if a - ptr < n then 0 else mem a

/-- The memory after `memcpy (dst, src, n)`. -/
def copyCells (mem : Mem) (dst src n : Word) : Mem :=
  fun a => if a - dst < n then mem (src + (a - dst)) else mem a

namespace Interposer

def staticAlloc (s : Interposer) (size : Word) : Option Buf × Interposer :=
  if BitVec.allOnes 64 - 15 < size then (none, s)
  else
    let need := (size + 15) &&& ~~~15
    if BitVec.allOnes 64 - staticChunk < need then (none, s)
    else
      let total := need + staticChunk
      if total ≤ staticBufferSize - s.staticBufferUsed then
        let chunk := s.staticBuffer + s.staticBufferUsed
        let mem := writeTag s.umem.mem chunk (fieldOf staticChunkMagic)
        let mem := writeTag mem (chunk + 8) (fieldOf need)
        (some ⟨chunk + staticChunk, size, .static, chunk, total⟩,
          { s with staticBufferUsed := s.staticBufferUsed + total, umem.mem := mem })
      else (none, s)

def isStaticPointer (s : Interposer) (ptr : Word) : Bool :=
  decide (s.staticBuffer ≤ ptr) && decide (ptr < s.staticBuffer + staticBufferSize)

def getStaticSize (s : Interposer) (ptr : Word) : Word :=
  let chunk := ptr - staticChunk
  if s.isStaticPointer chunk = false ∨ readField s.umem.mem chunk ≠ staticChunkMagic then 0
  else readField s.umem.mem (chunk + 8)

/-- `none` when the table is full. -/
def trackLibcPtr (s : Interposer) (ptr size : Word) : Option Interposer :=
  if ptr = 0 then none
  else (s.libcPtrs.put ptr size).map fun t =>
    { s with libcPtrs := t, libcPtrLive := s.libcPtrLive + 1 }

def isLibcPointer (s : Interposer) (ptr : Word) : Option Word :=
  if ptr = 0 then none
  else if s.libcPtrLive = 0 then none
  else s.libcPtrs.find ptr

def untrackLibcPtr (s : Interposer) (ptr : Word) : Interposer :=
  if ptr = 0 then s
  else if (s.libcPtrs.find ptr).isSome then
    { s with libcPtrs := s.libcPtrs.clear ptr, libcPtrLive := s.libcPtrLive - 1 }
  else s

def getBootstrapSize (s : Interposer) (ptr : Word) : Word :=
  if ptr = 0 then 0
  else if readField s.umem.mem (ptr - bootstrapHeader) ≠ bootstrapMagic then 0
  else bootstrapHeaderSize s.umem.mem ptr - bootstrapHeader

/-- The owner, the usable size and what the lookup leaves in the span cache. -/
def interposeOwnerOf (s : Interposer) (ptr : Word) : Owner × Word × SpanCache :=
  if ptr = 0 then (.unknown, 0, s.cache)
  else if s.isStaticPointer ptr then (.static, s.getStaticSize ptr, s.cache)
  else if bootstrapPointerP s.umem.boot ptr then (.bootstrap, s.getBootstrapSize ptr, s.cache)
  else
    match s.isLibcPointer ptr with
    | some size => (.libc, size, s.cache)
    | none =>
      if s.phase = .ready then
        match processFree s.heap s.cache s.umem ptr false with
        | (.dataSize size, _, cache) => (.umem, size, cache)
        | (_, _, cache) => (.unknown, 0, cache)
      else (.unknown, 0, s.cache)

/-- The first lines of `malloc`: while bootstrapping, initialise umem once it can be, and be ready
when it is. -/
def startUmem (env : Surroundings) (s : Interposer) : Interposer :=
  if s.phase = .bootstrap then
    let s :=
      if s.startup ∧ s.initAttempted = false then
        { s with initAttempted := true, startup := false, umem.ready := env.umemInit }
      else s
    if s.umem.ready then { s with phase := .ready } else s
  else s

/-- Take over what an allocation of malloc.c returned. -/
def took (s : Interposer) (req : Word) : Except Errno Returned → Option Buf × Interposer
  | .error _ => (none, s)
  | .ok r => (some (r.buf req), { s with umem := r.state })

def malloc (env : Surroundings) (s : Interposer) (size : Word) : Option Buf × Interposer :=
  if s.inDlsym then s.staticAlloc size
  else
    let s := s.startUmem env
    if s.phase = .ready then s.took size (umemMalloc env.alloc s.umem size)
    else s.took size (bootstrapAlloc env.alloc s.umem size)

def umemFree (s : Interposer) (ptr : Word) : Release × Interposer :=
  let (r, umem, cache) := umemMallocFree s.heap s.cache s.umem ptr
  (.umem r, { s with umem := umem, cache := cache })

def bootFree (s : Interposer) (ptr : Word) : Release × Interposer :=
  match bootstrapFree s.umem.boot ptr with
  | (boot, none) => (.umem .nothing, { s with umem.boot := boot })
  | (boot, some (hdr, size)) =>
    (.umem (.freed ⟨.bootstrap, hdr, size⟩), { s with umem.boot := boot })

/-- `none` when libc is handed a pointer that it did not return. -/
def free (env : Surroundings) (s : Interposer) (ptr : Word) : Option (Release × Interposer) :=
  if ptr = 0 then some (.umem .nothing, s)
  else if s.phase = .ready ∧ s.isStaticPointer ptr = false ∧ s.libcPtrLive = 0 then
    some (s.umemFree ptr)
  else
    let (owner, _, cache) := s.interposeOwnerOf ptr
    let s := { s with cache := cache }
    match owner with
    | .static => some (.static, s)
    | .bootstrap => some (s.bootFree ptr)
    | .libc =>
      let s := s.untrackLibcPtr ptr
      some (if s.libcFree then .libc ptr else .umem .nothing, s)
    | .umem => some (s.umemFree ptr)
    | .unknown =>
      if s.phase ≠ .ready then
        if s.libcFree then
          if env.libcOwns ptr then some (.libc ptr, s) else none
        else some (.umem .nothing, s)
      else some (s.umemFree ptr)

/-- The memory after `calloc_zero_fill`. -/
def zeroed (n : Word) : Option Buf × Interposer → Option Buf × Interposer
  | (none, s) => (none, s)
  | (some b, s) => (some b, { s with umem.mem := zeroFill s.umem.mem b.ptr n })

def calloc (env : Surroundings) (s : Interposer) (nelem elsize : Word) : Option Buf × Interposer :=
  if 0 < nelem ∧ 0 < elsize ∧ BitVec.allOnes 64 / elsize < nelem then (none, s)
  else
    let size := nelem * elsize
    if s.inDlsym then zeroed size (s.staticAlloc size)
    else if 0 < s.callocDepth then
      zeroed size (s.took size (bootstrapAlloc env.alloc s.umem size))
    else zeroed size (s.malloc env size)

/-- What `realloc` did: the pointer it returned, what it handed back, and what the inner `malloc`
returned, if it was called. -/
structure Realloced where
  ptr : Option Word
  state : Interposer
  released : List Release
  inner : Option (Option Buf)

def memcpy (s : Interposer) (dst src n : Word) : Interposer :=
  { s with umem.mem := copyCells s.umem.mem dst src n }

/-- The end of `realloc`: a new buffer, the contents, and only then the old buffer goes. -/
def replace (env : Surroundings) (s : Interposer) (ptr oldSize size : Word) : Option Realloced :=
  match s.malloc env size with
  | (none, s) => some ⟨none, s, [], some none⟩
  | (some b, s) =>
    let s := s.memcpy b.ptr ptr (if oldSize < size then oldSize else size)
    (s.free env ptr).map fun (rel, s) => ⟨some b.ptr, s, [rel], some (some b)⟩

/-- `none` when libc is handed a pointer that it did not return. -/
def realloc (env : Surroundings) (s : Interposer) (ptr size : Word) : Option Realloced :=
  if ptr = 0 then
    let (b, s) := s.malloc env size
    some ⟨b.map Buf.ptr, s, [], some b⟩
  else if size = 0 then (s.free env ptr).map fun (rel, s) => ⟨none, s, [rel], none⟩
  else
    let (owner, oldSize, cache) := s.interposeOwnerOf ptr
    let s := { s with cache := cache }
    match owner with
    | .umem => if size = oldSize then some ⟨some ptr, s, [], none⟩ else s.replace env ptr oldSize size
    | .static | .bootstrap | .libc =>
      -- "Recognized owner but unusable size: corrupt header."
      if oldSize = 0 then some ⟨none, s, [], none⟩ else s.replace env ptr oldSize size
    | .unknown =>
      if s.phase ≠ .ready ∧ s.libcRealloc then
        if env.libcOwns ptr then some ⟨env.libcRealloc ptr size, s, [], none⟩ else none
      else some ⟨none, s, [], none⟩

theorem replace_inner {env : Surroundings} {s : Interposer} {ptr oldSize size : Word} {r : Realloced}
    (h : s.replace env ptr oldSize size = some r) : r.inner = some (s.malloc env size).1 := by
  unfold replace at h
  split at h
  case h_1 s' heq =>
    obtain rfl := Option.some.inj h
    rw [heq]
  case h_2 b s' heq =>
    obtain ⟨rel, -, rfl⟩ := Option.map_eq_some_iff.mp h
    rw [heq]

/-- What `realloc` reports of the inner `malloc` is what a call of it returns, with the pointer cache
as the classifier has left it. -/
theorem realloc_inner {env : Surroundings} {s : Interposer} {ptr size : Word} {r : Realloced}
    {b : Option Buf} (h : s.realloc env ptr size = some r) (hb : r.inner = some b) :
    ∃ cache, (malloc env { s with cache := cache } size).1 = b := by
  have hreplace : ∀ cache oldSize, replace env { s with cache := cache } ptr oldSize size = some r →
      ∃ cache, (malloc env { s with cache := cache } size).1 = b := by
    intro cache oldSize hr
    exact ⟨cache, Option.some.inj ((replace_inner hr).symm.trans hb)⟩
  unfold realloc at h
  split at h
  · obtain rfl := Option.some.inj h
    exact ⟨s.cache, Option.some.inj hb⟩
  split at h
  · obtain ⟨rel, -, rfl⟩ := Option.map_eq_some_iff.mp h
    simp at hb
  dsimp only at h
  split at h <;> split_ifs at h <;> first
    | exact hreplace _ _ h
    | obtain rfl := Option.some.inj h
      simp at hb

def memalign (env : Surroundings) (s : Interposer) (align size : Word) : Option Buf × Interposer :=
  if align = 0 ∨ align &&& (align - 1) ≠ 0 then (none, s)
  else if s.phase = .ready then s.took size (umemMemalign env.alloc s.umem align size)
  else if s.phase = .bootstrap ∧ s.libcMemalign then
    match env.libcMemalign align size with
    | none => (none, s)
    | some ret =>
      match s.trackLibcPtr ret size with
      | none => (none, s)
      | some s => (some ⟨ret, size, .libc, ret, size⟩, s)
  else
    match s.took size (bootstrapAlloc env.alloc s.umem size) with
    | (none, s) => (none, s)
    | (some b, s) =>
      let pgsz := if env.pagesize ≠ 0 then env.pagesize else 4096
      if b.ptr &&& (align - 1) ≠ 0 ∨ pgsz < align then (none, (s.bootFree b.ptr).2)
      else (some b, s)

/-- The pointer that `posix_memalign` stores, when it returns 0. -/
def posixMemalign (env : Surroundings) (s : Interposer) (alignment size : Word) :
    Option Buf × Interposer :=
  if alignment = 0 ∨ alignment &&& (alignment - 1) ≠ 0 ∨ alignment % 8 ≠ 0 then (none, s)
  else s.memalign env alignment size

end Interposer
end Libumem.Malloc
