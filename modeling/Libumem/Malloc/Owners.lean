import Libumem.Malloc.DoubleFree
import Libumem.Malloc.FastFree
import Libumem.Malloc.Interpose

/-!
# Who owns a pointer

Every pointer that the interposer returned and that was not freed stands in its block behind what
its owner wrote there, and is in its owner's table; the blocks do not overlap. So each of the four
owners is found, whatever phase the pointer was allocated in.
-/

namespace Libumem.Malloc
open Function List Arith Lib Vmem
section
variable {heap : HeapView} {cache : SpanCache} {mem mem' : Mem} {a ptr dataSize : Word}
  {block : Obtained}

theorem readField_of_readTag {w : Word} (h : readTag mem a = fieldOf w) : readField mem a = w := by
  rw [readField, h]
  exact size_of_halves w

/-- A magic number and a size in front of a buffer. -/
def Header (mem : Mem) (base magic size : Word) : Prop :=
  readTag mem base = fieldOf magic ∧ readTag mem (base + 8) = fieldOf size

theorem header_writeTags (mem : Mem) (base magic size : Word) :
    Header (writeTag (writeTag mem base (fieldOf magic)) (base+8) (fieldOf size)) base magic size :=
  ⟨readTag_writeTag_next.trans readTag_writeTag, readTag_writeTag⟩

theorem Header.congr {base magic size : Word} (h : Header mem base magic size)
    (hroom : base.toNat+16 < 2^64)
    (hsame : ∀ a, base ≤ a → a < base+16 → mem' a = mem a) : Header mem' base magic size := by
  have hcell : ∀ k : Word, k < 16 → mem' (base+k) = mem (base+k) := fun k hk =>
    hsame _ (by bv_omega) (by bv_omega)
  have h0 : mem' base = mem base := hsame base (BitVec.le_refl _) (by bv_omega)
  have h12 : base+8+4 = base+12 := by bv_omega
  refine ⟨?_, ?_⟩
  · rw [← h.1]
    exact readTag_congr h0 (hcell 4 (by decide))
  · rw [← h.2]
    refine readTag_congr (hcell 8 (by decide)) ?_
    rw [h12]
    exact hcell 12 (by decide)

theorem poisonTags_changed {c : Claimed} {a : Word} (hd : decodeTags heap mem ptr = .ok c)
    (hplace : c.base.toNat+8 ≤ ptr.toNat)
    (ha : poisonTags mem c.poisonLo c.npoison a ≠ mem a) : c.base ≤ a ∧ a < ptr := by
  rcases decodeTags_poison hd with ⟨hlo, hn⟩ | ⟨hlo, hn, hbase⟩
  · rw [hn, hlo, poisonTags, poisonTags] at ha
    have : a = ptr-tagSize+4 := by
      by_contra hne
      exact ha (update_of_ne hne _ _)
    rw [this, tagSize]
    bv_omega
  · rw [hn, hlo, poisonTags, poisonTags, poisonTags] at ha
    have : a = ptr-2 * tagSize+tagSize+4 ∨ a = ptr-2 * tagSize+4 := by
      by_contra hne
      rw [not_or] at hne
      rw [update_of_ne hne.1, update_of_ne hne.2] at ha
      exact ha rfl
    rw [hbase, hlo] at hplace ⊢
    simp only [tagSize] at this hplace ⊢
    rcases this with rfl | rfl <;> bv_omega

theorem umemMallocFree_frame {s : State} (hw : heap.WellFormed)
    (hh : heap.Holds block.base block.size) (hbase : block.base ≠ 0) (hptr : ptr ≠ 0)
    (hboot : bootstrapPointerP s.boot ptr = false) (ht : Tagged s.mem ptr block dataSize)
    (hbound : block.base.toNat+block.size.toNat < 2^64) :
    ∃ mem cache', umemMallocFree heap cache s ptr = (.freed block, { s with mem := mem }, cache') ∧
      ∀ a, mem a ≠ s.mem a → block.base ≤ a ∧ a < ptr := by
  have hplace := (ht.place hbound).1
  have hslow : ∀ {cache mem cache'},
      processFreeUmem heap cache s.mem ptr true = (.freed block, mem, cache') →
      ∀ a, mem a ≠ s.mem a → block.base ≤ a ∧ a < ptr := by
    intro cache mem cache' hpf a ha
    obtain ⟨c, cache'', hd, hblock, hpf'⟩ := processFreeUmem_eq_freed (by rw [hpf])
    rw [hpf, Prod.mk.injEq, Prod.mk.injEq] at hpf'
    have hb : c.base = block.base := by rw [← hblock]; rfl
    rw [hpf'.2.1] at ha
    rw [← hb] at hplace ⊢
    exact poisonTags_changed hd hplace ha
  unfold umemMallocFree
  rw [if_neg hptr, hboot, if_neg (by simp)]
  split
  · rename_i got mem cache' hpair
    have hgot := mallocFreeFast_tagged ht (by rw [hpair])
    simp only at hgot
    subst hgot
    exact ⟨mem, cache', rfl, hslow (mallocFreeFast_some hpair)⟩
  · rename_i cache' hpair
    rcases hpf : processFreeUmem heap cache' s.mem ptr true with ⟨r, mem, cache''⟩
    have hr : r = .freed block := by
      have := @processFreeUmem_tagged heap cache' s.mem ptr dataSize block hw hh hbase ht true
      rw [hpf] at this
      exact this
    subst hr
    exact ⟨mem, cache'', rfl, hslow hpf⟩

end

namespace Buf

def owner (b : Buf) : Owner :=
  match b.home with
  | .static => .static
  | .bootstrap => .bootstrap
  | .libc => .libc
  | .umem | .memalign => .umem

/-- What `interpose_owner_of` has to report as the size. -/
def usable (b : Buf) : Word :=
  match b.home with
  | .static => b.size - staticChunk
  | _ => b.req

/-- What a free has to do. -/
def release (b : Buf) : Release :=
  match b.home with
  | .static => .static
  | .libc => .libc b.ptr
  | .bootstrap => .umem (.freed ⟨.bootstrap, b.base, b.size⟩)
  | .umem => .umem (.freed ⟨.umem, b.base, b.size⟩)
  | .memalign => .umem (.freed ⟨.memalignArena, b.base, b.size⟩)

def lo (b : Buf) : Nat := b.base.toNat

def hi (b : Buf) : Nat := b.base.toNat + b.size.toNat

def Apart (b c : Buf) : Prop := b.hi ≤ c.lo ∨ c.hi ≤ b.lo

instance : Std.Symm Buf.Apart := ⟨fun _ _ h => Or.symm h⟩

/-- The pointer is where its owner looks for it. -/
def At (s : Interposer) (b : Buf) : Prop :=
  match b.home with
  | .static => b.ptr = b.base + staticChunk ∧
      b.size.toNat = (b.req.toNat + 15) / 16 * 16 + 16 ∧
      s.staticBuffer.toNat ≤ b.lo ∧ b.hi ≤ s.staticBuffer.toNat + s.staticBufferUsed.toNat ∧
      Header s.umem.mem b.base staticChunkMagic (b.size - staticChunk)
  | .bootstrap => b.ptr = b.base + bootstrapHeader ∧ b.size.toNat = b.req.toNat + 16 ∧
      Header s.umem.mem b.base bootstrapMagic b.size ∧
      s.umem.boot.ptrs.find b.ptr = some b.size
  | .libc => b.base = b.ptr ∧ b.size = b.req ∧ s.libcPtrs.find b.ptr = some b.req
  | .umem => s.phase = .ready ∧ Tagged s.umem.mem b.ptr ⟨.umem, b.base, b.size⟩ b.req ∧
      s.heap.Holds b.base b.size
  | .memalign => s.phase = .ready ∧
      Tagged s.umem.mem b.ptr ⟨.memalignArena, b.base, b.size⟩ b.req ∧
      s.heap.Holds b.base b.size

/-- The pointer right behind the static buffer: a chunk without bytes at its end. -/
def PastEnd (s : Interposer) (b : Buf) : Prop :=
  b.home = .static ∧ b.ptr.toNat = s.staticBuffer.toNat + 4096

end Buf

/-- The block `[lo, hi)` does not touch the static buffer. -/
def Interposer.Beside (s : Interposer) (lo hi : Nat) : Prop :=
  hi < s.staticBuffer.toNat ∨ s.staticBuffer.toNat + 4096 < lo

theorem Interposer.Beside.congr {s s' : Interposer} {lo hi : Nat} (h : s.Beside lo hi)
    (hbuf : s'.staticBuffer = s.staticBuffer) : s'.Beside lo hi := by
  rwa [Beside, hbuf]

/-- What the tables and the static buffer are like between two calls. -/
structure Interposer.Tables (s : Interposer) (live : List Buf) : Prop where
  registry : s.umem.boot.WellFormed
  view : s.heap.WellFormed
  libcDistinct : s.libcPtrs.Distinct
  libcLive : s.libcPtrLive = s.libcPtrs.entries.length
  /-- The tables hold pointers in use only. -/
  libcEntries : ∀ e ∈ s.libcPtrs.entries, ∃ b ∈ live, b.home = .libc ∧ b.ptr = e.1
  bootEntries : ∀ e ∈ s.umem.boot.ptrs.entries, ∃ b ∈ live, b.home = .bootstrap ∧ b.ptr = e.1
  /-- `free` is resolved before `memalign` is. -/
  libcFree : (s.libcMemalign ∨ ∃ b ∈ live, b.home = .libc) → s.libcFree
  buffer : s.staticBuffer ≠ 0 ∧ s.staticBuffer.toNat + 4096 < 2 ^ 64 ∧
    s.staticBufferUsed.toNat ≤ 4096

/-- What holds of the interposer and the pointers in use between two calls. -/
structure Interposer.Inv (s : Interposer) (live : List Buf) : Prop extends s.Tables live where
  located : ∀ b ∈ live, b.At s
  bound : ∀ b ∈ live, b.base ≠ 0 ∧ b.hi < 2 ^ 64
  apart : live.Pairwise Buf.Apart
  distinct : (live.map Buf.ptr).Nodup
  beside : ∀ b ∈ live, b.home ≠ .static → s.Beside b.lo b.hi

/-- Nothing that `b` is found by has changed. -/
structure Interposer.Keeps (s s' : Interposer) (b : Buf) : Prop where
  words : ∀ a, b.base ≤ a → a < b.ptr → s'.umem.mem a = s.umem.mem a
  buffer : s'.staticBuffer = s.staticBuffer
  used : s.staticBufferUsed.toNat ≤ s'.staticBufferUsed.toNat
  holds : s.heap.Holds b.base b.size → s'.heap.Holds b.base b.size
  phase : s.phase = .ready → s'.phase = .ready
  boot : b.home = .bootstrap → s'.umem.boot.ptrs.find b.ptr = s.umem.boot.ptrs.find b.ptr
  libc : b.home = .libc → s'.libcPtrs.find b.ptr = s.libcPtrs.find b.ptr

namespace Buf
variable {s s' : Interposer} {b c : Buf}

theorem At.place (h : b.At s) (hbound : b.hi < 2^64) :
    b.lo ≤ b.ptr.toNat ∧ b.ptr.toNat+b.req.toNat ≤ b.hi ∧
      (b.home ≠ .libc → b.lo+8 ≤ b.ptr.toNat) := by
  unfold At at h
  unfold lo hi at *
  split at h
  · obtain ⟨hptr, hsize, -, -, -⟩ := h
    have : b.ptr.toNat = b.base.toNat+16 := by
      rw [hptr, staticChunk]
      bv_omega
    omega
  · obtain ⟨hptr, hsize, -, -⟩ := h
    have : b.ptr.toNat = b.base.toNat+16 := by
      rw [hptr, bootstrapHeader]
      bv_omega
    omega
  · rename_i hh
    obtain ⟨hbase, hsize, -⟩ := h
    rw [hbase, hsize]
    exact ⟨le_rfl, le_rfl, fun hn => absurd hh hn⟩
  · obtain ⟨-, ht, -⟩ := h
    obtain ⟨h1, -, -, h4⟩ := ht.place hbound
    simp only at h1 h4
    omega
  · obtain ⟨-, ht, -⟩ := h
    obtain ⟨h1, -, -, h4⟩ := ht.place hbound
    simp only at h1 h4
    omega

theorem At.keeps (h : b.At s) (hbound : b.hi < 2^64) (hk : s.Keeps s' b) : b.At s' := by
  unfold At at h ⊢
  split at h
  · obtain ⟨hptr, hsize, hlo, hhi, hheader⟩ := h
    have hused := hk.used
    rw [hk.buffer]
    refine ⟨hptr, hsize, hlo, by omega, hheader.congr ?_ ?_⟩
    · unfold hi at hbound
      omega
    · have hwords := hk.words
      rwa [hptr, staticChunk] at hwords
  · rename_i hh
    obtain ⟨hptr, hsize, hheader, hfind⟩ := h
    refine ⟨hptr, hsize, hheader.congr ?_ ?_, (hk.boot hh).trans hfind⟩
    · unfold hi at hbound
      omega
    · have hwords := hk.words
      rwa [hptr, bootstrapHeader] at hwords
  · rename_i hh
    exact ⟨h.1, h.2.1, (hk.libc hh).trans h.2.2⟩
  · exact ⟨hk.phase h.1, h.2.1.congr hbound hk.words, hk.holds h.2.2⟩
  · exact ⟨hk.phase h.1, h.2.1.congr hbound hk.words, hk.holds h.2.2⟩

end Buf

namespace Interposer
variable {s s' : Interposer} {live : List Buf} {b c nb : Buf}

/-- A table does not have a pointer that no buffer of its home has. -/
theorem find_none_of {t : Slots Word Word} {home : Home} {p : Word}
    (hentries : ∀ e ∈ t.entries, ∃ b ∈ live, b.home = home ∧ b.ptr = e.1)
    (hnew : ∀ b ∈ live, b.home = home → b.ptr ≠ p) : t.find p = none := by
  refine Slots.find_eq_none.mpr fun hmem => ?_
  obtain ⟨e, he, heq⟩ := mem_map.mp hmem
  obtain ⟨b, hb, hh, hptr⟩ := hentries e he
  exact hnew b hb hh (hptr.trans heq)

theorem isStaticPointer_iff (hbuf : s.staticBuffer.toNat+4096 < 2^64) (p : Word) :
    s.isStaticPointer p = true ↔
      s.staticBuffer.toNat ≤ p.toNat ∧ p.toNat < s.staticBuffer.toNat+4096 := by
  have hend : (s.staticBuffer+staticBufferSize).toNat = s.staticBuffer.toNat+4096 := by
    rw [staticBufferSize]
    bv_omega
  rw [isStaticPointer, Bool.and_eq_true, decide_eq_true_iff, decide_eq_true_iff, BitVec.le_def,
    BitVec.lt_def, hend]

namespace Inv

theorem nodup (h : s.Inv live) : live.Nodup := List.Nodup.of_map _ h.distinct

section
variable (h : s.Inv live) (hb : b ∈ live)
include h hb

theorem eq_of_ptr (hc : c ∈ live) (hptr : b.ptr = c.ptr) : b = c :=
  inj_on_of_nodup_map h.distinct hb hc hptr

theorem ne_zero : b.ptr ≠ 0 := by
  obtain ⟨hbase, hbound⟩ := h.bound b hb
  have hplace := ((h.located b hb).place hbound).1
  unfold Buf.lo at hplace
  bv_omega

theorem boot_find (hh : b.home ≠ .bootstrap) : s.umem.boot.ptrs.find b.ptr = none :=
  find_none_of h.bootEntries fun _ hc hch hptr => hh (h.eq_of_ptr hc hb hptr ▸ hch)

theorem libc_find (hh : b.home ≠ .libc) : s.libcPtrs.find b.ptr = none :=
  find_none_of h.libcEntries fun _ hc hch hptr => hh (h.eq_of_ptr hc hb hptr ▸ hch)

theorem isStaticPointer_eq : s.isStaticPointer b.ptr = true ↔ b.home = .static ∧ ¬ b.PastEnd s := by
  obtain ⟨hbase, hbound⟩ := h.bound b hb
  obtain ⟨hlo, hhi, -⟩ := (h.located b hb).place hbound
  obtain ⟨-, hbuf, hused⟩ := h.buffer
  rw [isStaticPointer_iff hbuf]
  by_cases hh : b.home = .static
  · have hat := h.located b hb
    unfold Buf.At at hat
    rw [hh] at hat
    obtain ⟨-, -, hstart, hstop, -⟩ := hat
    unfold Buf.PastEnd
    simp only [hh, true_and]
    constructor
    · omega
    · intro hne
      omega
  · have hbeside := h.beside b hb hh
    unfold Beside at hbeside
    simp only [hh, false_and, iff_false]
    omega

theorem getStaticSize_eq (hh : b.home = .static) : s.getStaticSize b.ptr = b.usable := by
  obtain ⟨-, hbuf, hused⟩ := h.buffer
  obtain ⟨-, hbound⟩ := h.bound b hb
  have hat := h.located b hb
  unfold Buf.At at hat
  rw [hh] at hat
  obtain ⟨hptr, hsize, hstart, hstop, hmagic, hheader⟩ := hat
  have hchunk : b.ptr-staticChunk = b.base := by rw [hptr, BitVec.add_sub_cancel]
  have hin : s.isStaticPointer b.base = true := by
    unfold Buf.lo at hstart
    unfold Buf.hi at hstop
    rw [isStaticPointer_iff hbuf]
    omega
  unfold getStaticSize
  dsimp only
  rw [hchunk, readField_of_readTag hmagic, readField_of_readTag hheader, if_neg (by simp [hin])]
  simp only [Buf.usable, hh]

theorem getBootstrapSize_eq (hh : b.home = .bootstrap) : s.getBootstrapSize b.ptr = b.usable := by
  obtain ⟨-, hbound⟩ := h.bound b hb
  have hat := h.located b hb
  unfold Buf.At at hat
  rw [hh] at hat
  obtain ⟨hptr, hsize, ⟨hmagic, hheader⟩, -⟩ := hat
  have hhdr : b.ptr-bootstrapHeader = b.base := by rw [hptr, BitVec.add_sub_cancel]
  have hat8 : b.ptr-8 = b.base+8 := by
    rw [hptr, bootstrapHeader]
    bv_omega
  have hread : bootstrapHeaderSize s.umem.mem b.ptr = b.size := by
    rw [bootstrapHeaderSize, hat8]
    exact readField_of_readTag hheader
  unfold getBootstrapSize
  rw [if_neg (h.ne_zero hb), hhdr, readField_of_readTag hmagic, if_neg (by simp), hread]
  simp only [Buf.usable, hh, bootstrapHeader]
  bv_omega

theorem isLibcPointer_eq :
    s.isLibcPointer b.ptr = if b.home = .libc then some b.usable else none := by
  unfold isLibcPointer
  rw [if_neg (h.ne_zero hb)]
  by_cases hh : b.home = .libc
  · have hat := h.located b hb
    unfold Buf.At at hat
    rw [hh] at hat
    obtain ⟨-, -, hfind⟩ := hat
    have hmem := (Slots.find_eq_some h.libcDistinct).mp hfind
    have hlive : s.libcPtrLive ≠ 0 := by
      have := length_pos_of_mem hmem
      rw [h.libcLive]
      omega
    rw [if_neg hlive, if_pos hh, hfind]
    simp only [Buf.usable, hh]
  · rw [h.libc_find hb hh, if_neg hh, ite_self]

theorem tagged (hh : b.owner = .umem) :
    ∃ origin, origin ≠ .bootstrap ∧ s.phase = .ready ∧
      Tagged s.umem.mem b.ptr ⟨origin, b.base, b.size⟩ b.req ∧ s.heap.Holds b.base b.size ∧
      b.release = .umem (.freed ⟨origin, b.base, b.size⟩) := by
  have hat := h.located b hb
  unfold Buf.At at hat
  unfold Buf.owner at hh
  unfold Buf.release
  split at hat
  all_goals rename_i hhome
  all_goals simp only [hhome, reduceCtorEq] at hh ⊢
  · exact ⟨.umem, by simp, hat.1, hat.2.1, hat.2.2, rfl⟩
  · exact ⟨.memalignArena, by simp, hat.1, hat.2.1, hat.2.2, rfl⟩

theorem bootstrapPointerP_eq :
    bootstrapPointerP s.umem.boot b.ptr = true ↔ b.home = .bootstrap := by
  rw [h.registry.pointerP_iff]
  constructor
  · intro hsome
    by_contra hh
    rw [h.boot_find hb hh] at hsome
    cases hsome
  · intro hh
    have hat := h.located b hb
    unfold Buf.At at hat
    rw [hh] at hat
    rw [hat.2.2.2]
    rfl

end

theorem usable_of_umem (hh : b.owner = .umem) : b.usable = b.req := by
  unfold Buf.owner at hh
  unfold Buf.usable
  split at hh <;> simp_all

theorem umem_eq (h : s.Inv live) (hb : b ∈ live) (hh : b.owner = .umem) :
    ∃ cache, (if s.phase = .ready then
        match processFree s.heap s.cache s.umem b.ptr false with
        | (.dataSize size, _, cache) => (.umem, size, cache)
        | (_, _, cache) => (.unknown, 0, cache)
      else (.unknown, 0, s.cache)) = (b.owner, b.usable, cache) := by
  obtain ⟨origin, -, hphase, ht, hholds, -⟩ := h.tagged hb hh
  have hboot : bootstrapPointerP s.umem.boot b.ptr ≠ true := by
    rw [ne_eq, h.bootstrapPointerP_eq hb]
    intro hb'
    simp [Buf.owner, hb'] at hh
  have hdata : (processFree s.heap s.cache s.umem b.ptr false).1 = .dataSize b.req := by
    unfold processFree
    rw [if_neg (by simp [hboot])]
    exact processFreeUmem_tagged h.view hholds (h.bound b hb).1 ht false
  rcases hpf : processFree s.heap s.cache s.umem b.ptr false with ⟨r, umem, cache⟩
  rw [hpf] at hdata
  simp only at hdata
  rw [if_pos hphase, hdata, hh, usable_of_umem hh]
  exact ⟨cache, rfl⟩

theorem owner_eq (h : s.Inv live) (hb : b ∈ live) (hend : ¬ b.PastEnd s) :
    ∃ cache, s.interposeOwnerOf b.ptr = (b.owner, b.usable, cache) := by
  have hstatic := h.isStaticPointer_eq hb
  have hboot := h.bootstrapPointerP_eq hb
  have hlibc := h.isLibcPointer_eq hb
  unfold interposeOwnerOf
  rw [if_neg (h.ne_zero hb)]
  cases hh : b.home with
  | static =>
    rw [if_pos (hstatic.mpr ⟨hh, hend⟩), h.getStaticSize_eq hb hh]
    exact ⟨s.cache, by simp only [Buf.owner, hh]⟩
  | bootstrap =>
    rw [if_neg (by simp [hstatic, hh]), if_pos (hboot.mpr hh), h.getBootstrapSize_eq hb hh]
    exact ⟨s.cache, by simp only [Buf.owner, hh]⟩
  | libc =>
    rw [if_neg (by simp [hstatic, hh]), if_neg (by simp [hboot, hh]), hlibc, if_pos hh]
    exact ⟨s.cache, by simp only [Buf.owner, hh]⟩
  | umem | memalign =>
    have hu : b.owner = .umem := by simp only [Buf.owner, hh]
    rw [if_neg (by simp [hstatic, hh]), if_neg (by simp [hboot, hh]), hlibc, if_neg (by simp [hh])]
    exact h.umem_eq hb hu

end Inv

/-- The states agree on memory and on all tables. -/
structure Quiet (s s' : Interposer) : Prop where
  mem : s'.umem.mem = s.umem.mem
  boot : s'.umem.boot = s.umem.boot
  heap : s'.heap = s.heap
  libcPtrs : s'.libcPtrs = s.libcPtrs
  libcPtrLive : s'.libcPtrLive = s.libcPtrLive
  libcFree : s'.libcFree = s.libcFree
  libcMemalign : s'.libcMemalign = s.libcMemalign
  staticBuffer : s'.staticBuffer = s.staticBuffer
  staticBufferUsed : s'.staticBufferUsed = s.staticBufferUsed
  phase : s.phase = .ready → s'.phase = .ready

/-! ## Freeing -/

/-- The state without `b`. -/
structure Freed (s s' : Interposer) (b : Buf) : Prop where
  mem : ∀ a, s'.umem.mem a ≠ s.umem.mem a → b.base ≤ a ∧ a < b.ptr
  boot : s'.umem.boot = (bootstrapFree s.umem.boot b.ptr).1
  libcPtrs : s'.libcPtrs = s.libcPtrs.clear b.ptr
  libcPtrLive : s'.libcPtrLive = s'.libcPtrs.entries.length
  heap : s'.heap = s.heap
  phase : s'.phase = s.phase
  staticBuffer : s'.staticBuffer = s.staticBuffer
  staticBufferUsed : s'.staticBufferUsed = s.staticBufferUsed
  libcFree : s'.libcFree = s.libcFree
  libcMemalign : s'.libcMemalign = s.libcMemalign

theorem Freed.ofCache {cache : SpanCache} (hf : Freed { s with cache := cache } s' b) :
    s.Freed s' b :=
  ⟨hf.mem, hf.boot, hf.libcPtrs, hf.libcPtrLive, hf.heap, hf.phase, hf.staticBuffer,
    hf.staticBufferUsed, hf.libcFree, hf.libcMemalign⟩

namespace Inv
section
variable (h : s.Inv live)
include h

theorem bootstrapFree_other (hb : b ∈ live) (hh : b.home ≠ .bootstrap) :
    (bootstrapFree s.umem.boot b.ptr).1 = s.umem.boot := by
  rw [bootstrapFree, h.boot_find hb hh]

theorem clear_other (hb : b ∈ live) (hh : b.home ≠ .libc) : s.libcPtrs.clear b.ptr = s.libcPtrs :=
  Slots.clear_of_find_none (h.libc_find hb hh)

theorem bootstrapFree_self (hb : b ∈ live) (hh : b.home = .bootstrap) :
    (bootstrapFree s.umem.boot b.ptr).2 = some (b.base, b.size) := by
  have hat := h.located b hb
  unfold Buf.At at hat
  rw [hh] at hat
  obtain ⟨hptr, -, -, hfind⟩ := hat
  rw [bootstrapFree, hfind, hptr]
  simp only [BitVec.add_sub_cancel]

theorem quiet (hq : s.Quiet s') : s'.Inv live where
  registry := by rw [hq.boot]; exact h.registry
  view := by rw [hq.heap]; exact h.view
  libcDistinct := by rw [hq.libcPtrs]; exact h.libcDistinct
  libcLive := by rw [hq.libcPtrs, hq.libcPtrLive]; exact h.libcLive
  libcEntries := by rw [hq.libcPtrs]; exact h.libcEntries
  bootEntries := by rw [hq.boot]; exact h.bootEntries
  libcFree := by rw [hq.libcFree, hq.libcMemalign]; exact h.libcFree
  buffer := by rw [hq.staticBuffer, hq.staticBufferUsed]; exact h.buffer
  located b hb := (h.located b hb).keeps (h.bound b hb).2
    ⟨fun _ _ _ => by rw [hq.mem], hq.staticBuffer, by rw [hq.staticBufferUsed],
      by rw [hq.heap]; exact id, hq.phase, fun _ => by rw [hq.boot], fun _ => by rw [hq.libcPtrs]⟩
  bound := h.bound
  apart := h.apart
  distinct := h.distinct
  beside b hb hh := (h.beside b hb hh).congr hq.staticBuffer

theorem setCache (cache : SpanCache) : ({ s with cache := cache }).Inv live :=
  h.quiet ⟨rfl, rfl, rfl, rfl, rfl, rfl, rfl, rfl, rfl, id⟩

theorem umemFree_umem (hb : b ∈ live) (hh : b.owner = .umem) :
    (s.umemFree b.ptr).1 = b.release ∧ Freed s (s.umemFree b.ptr).2 b := by
  obtain ⟨origin, horigin, -, ht, hholds, hrelease⟩ := h.tagged hb hh
  have hhome : b.home ≠ .bootstrap ∧ b.home ≠ .libc := by
    constructor <;> (intro hb'; simp [Buf.owner, hb'] at hh)
  have hboot : bootstrapPointerP s.umem.boot b.ptr = false := by
    rw [← Bool.not_eq_true, h.bootstrapPointerP_eq hb]
    exact hhome.1
  obtain ⟨mem, cache, hrun, hframe⟩ := @umemMallocFree_frame s.heap s.cache b.ptr b.req
    ⟨origin, b.base, b.size⟩ s.umem h.view hholds (h.bound b hb).1 (h.ne_zero hb) hboot ht
    (h.bound b hb).2
  have heq : s.umemFree b.ptr =
      (b.release, { s with umem := { s.umem with mem := mem }, cache := cache }) := by
    rw [umemFree, hrun, hrelease]
  rw [heq]
  exact ⟨rfl, hframe, (h.bootstrapFree_other hb hhome.1).symm, (h.clear_other hb hhome.2).symm,
    h.libcLive, rfl, rfl, rfl, rfl, rfl, rfl⟩

theorem bootFree_boot (hb : b ∈ live) (hh : b.home = .bootstrap) :
    (s.bootFree b.ptr).1 = b.release ∧ Freed s (s.bootFree b.ptr).2 b := by
  have hlibc : b.home ≠ .libc := by simp [hh]
  have heq : s.bootFree b.ptr = (b.release,
      { s with umem.boot := (bootstrapFree s.umem.boot b.ptr).1 }) := by
    unfold bootFree
    rcases hf : bootstrapFree s.umem.boot b.ptr with ⟨boot, got⟩
    have hgot := h.bootstrapFree_self hb hh
    rw [hf] at hgot
    simp only at hgot
    simp only [hgot, Buf.release, hh]
  rw [heq]
  exact ⟨rfl, fun _ ha => absurd rfl ha, rfl, (h.clear_other hb hlibc).symm, h.libcLive, rfl, rfl,
    rfl, rfl, rfl, rfl⟩

theorem umemFree_boot (hb : b ∈ live) (hh : b.home = .bootstrap) :
    s.umemFree b.ptr = s.bootFree b.ptr := by
  unfold umemFree umemMallocFree bootFree
  rw [if_neg (h.ne_zero hb), if_pos ((h.bootstrapPointerP_eq hb).mpr hh)]
  rcases bootstrapFree s.umem.boot b.ptr with ⟨boot, _ | got⟩ <;> rfl

theorem untrack_libc (hb : b ∈ live) (hh : b.home = .libc) :
    Freed s (s.untrackLibcPtr b.ptr) b ∧ (s.untrackLibcPtr b.ptr).libcFree = true := by
  have hat := h.located b hb
  unfold Buf.At at hat
  rw [hh] at hat
  obtain ⟨-, -, hfind⟩ := hat
  have hlen := (Slots.entries_clear hfind).length_eq
  have hboot : b.home ≠ .bootstrap := by simp [hh]
  unfold untrackLibcPtr
  rw [if_neg (h.ne_zero hb), hfind, if_pos Option.isSome_some]
  refine ⟨⟨fun _ ha => absurd rfl ha, (h.bootstrapFree_other hb hboot).symm, rfl, ?_, rfl, rfl, rfl,
    rfl, rfl, rfl⟩, h.libcFree (.inr ⟨b, hb, hh⟩)⟩
  have hlive := h.libcLive
  simp only [length_cons] at hlen ⊢
  omega

end
end Inv

section
variable {boot : Bootstrap} {buf p : Word} {t : Slots Word Word} {e : Word × Word}

theorem bootstrapFree_find (hne : p ≠ buf) :
    (bootstrapFree boot buf).1.ptrs.find p = boot.ptrs.find p := by
  unfold bootstrapFree
  split
  · rfl
  · exact Slots.find_clear_of_ne hne

theorem mem_clear (hd : t.Distinct) (he : e ∈ (t.clear p).entries) : e ∈ t.entries ∧ e.1 ≠ p := by
  have hfind := (Slots.find_eq_some hd.clear).mpr (show (e.1, e.2) ∈ _ from he)
  by_cases hp : e.1 = p
  · exfalso
    cases hf : t.find p with
    | none =>
      rw [Slots.clear_of_find_none hf, hp, hf] at hfind
      cases hfind
    | some v =>
      have hnodup := ((Slots.entries_clear hf).map Prod.fst).nodup_iff.mp hd
      refine (nodup_cons.mp hnodup).1 (mem_map.mpr ⟨e, he, hp⟩)
  · rw [Slots.find_clear_of_ne hp] at hfind
    exact ⟨(Slots.find_eq_some hd).mp hfind, hp⟩

theorem mem_bootstrapFree (hw : boot.WellFormed)
    (he : e ∈ (bootstrapFree boot buf).1.ptrs.entries) : e ∈ boot.ptrs.entries ∧ e.1 ≠ buf := by
  unfold bootstrapFree at he
  split at he
  · rename_i hf
    refine ⟨he, fun hp => ?_⟩
    have hno := Slots.find_eq_none.mp hf
    exact hno (mem_map.mpr ⟨e, he, hp⟩)
  · exact mem_clear hw.distinct he

end

namespace Inv

theorem keeps_of_freed (h : s.Inv live) (hf : s.Freed s' b) (hb : b ∈ live) (hc : c ∈ live)
    (hne : c ≠ b) : s.Keeps s' c where
  words a hlo hhi := by
    by_contra hchanged
    obtain ⟨hblo, hbhi⟩ := hf.mem a hchanged
    obtain ⟨-, hcplace, -⟩ := (h.located c hc).place (h.bound c hc).2
    obtain ⟨-, hbplace, -⟩ := (h.located b hb).place (h.bound b hb).2
    have hapart := h.apart.forall hc hb hne
    unfold Buf.Apart Buf.lo at hapart
    unfold Buf.hi at hapart hcplace hbplace
    bv_omega
  buffer := hf.staticBuffer
  used := by rw [hf.staticBufferUsed]
  holds := by rw [hf.heap]; exact id
  phase := by rw [hf.phase]; exact id
  boot _ := by
    rw [hf.boot]
    exact bootstrapFree_find fun hp => hne (h.eq_of_ptr hc hb hp)
  libc _ := by
    rw [hf.libcPtrs]
    exact Slots.find_clear_of_ne fun hp => hne (h.eq_of_ptr hc hb hp)

theorem freed (h : s.Inv live) (hf : s.Freed s' b) (hb : b ∈ live) : s'.Inv (live.erase b) := by
  have hmem : ∀ {c}, c ∈ live.erase b → c ∈ live ∧ c ≠ b := fun hc =>
    ⟨mem_of_mem_erase hc, fun heq => h.nodup.not_mem_erase (heq ▸ hc)⟩
  have hsub : List.Sublist (live.erase b) live := erase_sublist
  refine ⟨⟨?_, ?_, ?_, hf.libcPtrLive, ?_, ?_, ?_, ?_⟩, ?_, ?_, h.apart.sublist hsub,
    h.distinct.sublist (hsub.map _), ?_⟩
  · rw [hf.boot]
    exact h.registry.free
  · rw [hf.heap]
    exact h.view
  · rw [hf.libcPtrs]
    exact h.libcDistinct.clear
  · intro e he
    rw [hf.libcPtrs] at he
    obtain ⟨he, hne⟩ := mem_clear h.libcDistinct he
    obtain ⟨c, hc, hch, hptr⟩ := h.libcEntries e he
    exact ⟨c, (mem_erase_of_ne fun heq => hne (by rw [← hptr, heq])).mpr hc, hch, hptr⟩
  · intro e he
    rw [hf.boot] at he
    obtain ⟨he, hne⟩ := mem_bootstrapFree h.registry he
    obtain ⟨c, hc, hch, hptr⟩ := h.bootEntries e he
    exact ⟨c, (mem_erase_of_ne fun heq => hne (by rw [← hptr, heq])).mpr hc, hch, hptr⟩
  · rw [hf.libcFree, hf.libcMemalign]
    exact fun hl => h.libcFree (hl.imp_right fun ⟨c, hc, hch⟩ => ⟨c, (hmem hc).1, hch⟩)
  · rw [hf.staticBuffer, hf.staticBufferUsed]
    exact h.buffer
  · intro c hc
    obtain ⟨hc, hne⟩ := hmem hc
    exact (h.located c hc).keeps (h.bound c hc).2 (h.keeps_of_freed hf hb hc hne)
  · exact fun c hc => h.bound c (hmem hc).1
  · exact fun c hc hch => (h.beside c (hmem hc).1 hch).congr hf.staticBuffer

/-- A free of a pointer in use hands it to the allocator it is from. -/
theorem free_eq (h : s.Inv live) (hb : b ∈ live) (hend : ¬ b.PastEnd s) (env : Surroundings) :
    ∃ s', s.free env b.ptr = some (b.release, s') ∧ s.Freed s' b := by
  have hstatic := h.isStaticPointer_eq hb
  unfold free
  rw [if_neg (h.ne_zero hb)]
  by_cases hfast : s.phase = .ready ∧ s.isStaticPointer b.ptr = false ∧ s.libcPtrLive = 0
  · rw [if_pos hfast]
    have hrelease : (s.umemFree b.ptr).1 = b.release ∧ s.Freed (s.umemFree b.ptr).2 b := by
      cases hh : b.home with
      | static =>
        rw [hstatic.mpr ⟨hh, hend⟩] at hfast
        exact absurd hfast.2.1 (by simp)
      | libc =>
        have hlibc := h.isLibcPointer_eq hb
        rw [isLibcPointer, if_pos hfast.2.2, ite_self, if_pos hh] at hlibc
        cases hlibc
      | bootstrap =>
        rw [h.umemFree_boot hb hh]
        exact h.bootFree_boot hb hh
      | umem | memalign => exact h.umemFree_umem hb (by simp only [Buf.owner, hh])
    exact ⟨_, congrArg some (Prod.ext hrelease.1 rfl), hrelease.2⟩
  · obtain ⟨cache, howner⟩ := h.owner_eq hb hend
    rw [if_neg hfast, howner]
    have hc := h.setCache cache
    cases hh : b.home with
    | static =>
      have hboot : b.home ≠ .bootstrap := by simp [hh]
      have hlibc : b.home ≠ .libc := by simp [hh]
      simp only [Buf.owner, Buf.release, hh]
      exact ⟨_, rfl, fun _ ha => absurd rfl ha, (h.bootstrapFree_other hb hboot).symm,
        (h.clear_other hb hlibc).symm, h.libcLive, rfl, rfl, rfl, rfl, rfl, rfl⟩
    | bootstrap =>
      obtain ⟨hrel, hf⟩ := hc.bootFree_boot hb hh
      simp only [Buf.owner, hh]
      exact ⟨_, congrArg some (Prod.ext hrel rfl), hf.ofCache⟩
    | libc =>
      obtain ⟨hf, hresolved⟩ := hc.untrack_libc hb hh
      simp only [Buf.owner, Buf.release, hh, hresolved, if_true]
      exact ⟨_, rfl, hf.ofCache⟩
    | umem | memalign =>
      obtain ⟨hrel, hf⟩ := hc.umemFree_umem hb (by simp only [Buf.owner, hh])
      simp only [Buf.owner, hh]
      exact ⟨_, congrArg some (Prod.ext hrel rfl), hf.ofCache⟩

end Inv

/-! ## Allocating -/

/-- `[base, base + size)` is free: it does not touch the static buffer, does not overlap a block in
use, and no pointer in use is in it or at its end. -/
structure Spare (s : Interposer) (live : List Buf) (base size : Word) : Prop where
  beside : s.Beside base.toNat (base.toNat + size.toNat)
  apart : ∀ b ∈ live, base.toNat + size.toNat ≤ b.lo ∨ b.hi ≤ base.toNat
  fresh : ∀ b ∈ live, ¬ (base < b.ptr ∧ b.ptr.toNat ≤ base.toNat + size.toNat)

/-- What the interposer relies on: the allocators under it return blocks that are free, umem's in
heap spans, and libc's pointers are its own. -/
structure Fits (s : Interposer) (live : List Buf) (env : Surroundings) : Prop where
  contract : env.alloc.Contract
  umemAlloc : ∀ size b, env.alloc.umemAlloc size = some b →
    s.Spare live b size ∧ s.heap.Holds b size
  vmemXalloc : ∀ size align phase b, env.alloc.vmemXalloc size align phase = some b →
    s.Spare live b size ∧ s.heap.Holds b size
  mmap : ∀ size b, env.alloc.mmap size = some b → s.Spare live b size
  libcMemalign : ∀ align size p, env.libcMemalign align size = some p →
    p ≠ 0 ∧ p.toNat + size.toNat < 2 ^ 64 ∧ s.Spare live p size ∧ ∀ b ∈ live, b.ptr ≠ p
  libcOwns : ∀ b ∈ live, env.libcOwns b.ptr = false

namespace Inv

theorem add (h : s.Inv live) (ht : s'.Tables (nb :: live)) (hk : ∀ b ∈ live, s.Keeps s' b)
    (hat : nb.At s') (hbound : nb.base ≠ 0 ∧ nb.hi < 2^64) (hapart : ∀ b ∈ live, nb.Apart b)
    (hptr : ∀ b ∈ live, b.ptr ≠ nb.ptr) (hbeside : nb.home ≠ .static → s.Beside nb.lo nb.hi)
    (hbuf : s'.staticBuffer = s.staticBuffer) : s'.Inv (nb :: live) := by
  refine ⟨ht, ?_, ?_, pairwise_cons.mpr ⟨hapart, h.apart⟩, ?_, ?_⟩
  · intro b hb
    rcases mem_cons.mp hb with rfl | hb
    · exact hat
    · exact (h.located b hb).keeps (h.bound b hb).2 (hk b hb)
  · intro b hb
    rcases mem_cons.mp hb with rfl | hb
    · exact hbound
    · exact h.bound b hb
  · rw [map_cons, nodup_cons]
    refine ⟨fun hmem => ?_, h.distinct⟩
    obtain ⟨b, hb, heq⟩ := mem_map.mp hmem
    exact hptr b hb heq
  · intro b hb hh
    rcases mem_cons.mp hb with rfl | hb
    · exact (hbeside hh).congr hbuf
    · exact (h.beside b hb hh).congr hbuf

theorem keeps_of_added (h : s.Inv live) (hb : b ∈ live) (hapart : nb.Apart b)
    (hnb : nb.ptr.toNat ≤ nb.hi)
    (hmem : ∀ a, s'.umem.mem a ≠ s.umem.mem a → nb.base ≤ a ∧ a < nb.ptr) :
    ∀ a, b.base ≤ a → a < b.ptr → s'.umem.mem a = s.umem.mem a := by
  intro a hlo hhi
  by_contra hchanged
  obtain ⟨hnlo, hnhi⟩ := hmem a hchanged
  obtain ⟨-, hplace, -⟩ := (h.located b hb).place (h.bound b hb).2
  unfold Buf.Apart Buf.lo at hapart
  unfold Buf.hi at hapart hplace hnb
  bv_omega

theorem tables_cons (h : s.Inv live)
    (hs : s'.heap = s.heap ∧ s'.staticBuffer = s.staticBuffer ∧ s'.libcFree = s.libcFree ∧
      s'.libcMemalign = s.libcMemalign)
    (hused : s'.staticBufferUsed.toNat≤4096) (hreg : s'.umem.boot.WellFormed)
    (hboot : ∀ e ∈ s'.umem.boot.ptrs.entries,
      e ∈ s.umem.boot.ptrs.entries ∨ nb.home = .bootstrap ∧ nb.ptr = e.1)
    (hdistinct : s'.libcPtrs.Distinct) (hlive : s'.libcPtrLive = s'.libcPtrs.entries.length)
    (hlibc : ∀ e ∈ s'.libcPtrs.entries, e ∈ s.libcPtrs.entries ∨ nb.home = .libc ∧ nb.ptr = e.1)
    (hresolved : nb.home = .libc → s.libcFree = true) : s'.Tables (nb :: live) := by
  obtain ⟨hheap, hbuffer, hfree, hmemalign⟩ := hs
  refine ⟨hreg, by rw [hheap]; exact h.view, hdistinct, hlive, ?_, ?_, ?_, ?_⟩
  · intro e he
    rcases hlibc e he with he | hnb
    · obtain ⟨b, hb, hrest⟩ := h.libcEntries e he
      exact ⟨b, mem_cons_of_mem _ hb, hrest⟩
    · exact ⟨nb, mem_cons_self, hnb⟩
  · intro e he
    rcases hboot e he with he | hnb
    · obtain ⟨b, hb, hrest⟩ := h.bootEntries e he
      exact ⟨b, mem_cons_of_mem _ hb, hrest⟩
    · exact ⟨nb, mem_cons_self, hnb⟩
  · rw [hfree, hmemalign]
    rintro (hl | ⟨b, hb, hh⟩)
    · exact h.libcFree (.inl hl)
    · rcases mem_cons.mp hb with rfl | hb
      · exact hresolved hh
      · exact h.libcFree (.inr ⟨b, hb, hh⟩)
  · rw [hbuffer]
    exact ⟨h.buffer.1, h.buffer.2.1, hused⟩

end Inv

theorem toNat_round16 {size : Word} (h : ¬ BitVec.allOnes 64-15 < size) :
    ((size+15) &&& ~~~15).toNat = (size.toNat+15)/16 * 16 := by
  have hmask : (~~~15 : Word) = -16 := by decide
  have hpow : IsPow2 (16 : Word) := ⟨4, by decide, rfl⟩
  have halign := toNat_p2align (size+15) hpow
  have hall : (BitVec.allOnes 64).toNat = 2^64-1 := BitVec.toNat_allOnes
  have hsum : (size+15).toNat = size.toNat+15 := by bv_omega
  rw [p2align, hsum] at halign
  have h16 : (16 : Word).toNat = 16 := rfl
  rw [hmask, halign, h16]
  omega

theorem staticAlloc_eq (s : Interposer) (size : Word) (hused : s.staticBufferUsed.toNat≤4096) :
    s.staticAlloc size = (none, s) ∨ ∃ total : Word,
      total.toNat = (size.toNat+15)/16 * 16+16 ∧
      s.staticBufferUsed.toNat+total.toNat ≤ 4096 ∧
      s.staticAlloc size =
        (some ⟨s.staticBuffer+s.staticBufferUsed+staticChunk, size, .static,
          s.staticBuffer+s.staticBufferUsed, total⟩,
        { s with
          staticBufferUsed := s.staticBufferUsed+total
          umem.mem := writeTag (writeTag s.umem.mem (s.staticBuffer+s.staticBufferUsed)
            (fieldOf staticChunkMagic)) (s.staticBuffer+s.staticBufferUsed+8)
            (fieldOf (total-staticChunk)) }) := by
  unfold staticAlloc
  split
  · exact .inl rfl
  rename_i hsize
  have hneed := toNat_round16 hsize
  have hall : (BitVec.allOnes 64).toNat = 2^64-1 := BitVec.toNat_allOnes
  dsimp only
  split
  · exact .inl rfl
  rename_i hover
  split
  · rename_i hroom
    generalize (size+15) &&& ~~~15 = need at *
    simp only [staticChunk, staticBufferSize] at *
    refine .inr ⟨need+16, ?_, ?_, ?_⟩
    · bv_omega
    · bv_omega
    · rw [BitVec.add_sub_cancel]
  · exact .inl rfl

/-- No block in use has changed. -/
def SameBlocks (s s' : Interposer) (live : List Buf) : Prop :=
  ∀ b ∈ live, ∀ a, b.base ≤ a → a.toNat < b.hi → s'.umem.mem a = s.umem.mem a

/-- What an allocation for `size` bytes may do: fail and change no memory in use, or return a new
buffer and change its block only. -/
def Allocates (s : Interposer) (live : List Buf) (size : Word) : Option Buf × Interposer → Prop
  | (none, s') => s'.Inv live ∧ s'.staticBuffer = s.staticBuffer ∧ s.SameBlocks s' live
  | (some b, s') => s'.Inv (b :: live) ∧ s'.staticBuffer = s.staticBuffer ∧ b.req = size ∧
      ∀ a, s'.umem.mem a ≠ s.umem.mem a → b.base ≤ a ∧ a.toNat < b.hi

namespace Inv

theorem staticAlloc (h : s.Inv live) (size : Word) : s.Allocates live size (s.staticAlloc size) := by
  obtain ⟨hbuf0, hbuf, hused⟩ := h.buffer
  obtain heq | ⟨total, htotal, hroom, heq⟩ := staticAlloc_eq s size hused
  · rw [heq]
    exact ⟨h, rfl, fun _ _ _ _ _ => rfl⟩
  rw [heq]
  have hchunk : (s.staticBuffer+s.staticBufferUsed).toNat =
      s.staticBuffer.toNat+s.staticBufferUsed.toNat := by bv_omega
  generalize s.staticBuffer+s.staticBufferUsed = chunk at *
  have hptr : (chunk+staticChunk).toNat = chunk.toNat+16 := by
    rw [staticChunk]
    bv_omega
  have husedsum : (s.staticBufferUsed+total).toNat =
      s.staticBufferUsed.toNat+total.toNat := by bv_omega
  have hmem : ∀ a, writeTag (writeTag s.umem.mem chunk (fieldOf staticChunkMagic)) (chunk+8)
      (fieldOf (total-staticChunk)) a ≠ s.umem.mem a → chunk ≤ a ∧ a < chunk+staticChunk := by
    intro a ha
    rcases writeTags_changed ha with rfl | rfl | rfl | rfl <;> rw [staticChunk] <;> bv_omega
  have hother : ∀ b ∈ live, b.hi ≤ chunk.toNat ∧ b.ptr.toNat ≤ chunk.toNat ∨
      s.staticBuffer.toNat+4096 < b.lo ∧ s.staticBuffer.toNat+4096 < b.ptr.toNat := by
    intro b hb
    obtain ⟨hlo, hhi, -⟩ := (h.located b hb).place (h.bound b hb).2
    by_cases hh : b.home = .static
    · have hat := h.located b hb
      unfold Buf.At at hat
      rw [hh] at hat
      have hstop := hat.2.2.2.1
      omega
    · have hbeside := h.beside b hb hh
      unfold Beside at hbeside
      omega
  have hapart : ∀ b ∈ live, Buf.Apart ⟨chunk+staticChunk, size, .static, chunk, total⟩ b := by
    intro b hb
    have := hother b hb
    unfold Buf.Apart Buf.lo Buf.hi at *
    simp only
    omega
  refine ⟨h.add (h.tables_cons ⟨rfl, rfl, rfl, rfl⟩ ?_ h.registry (fun _ => .inl) h.libcDistinct
    h.libcLive (fun _ => .inl) (by simp)) ?_ ?_ ?_ hapart ?_ ?_ rfl, rfl, rfl, ?_⟩
  · simp only
    omega
  · intro b hb
    refine ⟨h.keeps_of_added hb (hapart b hb) ?_ hmem, rfl, ?_, id, id, fun _ => rfl, fun _ => rfl⟩
    · simp only [Buf.hi]
      omega
    · simp only
      omega
  · refine ⟨rfl, htotal, ?_, ?_, header_writeTags _ _ _ _⟩
    · simp only [Buf.lo]
      omega
    · simp only [Buf.hi]
      omega
  · simp only [Buf.hi]
    constructor
    · bv_omega
    · omega
  · intro b hb heq
    have := hother b hb
    simp only at heq
    rw [heq] at this
    omega
  · intro hh
    exact absurd rfl hh
  · intro a ha
    obtain ⟨hlo, hhi⟩ := hmem a ha
    simp only [Buf.hi]
    bv_omega

end Inv

section
variable {env : Surroundings} {size align : Word} {r : Returned}

theorem bootstrapAlloc_eq_ok {alloc : Allocators} {u : State}
    (h : bootstrapAlloc alloc u size = .ok r) :
    ∃ hdr boot, alloc.mmap (size+bootstrapHeader) = some hdr ∧ size.toNat+16 < 2^64 ∧
      bootstrapRegister u.boot (hdr+bootstrapHeader) (size+bootstrapHeader) = some boot ∧
      r = ⟨hdr+bootstrapHeader, ⟨.bootstrap, hdr, size+bootstrapHeader⟩,
        { u with
          mem := writeTag (writeTag u.mem hdr (fieldOf bootstrapMagic)) (hdr+8)
            (fieldOf (size+bootstrapHeader))
          boot := boot }⟩ := by
  unfold bootstrapAlloc at h
  split at h
  · split_ifs at h
  rename_i buf total boot hm
  cases h
  obtain ⟨hdr, hmap, rfl, rfl, hover⟩ := bootstrapMalloc_eq_some hm
  have hsub : hdr+bootstrapHeader-bootstrapHeader = hdr := BitVec.add_sub_cancel _ _
  have hreg : bootstrapRegister u.boot (hdr+bootstrapHeader) (size+bootstrapHeader) =
      some boot := by
    unfold bootstrapMalloc at hm
    split at hm
    · cases hm
    · rw [hmap] at hm
      simp only [Option.bind_eq_bind, Option.bind_some, Option.bind_eq_some_iff, Option.pure_def,
        Option.some.injEq, Prod.mk.injEq, true_and] at hm
      obtain ⟨boot', hreg, rfl⟩ := hm
      exact hreg
  rw [hsub]
  exact ⟨hdr, boot, hmap, hover, hreg, rfl⟩

/-- A new bootstrap mapping is registered before anyone has its pointer. -/
theorem Inv.bootstrapAlloc (h : s.Inv live) (hfit : s.Fits live env)
    (hr : bootstrapAlloc env.alloc s.umem size = .ok r) :
    s.Allocates live size (some (r.buf size), { s with umem := r.state }) := by
  obtain ⟨hdr, boot, hmap, hover, hreg, rfl⟩ := bootstrapAlloc_eq_ok hr
  obtain ⟨hne, hbound, hpage⟩ := hfit.contract.mmap _ _ hmap
  obtain ⟨hbeside, hspare, hfresh⟩ := hfit.mmap _ _ hmap
  have htotal : (size+bootstrapHeader).toNat = size.toNat+16 := by
    rw [bootstrapHeader]
    bv_omega
  have hptr : (hdr+bootstrapHeader).toNat = hdr.toNat+16 := by
    simp only [bootstrapHeader] at htotal hbound ⊢
    bv_omega
  have hshape : hdr+bootstrapHeader &&& 4095 = bootstrapHeader := by
    have hphase := toNat_p2phase (hdr+bootstrapHeader) (q := 4096) ⟨12, by decide, rfl⟩
    have h4096 : (4096 : Word).toNat = 4096 := rfl
    rw [h4096, hptr] at hphase
    apply BitVec.eq_of_toNat_eq
    rw [show (16 : Nat) = bootstrapHeader.toNat from rfl] at hphase
    refine hphase.trans ?_
    have : bootstrapHeader.toNat = 16 := rfl
    omega
  have hnew : ∀ b ∈ live, b.ptr ≠ hdr+bootstrapHeader := by
    intro b hb heq
    refine hfresh b hb ⟨?_, ?_⟩
    · rw [heq, BitVec.lt_def]
      omega
    · rw [heq]
      omega
  have hkey := Slots.find_eq_none.mp (find_none_of h.bootEntries fun b hb _ => hnew b hb)
  have hmem : ∀ a, writeTag (writeTag s.umem.mem hdr (fieldOf bootstrapMagic)) (hdr+8)
      (fieldOf (size+bootstrapHeader)) a ≠ s.umem.mem a →
      hdr ≤ a ∧ a < hdr+bootstrapHeader := by
    intro a ha
    rcases writeTags_changed ha with rfl | rfl | rfl | rfl <;> rw [bootstrapHeader] <;> bv_omega
  have hwell : boot.WellFormed := by
    refine h.registry.register hshape ?_ hkey hreg
    rw [BitVec.le_def, htotal]
    exact Nat.le_add_left _ _
  obtain ⟨ptrs, hput, rfl⟩ := Option.map_eq_some_iff.mp hreg
  have hapart : ∀ b ∈ live, Buf.Apart
      ⟨hdr+bootstrapHeader, size, .bootstrap, hdr, size+bootstrapHeader⟩ b := hspare
  refine ⟨h.add (h.tables_cons ⟨rfl, rfl, rfl, rfl⟩ h.buffer.2.2 hwell ?_ h.libcDistinct h.libcLive
    (fun _ => .inl) (by simp [Returned.buf, Origin.home])) ?_ ?_ ⟨hne, hbound⟩ hapart hnew
    (fun _ => hbeside) rfl, rfl, rfl, ?_⟩
  · intro e he
    rcases mem_cons.mp ((Slots.entries_put hput).mem_iff.mp he) with rfl | he
    · exact .inr ⟨rfl, rfl⟩
    · exact .inl he
  · intro b hb
    refine ⟨h.keeps_of_added hb (hapart b hb) ?_ hmem, rfl, le_rfl, id, id, fun _ => ?_,
      fun _ => rfl⟩
    · simp only [Buf.hi]
      omega
    · exact Slots.find_put_of_ne (hnew b hb) hput
  · exact ⟨rfl, htotal, header_writeTags _ _ _ _, Slots.find_put_self h.registry.distinct hkey hput⟩
  · intro a ha
    obtain ⟨hlo, hhi⟩ := hmem a ha
    refine ⟨hlo, ?_⟩
    simp only [Buf.hi, Returned.buf]
    rw [BitVec.lt_def] at hhi
    omega

/-- A new buffer with its tags in front of it. -/
theorem Inv.tagAlloc {ptr : Word} {got : Obtained} {mem : Mem} (h : s.Inv live)
    (ht : Tagged mem ptr got size) (hphase : s.phase = .ready) (hbase : got.base ≠ 0)
    (hbound : got.base.toNat+got.size.toNat < 2^64) (hspare : s.Spare live got.base got.size)
    (hholds : s.heap.Holds got.base got.size)
    (hmem : ∀ a, mem a ≠ s.umem.mem a → got.base ≤ a ∧ a < ptr) :
    s.Allocates live size
      (some (Returned.buf ⟨ptr, got, { s.umem with mem := mem }⟩ size),
        { s with umem := { s.umem with mem := mem } }) := by
  have horigin : got.origin ≠ .bootstrap := by cases ht <;> simp
  have hhome : got.origin.home ≠ .static ∧ got.origin.home ≠ .libc ∧
      got.origin.home ≠ .bootstrap := by
    cases hg : got.origin <;> simp [Origin.home] at horigin hg ⊢
    exact horigin hg
  obtain ⟨hlo, hhi, -, hend⟩ := ht.place hbound
  have hptr : ptr.toNat ≤ got.base.toNat+got.size.toNat := by omega
  have hnew : ∀ b ∈ live, b.ptr ≠ ptr := by
    intro b hb heq
    refine hspare.fresh b hb ⟨?_, ?_⟩
    · rw [heq, BitVec.lt_def]
      omega
    · rw [heq]
      exact hptr
  have hat : Buf.At { s with umem := { s.umem with mem := mem } }
      ⟨ptr, size, got.origin.home, got.base, got.size⟩ := by
    rcases got with ⟨origin, base, gsize⟩
    cases origin with
    | umem => exact ⟨hphase, ht, hholds⟩
    | memalignArena => exact ⟨hphase, ht, hholds⟩
    | bootstrap => exact absurd rfl horigin
  have hapart : ∀ b ∈ live, Buf.Apart ⟨ptr, size, got.origin.home, got.base, got.size⟩ b :=
    hspare.apart
  refine ⟨h.add (h.tables_cons ⟨rfl, rfl, rfl, rfl⟩ h.buffer.2.2 h.registry (fun _ => .inl)
    h.libcDistinct h.libcLive (fun _ => .inl) (fun hl => absurd hl hhome.2.1)) ?_ hat
    ⟨hbase, hbound⟩ hapart hnew (fun _ => hspare.beside) rfl, rfl, rfl, ?_⟩
  · intro b hb
    exact ⟨h.keeps_of_added hb (hapart b hb) hptr hmem, rfl, le_rfl, id, id, fun _ => rfl,
      fun _ => rfl⟩
  · intro a ha
    obtain ⟨ha1, ha2⟩ := hmem a ha
    refine ⟨ha1, ?_⟩
    rw [BitVec.lt_def] at ha2
    simp only [Returned.buf, Buf.hi]
    omega

theorem Inv.umemMalloc (h : s.Inv live) (hfit : s.Fits live env) (hphase : s.phase = .ready)
    (hr : umemMalloc env.alloc s.umem size = .ok r) :
    s.Allocates live size (some (r.buf size), { s with umem := r.state }) := by
  have hcodec := (umemMalloc_codec hfit.contract hr).1
  rcases umemMalloc_eq_ok hr with hboot | ⟨ret, hover, halloc, rfl⟩
  · exact h.bootstrapAlloc hfit hboot
  · obtain ⟨ht, hbase, hbound, -⟩ := allocated_tagged hfit.contract (.inl hr) (by simp)
    obtain ⟨hspare, hholds⟩ := hfit.umemAlloc _ _ halloc
    exact h.tagAlloc ht hphase hbase hbound hspare hholds hcodec.tags

theorem Inv.umemMemalign (h : s.Inv live) (hfit : s.Fits live env) (hphase : s.phase = .ready)
    (hr : umemMemalign env.alloc s.umem align size = .ok r) :
    s.Allocates live size (some (r.buf size), { s with umem := r.state }) := by
  have hcodec := (umemMemalign_codec hfit.contract hr).1
  obtain ⟨-, ⟨-, hmalloc⟩ | ⟨-, buf, hover, halloc, rfl⟩⟩ := umemMemalign_eq_ok hr
  · exact h.umemMalloc hfit hphase hmalloc
  · obtain ⟨ht, hbase, hbound, -⟩ := allocated_tagged hfit.contract (.inr ⟨align, hr⟩) (by simp)
    obtain ⟨hspare, hholds⟩ := hfit.vmemXalloc _ _ _ _ halloc
    exact h.tagAlloc ht hphase hbase hbound hspare hholds hcodec.tags

theorem Inv.took {res : Except Errno Returned} (h : s.Inv live)
    (hok : ∀ r, res = .ok r →
      s.Allocates live size (some (r.buf size), { s with umem := r.state })) :
    s.Allocates live size (s.took size res) := by
  cases res with
  | error e => exact ⟨h, rfl, fun _ _ _ _ _ => rfl⟩
  | ok r => exact hok r rfl

theorem startUmem_quiet (env : Surroundings) (s : Interposer) : s.Quiet (s.startUmem env) := by
  unfold startUmem
  split
  · rename_i hphase
    have hp : s.phase ≠ .ready := by simp [hphase]
    dsimp only
    split <;> split <;>
      exact ⟨rfl, rfl, rfl, rfl, rfl, rfl, rfl, rfl, rfl, fun h => absurd h hp⟩
  · exact ⟨rfl, rfl, rfl, rfl, rfl, rfl, rfl, rfl, rfl, id⟩

theorem Fits.quiet (hfit : s.Fits live env) (hq : s.Quiet s') : s'.Fits live env := by
  have hspare : ∀ {base size}, s.Spare live base size → s'.Spare live base size := fun hsp =>
    ⟨hsp.beside.congr hq.staticBuffer, hsp.apart, hsp.fresh⟩
  refine ⟨hfit.contract, ?_, ?_, fun size b hb => hspare (hfit.mmap size b hb), ?_, hfit.libcOwns⟩
  · intro size b hb
    rw [hq.heap]
    exact (hfit.umemAlloc size b hb).imp_left hspare
  · intro size align phase b hb
    rw [hq.heap]
    exact (hfit.vmemXalloc size align phase b hb).imp_left hspare
  · intro align size p hp
    obtain ⟨h0, hbound, hsp, hfresh⟩ := hfit.libcMemalign align size p hp
    exact ⟨h0, hbound, hspare hsp, hfresh⟩

theorem Allocates.quiet {res : Option Buf × Interposer} (hq : s.Quiet s')
    (h : s'.Allocates live size res) : s.Allocates live size res := by
  rcases res with ⟨_ | b, s''⟩
  · obtain ⟨hinv, hbuf, hmem⟩ := h
    unfold SameBlocks at hmem
    rw [hq.mem] at hmem
    exact ⟨hinv, hbuf.trans hq.staticBuffer, hmem⟩
  · obtain ⟨hinv, hbuf, hreq, hmem⟩ := h
    rw [hq.mem] at hmem
    exact ⟨hinv, hbuf.trans hq.staticBuffer, hreq, hmem⟩

theorem Inv.malloc (h : s.Inv live) (hfit : s.Fits live env) (size : Word) :
    s.Allocates live size (s.malloc env size) := by
  unfold Interposer.malloc
  split
  · exact h.staticAlloc size
  · have hq := startUmem_quiet env s
    have h' := h.quiet hq
    have hfit' := hfit.quiet hq
    apply Allocates.quiet hq
    dsimp only
    split
    · rename_i hphase
      exact h'.took fun r hr => h'.umemMalloc hfit' hphase hr
    · exact h'.took fun r hr => h'.bootstrapAlloc hfit' hr

theorem Inv.payload {mem : Mem} (h : s.Inv live) (hb : b ∈ live)
    (hmem : ∀ a, mem a ≠ s.umem.mem a → b.ptr ≤ a ∧ a.toNat < b.hi) :
    ({ s with umem := { s.umem with mem := mem } }).Inv live := by
  refine { h with located := fun c hc => ?_ }
  refine (h.located c hc).keeps (h.bound c hc).2
    ⟨?_, rfl, le_rfl, id, id, fun _ => rfl, fun _ => rfl⟩
  intro a hlo hhi
  by_contra hchanged
  obtain ⟨hblo, hbhi⟩ := hmem a hchanged
  by_cases hcb : c = b
  · subst hcb
    bv_omega
  · obtain ⟨-, hcplace, -⟩ := (h.located c hc).place (h.bound c hc).2
    obtain ⟨hbplace, -⟩ := (h.located b hb).place (h.bound b hb).2
    have hapart := h.apart.forall hc hb hcb
    unfold Buf.Apart at hapart
    unfold Buf.lo at hapart hbplace
    unfold Buf.hi at hapart hcplace hbhi
    bv_omega

theorem zeroFill_changed {mem : Mem} {ptr n a : Word} (hn : ptr.toNat+n.toNat < 2^64)
    (h : zeroFill mem ptr n a ≠ mem a) : ptr ≤ a ∧ a.toNat < ptr.toNat+n.toNat := by
  unfold zeroFill at h
  split at h
  · bv_omega
  · exact absurd rfl h

theorem Allocates.zeroed {res : Option Buf × Interposer} (h : s.Allocates live size res) :
    s.Allocates live size (zeroed size res) := by
  rcases res with ⟨_ | b, s'⟩
  · exact h
  · obtain ⟨hinv, hbuf, rfl, hmem⟩ := h
    have hb : b ∈ b :: live := mem_cons_self
    have hbound := (hinv.bound b hb).2
    obtain ⟨hlo, hhi, -⟩ := (hinv.located b hb).place hbound
    have hzero : ∀ a, zeroFill s'.umem.mem b.ptr b.req a ≠ s'.umem.mem a →
        b.ptr ≤ a ∧ a.toNat < b.hi := by
      intro a ha
      obtain ⟨h1, h2⟩ := zeroFill_changed (by omega) ha
      exact ⟨h1, by omega⟩
    refine ⟨hinv.payload hb hzero, hbuf, rfl, fun a ha => ?_⟩
    by_cases hz : zeroFill s'.umem.mem b.ptr b.req a = s'.umem.mem a
    · exact hmem a fun heq => ha (hz.trans heq)
    · obtain ⟨h1, h2⟩ := hzero a hz
      unfold Buf.lo at hlo
      exact ⟨by bv_omega, h2⟩

theorem Inv.calloc (h : s.Inv live) (hfit : s.Fits live env) (nelem elsize : Word) :
    s.Allocates live (nelem * elsize) (s.calloc env nelem elsize) := by
  unfold Interposer.calloc
  split
  · exact ⟨h, rfl, fun _ _ _ _ _ => rfl⟩
  dsimp only
  split
  · exact (h.staticAlloc _).zeroed
  split
  · exact (h.took fun r hr => h.bootstrapAlloc hfit hr).zeroed
  · exact (h.malloc hfit _).zeroed

theorem Inv.trackLibcPtr {p : Word} (h : s.Inv live) (hresolved : s.libcMemalign = true)
    (hp : p ≠ 0 ∧ p.toNat+size.toNat < 2^64 ∧ s.Spare live p size ∧ ∀ b ∈ live, b.ptr ≠ p)
    (hs : s.trackLibcPtr p size = some s') :
    s.Allocates live size (some ⟨p, size, .libc, p, size⟩, s') := by
  obtain ⟨h0, hbound, hspare, hnew⟩ := hp
  unfold Interposer.trackLibcPtr at hs
  rw [if_neg h0] at hs
  obtain ⟨t, hput, rfl⟩ := Option.map_eq_some_iff.mp hs
  have hkey := Slots.find_eq_none.mp (find_none_of h.libcEntries fun b hb _ => hnew b hb)
  have hperm := Slots.entries_put hput
  have hlen : (t.entries.length : Int) = s.libcPtrLive+1 := by
    rw [hperm.length_eq, h.libcLive, length_cons]
    omega
  refine ⟨h.add (h.tables_cons ⟨rfl, rfl, rfl, rfl⟩ h.buffer.2.2 h.registry (fun _ => .inl)
    (h.libcDistinct.put hkey hput) hlen.symm ?_ (fun _ => h.libcFree (.inl hresolved))) ?_ ?_
    ⟨h0, hbound⟩ hspare.apart hnew (fun _ => hspare.beside) rfl, rfl, rfl,
    fun a ha => absurd rfl ha⟩
  · intro e he
    rcases mem_cons.mp (hperm.mem_iff.mp he) with rfl | he
    · exact .inr ⟨rfl, rfl⟩
    · exact .inl he
  · exact fun b hb => ⟨fun _ _ _ => rfl, rfl, le_rfl, id, id, fun _ => rfl,
      fun _ => Slots.find_put_of_ne (hnew b hb) hput⟩
  · exact ⟨rfl, rfl, Slots.find_put_self h.libcDistinct hkey hput⟩

theorem Allocates.sameBlocks (h : s.Allocates live size (some nb, s')) : s.SameBlocks s' live := by
  obtain ⟨hinv, -, -, hmem⟩ := h
  intro b hb a hlo hhi
  by_contra hchanged
  obtain ⟨hnlo, hnhi⟩ := hmem a hchanged
  have hapart := (pairwise_cons.mp hinv.apart).1 b hb
  unfold Buf.Apart Buf.lo at hapart
  bv_omega

theorem Inv.memalign (h : s.Inv live) (hfit : s.Fits live env) (align size : Word) :
    s.Allocates live size (s.memalign env align size) := by
  unfold Interposer.memalign
  split
  · exact ⟨h, rfl, fun _ _ _ _ _ => rfl⟩
  split
  · rename_i hphase
    exact h.took fun r hr => h.umemMemalign hfit hphase hr
  split
  · rename_i hlibc
    cases hm : env.libcMemalign align size with
    | none => exact ⟨h, rfl, fun _ _ _ _ _ => rfl⟩
    | some p =>
      simp only
      cases ht : s.trackLibcPtr p size with
      | none => exact ⟨h, rfl, fun _ _ _ _ _ => rfl⟩
      | some s' => exact h.trackLibcPtr hlibc.2 (hfit.libcMemalign _ _ _ hm) ht
  · cases hr : Malloc.bootstrapAlloc env.alloc s.umem size with
    | error e => exact ⟨h, rfl, fun _ _ _ _ _ => rfl⟩
    | ok r =>
      have halloc := h.bootstrapAlloc hfit hr
      have hhome : (r.buf size).home = .bootstrap := by
        obtain ⟨hdr, boot, -, -, -, rfl⟩ := bootstrapAlloc_eq_ok hr
        rfl
      simp only [Interposer.took]
      generalize (if env.pagesize ≠ 0 then env.pagesize else 4096) = pgsz
      split
      · -- the mapping is not aligned, and goes back
        have hb : r.buf size ∈ r.buf size :: live := mem_cons_self
        obtain ⟨-, hf⟩ := halloc.1.bootFree_boot hb hhome
        have hinv := halloc.1.freed hf hb
        rw [erase_cons_head] at hinv
        refine ⟨hinv, hf.staticBuffer, fun b hb a hlo hhi => ?_⟩
        rw [← halloc.sameBlocks b hb a hlo hhi]
        by_contra hchanged
        obtain ⟨h1, h2⟩ := hf.mem a hchanged
        have hapart := (pairwise_cons.mp halloc.1.apart).1 b hb
        have hplace := ((halloc.1.located _ mem_cons_self).place
          (halloc.1.bound _ mem_cons_self).2).2.1
        unfold Buf.Apart Buf.lo at hapart
        bv_omega
      · exact halloc

theorem Inv.posixMemalign (h : s.Inv live) (hfit : s.Fits live env) (alignment size : Word) :
    s.Allocates live size (s.posixMemalign env alignment size) := by
  unfold Interposer.posixMemalign
  split
  · exact ⟨h, rfl, fun _ _ _ _ _ => rfl⟩
  · exact h.memalign hfit alignment size

end
end Interposer
end Libumem.Malloc
