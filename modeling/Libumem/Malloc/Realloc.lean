import Libumem.Malloc.Owners

/-!
# The interposed realloc

`realloc` finds the old size from the owner of the pointer, copies into a new buffer and frees the
old one. For three of the four owners it takes a size of 0 for a corrupt header, but 0 is also what
they record for a request of 0 bytes: such a buffer can be freed, but not resized.
-/

namespace Libumem.Malloc
open List Option Arith Lib Vmem
namespace Interposer

/-- A buffer in use: there is room for the request, no other buffer has a byte of its block, and the
interposer knows whom it belongs to. -/
structure Serves (s : Interposer) (live : List Buf) (b : Buf) : Prop where
  room : b.lo ≤ b.ptr.toNat ∧ b.ptr.toNat + b.req.toNat ≤ b.hi
  apart : ∀ c ∈ live, c ≠ b → b.Apart c
  owner : ∃ usable cache, b.req ≤ usable ∧ s.interposeOwnerOf b.ptr = (b.owner, usable, cache)
  frees : ∀ env, ∃ s', s.free env b.ptr = some (b.release, s')

/-- What `realloc (b.ptr, n)` has to do: fail only when the inner `malloc` fails, and then leave the
buffer as it is; or return a buffer of `n` bytes with the contents, which is the same one, or for
which the old one has gone back to where it came from. -/
def ReallocSound (env : Surroundings) (s : Interposer) (live : List Buf) (b : Buf) (n : Word) :
    Prop :=
  ∃ r, s.realloc env b.ptr n = some r ∧
    match r.ptr with
    | none => r.inner = some none ∧ r.released = [] ∧
        (∀ a, b.base ≤ a → a.toNat < b.hi → r.state.umem.mem a = s.umem.mem a) ∧
        r.state.Serves live b
    | some q => ∃ nb : Buf, nb.ptr = q ∧ nb.req = n ∧
        (∀ i, i < b.req → i < n → r.state.umem.mem (q + i) = s.umem.mem (b.ptr + i)) ∧
        r.state.Serves (nb :: live.erase b) nb ∧
        (nb = b ∧ r.released = [] ∨ r.inner = some (some nb) ∧ r.released = [b.release])

variable {s s' : Interposer} {live : List Buf} {b c nb : Buf} {env : Surroundings} {n : Word}
namespace Inv

section

variable (h : s.Inv live) (hb : b ∈ live)

include h hb

theorem req_le_usable : b.req ≤ b.usable := by
  have hat := h.located b hb
  unfold Buf.usable
  split
  · rename_i hh
    unfold Buf.At at hat
    rw [hh] at hat
    have hsize := hat.2.1
    have hsub : (b.size-staticChunk).toNat = b.size.toNat-16 := by
      rw [staticChunk]
      bv_omega
    rw [BitVec.le_def, hsub]
    omega
  · exact BitVec.le_refl _

theorem usable_eq_zero : b.usable = 0 ↔ b.req = 0 := by
  have hat := h.located b hb
  unfold Buf.usable
  split
  · rename_i hh
    unfold Buf.At at hat
    rw [hh] at hat
    have hsize := hat.2.1
    rw [staticChunk]
    constructor
    · intro hz
      bv_omega
    · intro hz
      rw [hz] at hsize
      have h0 : (0 : Word).toNat = 0 := rfl
      bv_omega
  · exact Iff.rfl

theorem usable_le : b.ptr.toNat+b.usable.toNat ≤ b.hi := by
  have hat := h.located b hb
  have hplace := hat.place (h.bound b hb).2
  have hbound := (h.bound b hb).2
  unfold Buf.usable
  split
  · rename_i hh
    unfold Buf.At at hat
    rw [hh] at hat
    obtain ⟨hptr, hsize, -⟩ := hat
    rw [hptr, staticChunk]
    unfold Buf.hi at hbound ⊢
    bv_omega
  · exact hplace.2.1

theorem serves (hend : ¬ b.PastEnd s) : s.Serves live b := by
  obtain ⟨hlo, hhi, -⟩ := (h.located b hb).place (h.bound b hb).2
  obtain ⟨cache, howner⟩ := h.owner_eq hb hend
  refine ⟨⟨hlo, hhi⟩, fun c hc hne => h.apart.forall hb hc (Ne.symm hne),
    ⟨b.usable, cache, h.req_le_usable hb, howner⟩, fun env => ?_⟩
  obtain ⟨s', hfree, -⟩ := h.free_eq hb hend env
  exact ⟨s', hfree⟩

end

end Inv

theorem copyCells_changed {mem : Mem} {dst src k a : Word} (hk : dst.toNat+k.toNat < 2^64)
    (h : copyCells mem dst src k a ≠ mem a) : dst ≤ a ∧ a.toNat < dst.toNat+k.toNat := by
  unfold copyCells at h
  split at h
  · bv_omega
  · exact absurd rfl h

theorem copyCells_at {mem : Mem} {dst src k i : Word} (hi : i < k) :
    copyCells mem dst src k (dst+i) = mem (src+i) := by
  have hsub : dst+i-dst = i := by rw [BitVec.add_comm, BitVec.add_sub_cancel]
  rw [copyCells, hsub, if_pos hi]

theorem lt_min {i a b c : Word} (hac : a ≤ c) (hia : i < a) (hib : i < b) :
    i < if c < b then c else b := by
  split
  · bv_omega
  · exact hib

/-- The end of `realloc` on a buffer in use. -/
structure Replaced (s : Interposer) (live : List Buf) (b nb : Buf) (n : Word) (s' : Interposer) :
    Prop where
  inv : s'.Inv (nb :: live.erase b)
  req : nb.req = n
  buffer : s'.staticBuffer = s.staticBuffer
  contents : ∀ i, i < b.req → i < n → s'.umem.mem (nb.ptr + i) = s.umem.mem (b.ptr + i)

namespace Inv

theorem replaced (h : s.Inv live) (hb : b ∈ live) (hend : ¬ b.PastEnd s)
    (halloc : s.Allocates live n (some nb, s')) (env : Surroundings) :
    ∃ s'', (s'.memcpy nb.ptr b.ptr (if b.usable < n then b.usable else n)).free env b.ptr =
      some (b.release, s'') ∧ s.Replaced live b nb n s'' := by
  have hsame := halloc.sameBlocks
  obtain ⟨hinv, hbuf, rfl, -⟩ := halloc
  have hnb : nb ∈ nb :: live := mem_cons_self
  have hb' : b ∈ nb :: live := mem_cons_of_mem _ hb
  have hbound := (hinv.bound nb hnb).2
  obtain ⟨hnlo, hnhi, -⟩ := (hinv.located nb hnb).place hbound
  obtain ⟨hblo, hbhi, -⟩ := (hinv.located b hb').place (hinv.bound b hb').2
  generalize hk : (if b.usable < nb.req then b.usable else nb.req) = k
  have hkle : k.toNat ≤ nb.req.toNat := by
    rw [← hk]
    split
    · bv_omega
    · exact le_rfl
  have hcopy : (s'.memcpy nb.ptr b.ptr k).Inv (nb :: live) := hinv.payload hnb fun a ha => by
    obtain ⟨h1, h2⟩ := copyCells_changed (by omega) ha
    exact ⟨h1, by omega⟩
  have hne : nb ≠ b := fun heq => by
    have := (nodup_cons.mp hinv.nodup).1
    exact this (heq ▸ hb)
  have hend' : ¬ b.PastEnd (s'.memcpy nb.ptr b.ptr k) := by
    intro hp
    exact hend ⟨hp.1, hp.2.trans (by rw [← hbuf]; rfl)⟩
  obtain ⟨s'', hfree, hf⟩ := hcopy.free_eq hb' hend' env
  have hinv' := hcopy.freed hf hb'
  rw [erase_cons_tail (by simpa using hne)] at hinv'
  refine ⟨s'', hfree, hinv', rfl, hf.staticBuffer.trans hbuf, fun i hi hin => ?_⟩
  have hik : i < k := by
    rw [← hk]
    exact lt_min (h.req_le_usable hb) hi hin
  have hbcell : s'.umem.mem (b.ptr+i) = s.umem.mem (b.ptr+i) := by
    have hsum : (b.ptr+i).toNat = b.ptr.toNat+i.toNat := by
      have := (hinv.bound b hb').2
      bv_omega
    apply hsame b hb
    · unfold Buf.lo at hblo
      bv_omega
    · bv_omega
  have hncell : s''.umem.mem (nb.ptr+i) = copyCells s'.umem.mem nb.ptr b.ptr k (nb.ptr+i) := by
    by_contra hchanged
    obtain ⟨h1, h2⟩ := hf.mem _ hchanged
    have hapart := hinv.apart.forall hnb hb' hne
    unfold Buf.Apart at hapart
    unfold Buf.lo at hapart hblo hnlo
    unfold Buf.hi at hapart hbhi hnhi hbound
    bv_omega
  rw [hncell, copyCells_at hik, hbcell]

end Inv

/-- How `realloc` of a buffer in use ends. -/
inductive ReallocExit (s : Interposer) (live : List Buf) (b : Buf) (n : Word) : Realloced → Prop
  /-- The inner `malloc` failed. -/
  | failed {t : Interposer} (inv : t.Inv live) (buffer : t.staticBuffer = s.staticBuffer)
      (same : s.SameBlocks t live) : ReallocExit s live b n ⟨none, t, [], some none⟩
  | moved {c : Buf} {t : Interposer} (h : s.Replaced live b c n t) :
      ReallocExit s live b n ⟨some c.ptr, t, [b.release], some (some c)⟩
  /-- The buffer has the size already. -/
  | kept {t : Interposer} (size : b.req = n) (quiet : s.Quiet t) :
      ReallocExit s live b n ⟨some b.ptr, t, [], none⟩

namespace Inv

section

variable (h : s.Inv live)

include h

theorem replace_exit (hfit : s.Fits live env) (hb : b ∈ live) (hend : ¬ b.PastEnd s) :
    ∃ r, s.replace env b.ptr b.usable n = some r ∧ s.ReallocExit live b n r := by
  have halloc := h.malloc hfit n
  unfold Interposer.replace
  rcases hm : s.malloc env n with ⟨_ | nb, s'⟩
  · rw [hm] at halloc
    exact ⟨_, rfl, .failed halloc.1 halloc.2.1 halloc.2.2⟩
  · rw [hm] at halloc
    obtain ⟨s'', hfree, hr⟩ := h.replaced hb hend halloc env
    refine ⟨⟨some nb.ptr, s'', [b.release], some (some nb)⟩, ?_, .moved hr⟩
    simp only [hfree, map_some]

theorem pastEnd_req (hb : b ∈ live) (hend : b.PastEnd s) : b.req = 0 := by
  obtain ⟨hh, hptr⟩ := hend
  have hat := h.located b hb
  unfold Buf.At at hat
  rw [hh] at hat
  obtain ⟨hbase, hsize, -, hstop, -⟩ := hat
  have hbound := (h.bound b hb).2
  have hused := h.buffer.2.2
  have h16 : b.ptr.toNat = b.base.toNat+16 := by
    unfold Buf.hi at hbound
    rw [hbase, staticChunk]
    bv_omega
  unfold Buf.hi at hstop
  bv_omega

theorem not_pastEnd (hb : b ∈ live) (hgood : b.owner = .umem ∨ b.req ≠ 0) : ¬ b.PastEnd s := by
  intro hend
  rcases hgood with hu | hreq
  · simp [Buf.owner, hend.1] at hu
  · exact hreq (h.pastEnd_req hb hend)

theorem realloc_exit (hfit : s.Fits live env) (hb : b ∈ live) (hn : n ≠ 0)
    (hgood : b.owner = .umem ∨ b.req ≠ 0) :
    ∃ r, s.realloc env b.ptr n = some r ∧ s.ReallocExit live b n r := by
  have hend := h.not_pastEnd hb hgood
  obtain ⟨cache, howner⟩ := h.owner_eq hb hend
  have hq : s.Quiet { s with cache := cache } := ⟨rfl, rfl, rfl, rfl, rfl, rfl, rfl, rfl, rfl, id⟩
  have hreplace : ∃ r, ({ s with cache := cache }).replace env b.ptr b.usable n = some r ∧
      s.ReallocExit live b n r := by
    obtain ⟨r, hr, hexit⟩ := (h.setCache cache).replace_exit (n := n) (hfit.quiet hq) hb hend
    refine ⟨r, hr, ?_⟩
    cases hexit with
    | failed inv buffer same => exact .failed inv buffer same
    | moved hm => exact .moved ⟨hm.inv, hm.req, hm.buffer, hm.contents⟩
    | kept size quiet => exact .kept size ⟨quiet.mem, quiet.boot, quiet.heap, quiet.libcPtrs,
        quiet.libcPtrLive, quiet.libcFree, quiet.libcMemalign, quiet.staticBuffer,
        quiet.staticBufferUsed, quiet.phase⟩
  unfold Interposer.realloc
  rw [if_neg (h.ne_zero hb), if_neg hn, howner]
  have hother : b.owner ≠ .umem → b.usable ≠ 0 := fun hu =>
    fun hz => (hgood.resolve_left hu) ((h.usable_eq_zero hb).mp hz)
  cases hh : b.home with
  | static | bootstrap | libc =>
    simp only [Buf.owner, hh] at hother ⊢
    rw [if_neg (hother (by simp))]
    exact hreplace
  | umem | memalign =>
    have hu : b.usable = b.req := usable_of_umem (by simp only [Buf.owner, hh])
    simp only [Buf.owner, hh]
    split
    · rename_i hsize
      exact ⟨_, rfl, .kept (hu ▸ hsize.symm) hq⟩
    · exact hreplace

theorem decodeTags_pastEnd (hb : b ∈ live) (hend : b.PastEnd s) (c : Claimed) :
    decodeTags s.heap s.umem.mem b.ptr ≠ .ok c := by
  have hreq := h.pastEnd_req hb hend
  have hat := h.located b hb
  unfold Buf.At at hat
  rw [hend.1] at hat
  obtain ⟨hptr, hsize, -, -, -, hheader⟩ := hat
  have hzero : b.size-staticChunk = 0 := by
    rw [hreq] at hsize
    have h0 : (0 : Word).toNat = 0 := rfl
    rw [staticChunk]
    bv_omega
  have hsub : b.ptr-tagSize = b.base+8 := by
    rw [hptr, staticChunk, tagSize]
    bv_omega
  intro hok
  unfold decodeTags at hok
  dsimp only at hok
  rw [hsub, hheader, hzero] at hok
  split at hok
  · cases hok
  · rw [if_neg (by decide), if_neg (by decide), if_neg (by decide), if_neg (by decide),
      if_neg (by decide)] at hok
    cases hok

theorem owner_pastEnd (hb : b ∈ live) (hend : b.PastEnd s) :
    ∃ cache, s.interposeOwnerOf b.ptr = (.unknown, 0, cache) := by
  have hstatic : s.isStaticPointer b.ptr ≠ true := fun hs =>
    ((h.isStaticPointer_eq hb).mp hs).2 hend
  have hboot : bootstrapPointerP s.umem.boot b.ptr ≠ true := by
    rw [ne_eq, h.bootstrapPointerP_eq hb, hend.1]
    simp
  have hlibc := h.isLibcPointer_eq hb
  rw [if_neg (by simp [hend.1])] at hlibc
  unfold interposeOwnerOf
  rw [if_neg (h.ne_zero hb), if_neg hstatic, if_neg hboot, hlibc]
  dsimp only
  split
  · obtain ⟨e, hpf⟩ := processFreeUmem_refuses s.cache (h.decodeTags_pastEnd hb hend) false
    unfold processFree
    rw [if_neg (by simp [hboot]), hpf]
    exact ⟨_, rfl⟩
  · exact ⟨_, rfl⟩

end

section
variable (h : s.Inv live) (hfit : s.Fits live env) (hb : b ∈ live)
include h hfit hb

theorem realloc_refused (hn : n ≠ 0) (hbad : ¬ (b.owner = .umem ∨ b.req ≠ 0)) :
    s.realloc env b.ptr n = none ∨
      ∃ cache, s.realloc env b.ptr n = some ⟨none, { s with cache := cache }, [], none⟩ := by
  rw [not_or, not_not] at hbad
  unfold Interposer.realloc
  rw [if_neg (h.ne_zero hb), if_neg hn]
  by_cases hend : b.PastEnd s
  · obtain ⟨cache, howner⟩ := h.owner_pastEnd hb hend
    rw [howner]
    dsimp only
    split
    · rw [hfit.libcOwns b hb, if_neg (by simp)]
      exact .inl rfl
    · exact .inr ⟨cache, rfl⟩
  · obtain ⟨cache, howner⟩ := h.owner_eq hb hend
    rw [howner, (h.usable_eq_zero hb).mpr hbad.2]
    cases hh : b.home with
    | static | bootstrap | libc => exact .inr ⟨cache, by simp only [Buf.owner, hh, if_true]⟩
    | umem | memalign => exact absurd (by simp only [Buf.owner, hh]) hbad.1

theorem reallocSound_iff (hn : n ≠ 0) :
    ReallocSound env s live b n ↔ b.owner = .umem ∨ b.req ≠ 0 := by
  constructor
  · rintro ⟨r, hr, hsound⟩
    by_contra hbad
    rcases h.realloc_refused hfit hb hn hbad with hnone | ⟨cache, hsome⟩
    · rw [hnone] at hr
      cases hr
    · rw [hsome] at hr
      cases hr
      cases hsound.1
  · intro hgood
    have hend := h.not_pastEnd hb hgood
    obtain ⟨r, hr, hexit⟩ := h.realloc_exit hfit hb hn hgood
    refine ⟨r, hr, ?_⟩
    have hstill : ∀ {t : Interposer}, t.staticBuffer = s.staticBuffer → ¬ b.PastEnd t := by
      intro t ht hp
      exact hend ⟨hp.1, by rw [← ht]; exact hp.2⟩
    cases hexit with
    | failed inv buffer same =>
      exact ⟨rfl, rfl, same b hb, inv.serves hb (hstill buffer)⟩
    | @moved nb t hm =>
      have hnb : nb ∈ nb :: live.erase b := mem_cons_self
      refine ⟨nb, rfl, hm.req, hm.contents, hm.inv.serves hnb ?_, .inr ⟨rfl, rfl⟩⟩
      exact hm.inv.not_pastEnd hnb (.inr (by rw [hm.req]; exact hn))
    | kept size quiet =>
      have hinv := h.quiet quiet
      have hserves := hinv.serves hb (hstill quiet.staticBuffer)
      refine ⟨b, rfl, size, fun i _ _ => by rw [quiet.mem], ?_, .inl ⟨rfl, rfl⟩⟩
      refine ⟨hserves.room, fun c hc hne => ?_, hserves.owner, hserves.frees⟩
      exact hserves.apart c (mem_of_mem_erase ((mem_cons.mp hc).resolve_left hne)) hne

theorem free_pastEnd (hend : b.PastEnd s) :
    s.free env b.ptr = none ∨ ∃ rel s', s.free env b.ptr = some (rel, s') ∧ s.Freed s' b := by
  have hhome : b.home ≠ .bootstrap ∧ b.home ≠ .libc := by simp [hend.1]
  have hsame : ∀ cache, s.Freed { s with cache := cache } b := fun cache =>
    ⟨fun _ ha => absurd rfl ha, (h.bootstrapFree_other hb hhome.1).symm,
      (h.clear_other hb hhome.2).symm, h.libcLive, rfl, rfl, rfl, rfl, rfl, rfl⟩
  have hboot : bootstrapPointerP s.umem.boot b.ptr = false := by
    rw [← Bool.not_eq_true, h.bootstrapPointerP_eq hb]
    exact hhome.1
  have humem : ∀ cache, ∃ rel,
      ({ s with cache := cache }).umemFree b.ptr = (rel, { s with cache := cache }) := by
    intro cache
    obtain ⟨e, hpf⟩ := processFreeUmem_refuses cache (h.decodeTags_pastEnd hb hend) true
    unfold umemFree umemMallocFree
    rw [if_neg (h.ne_zero hb), hboot, if_neg (by simp),
      mallocFreeFast_defers (h.decodeTags_pastEnd hb hend)]
    simp only [hpf]
    exact ⟨_, rfl⟩
  unfold Interposer.free
  rw [if_neg (h.ne_zero hb)]
  split
  · obtain ⟨rel, hrel⟩ := humem s.cache
    exact .inr ⟨rel, _, congrArg some hrel, hsame _⟩
  · obtain ⟨cache, howner⟩ := h.owner_pastEnd hb hend
    rw [howner]
    dsimp only
    split
    · split
      · rw [hfit.libcOwns b hb, if_neg (by simp)]
        exact .inl rfl
      · exact .inr ⟨_, _, rfl, hsame cache⟩
    · obtain ⟨rel, hrel⟩ := humem cache
      exact .inr ⟨rel, _, congrArg some hrel, hsame _⟩

theorem free {rel : Release} (hs : s.free env b.ptr = some (rel, s')) : s'.Inv (live.erase b) := by
  by_cases hend : b.PastEnd s
  · rcases h.free_pastEnd hfit hb hend with hnone | ⟨rel', s'', heq, hf⟩
    · rw [hnone] at hs
      cases hs
    · rw [heq, some.injEq, Prod.mk.injEq] at hs
      exact h.freed (hs.2 ▸ hf) hb
  · obtain ⟨s'', heq, hf⟩ := h.free_eq hb hend env
    rw [heq, some.injEq, Prod.mk.injEq] at hs
    exact h.freed (hs.2 ▸ hf) hb

end
end Inv
end Interposer

/-! ## Processes -/

/-- The functions of libc that are resolved. -/
inductive LibcFn
  | free | realloc | memalign
  deriving DecidableEq, Repr

/-- The interposer and the pointers that it returned and that were not freed. -/
structure Process where
  interposer : Interposer
  live : List Buf

/-- The calls of a program, and what goes on around them. -/
inductive Event
  | malloc (env : Surroundings) (size : Word)
  | calloc (env : Surroundings) (nelem elsize : Word)
  | memalign (env : Surroundings) (align size : Word)
  | posixMemalign (env : Surroundings) (alignment size : Word)
  /-- A buffer, or `NULL`. -/
  | free (env : Surroundings) (b : Option Buf)
  | realloc (env : Surroundings) (b : Option Buf) (size : Word)
  /-- The program writes to a buffer. -/
  | store (b : Buf) (off : Word) (v : Half)
  /-- The next call is made by another thread, or from inside another call. -/
  | thread (depth callocDepth : Nat)
  /-- `umem_interpose_init` begins, `dlsym` answers, and all functions are resolved. -/
  | load
  | dlsym (f : LibcFn)
  | loaded
  /-- umem is initialised by a call that does not come through the interposer. -/
  | umemReady
  /-- Heap spans come and go. -/
  | spans (heap : HeapView) (cache : SpanCache)

namespace Process

def after (live : List Buf) : Option Buf × Interposer → Process
  | (none, s) => ⟨s, live⟩
  | (some b, s) => ⟨s, b :: live⟩

/-- The pointer that is passed for a buffer, or for `NULL`. -/
def ptrOf : Option Buf → Word
  | none => 0
  | some b => b.ptr

def without (live : List Buf) : Option Buf → List Buf
  | none => live
  | some b => live.erase b

def afterRealloc (live : List Buf) (b : Option Buf) (r : Interposer.Realloced) : Process :=
  let live := if r.released = [] then live else without live b
  match r.inner with
  | some (some nb) => ⟨r.state, nb :: live⟩
  | _ => ⟨r.state, live⟩

def step (p : Process) : Event → Option Process
  | .malloc env size => some (after p.live (p.interposer.malloc env size))
  | .calloc env nelem elsize => some (after p.live (p.interposer.calloc env nelem elsize))
  | .memalign env align size => some (after p.live (p.interposer.memalign env align size))
  | .posixMemalign env alignment size =>
    some (after p.live (p.interposer.posixMemalign env alignment size))
  | .free env b => (p.interposer.free env (ptrOf b)).map fun r => ⟨r.2, without p.live b⟩
  | .realloc env b size => (p.interposer.realloc env (ptrOf b) size).map (afterRealloc p.live b)
  | .store b off v =>
    some { p with interposer.umem.mem :=
      Function.update p.interposer.umem.mem (b.ptr + off) v }
  | .thread depth callocDepth =>
    some { p with interposer.umem.depth := depth, interposer.callocDepth := callocDepth }
  | .load => some { p with interposer.phase := .bootstrap, interposer.inDlsym := true }
  | .dlsym .free => some { p with interposer.libcFree := true }
  | .dlsym .realloc => some { p with interposer.libcRealloc := true }
  | .dlsym .memalign => some { p with interposer.libcMemalign := true }
  | .loaded => some { p with interposer.inDlsym := false }
  | .umemReady => some { p with interposer.umem.ready := true, interposer.startup := false }
  | .spans heap cache => some { p with interposer.heap := heap, interposer.cache := cache }

/-- What the program and its surroundings keep to: only buffers in use are freed, resized and
written to, the allocators return free blocks, and the span of a block in use stays. -/
def Allowed (p : Process) : Event → Prop
  | .malloc env _ | .calloc env _ _ | .memalign env _ _ | .posixMemalign env _ _ =>
    p.interposer.Fits p.live env
  | .free env b | .realloc env b _ => (∀ c ∈ b, c ∈ p.live) ∧ p.interposer.Fits p.live env
  | .store b off _ => b ∈ p.live ∧ off < b.usable
  | .thread _ _ | .loaded | .umemReady => True
  | .load => p.interposer.phase = .uninit
  | .dlsym f => p.interposer.inDlsym = true ∧ (f = .memalign → p.interposer.libcFree = true)
  | .spans heap _ => heap.WellFormed ∧
      ∀ b ∈ p.live, b.owner = .umem → heap.Holds b.base b.size

def Step (p : Process) (e : Event) (p' : Process) : Prop := p.Allowed e ∧ p.step e = some p'

/-- Before the first call. -/
structure Initial (p : Process) : Prop where
  live : p.live = []
  phase : p.interposer.phase = .uninit ∧ p.interposer.inDlsym = false
  libcPtrs : p.interposer.libcPtrs = List.replicate maxLibcPtrs none
  libcPtrLive : p.interposer.libcPtrLive = 0
  bootPtrs : p.interposer.umem.boot.ptrs = List.replicate maxBootstrapPtrs none
  bootLive : p.interposer.umem.boot.live = 0
  libcMemalign : p.interposer.libcMemalign = false
  view : p.interposer.heap.WellFormed
  buffer : p.interposer.staticBuffer ≠ 0 ∧ p.interposer.staticBuffer.toNat + 4096 < 2 ^ 64
  used : p.interposer.staticBufferUsed = 0

theorem Initial.inv {p : Process} (h : p.Initial) : p.interposer.Inv p.live := by
  have hnone : ∀ n, Slots.entries (replicate n none : Slots Word Word) = [] := by
    intro n
    induction n with
    | zero => rfl
    | succ n ih => exact ih
  obtain ⟨hlive, -, hlibc, hcount, hboot, hbcount, hmemalign, hview, hbuffer, hused⟩ := h
  rw [hlive]
  have hentries : p.interposer.libcPtrs.entries = [] := by rw [hlibc, hnone]
  have hbentries : p.interposer.umem.boot.ptrs.entries = [] := by rw [hboot, hnone]
  refine ⟨⟨⟨?_, ?_, ?_⟩, hview, ?_, ?_, ?_, ?_, ?_, ?_⟩, ?_, ?_, Pairwise.nil, nodup_nil, ?_⟩
  · rw [hbcount, hbentries]
    rfl
  · rw [Slots.Distinct, hbentries]
    exact nodup_nil
  · simp [hbentries]
  · rw [Slots.Distinct, hentries]
    exact nodup_nil
  · rw [hcount, hentries]
    rfl
  · simp [hentries]
  · simp [hbentries]
  · simp [hmemalign]
  · exact ⟨hbuffer.1, hbuffer.2, by rw [hused]; exact Nat.zero_le _⟩
  · simp
  · simp
  · simp

section
variable {p p' : Process} {e : Event}

theorem inv_after {s : Interposer} {live : List Buf} {size : Word} {res : Option Buf × Interposer}
    (h : s.Allocates live size res) : (after live res).interposer.Inv (after live res).live := by
  rcases res with ⟨_ | b, s'⟩
  · exact h.1
  · exact h.1

section
variable (h : p.interposer.Inv p.live)
include h

theorem inv_free {env : Surroundings} {b : Option Buf} (ha : p.Allowed (.free env b))
    (hs : p.step (.free env b) = some p') : p'.interposer.Inv p'.live := by
  obtain ⟨⟨rel, s'⟩, hfree, rfl⟩ := map_eq_some_iff.mp hs
  cases b with
  | none =>
    unfold Interposer.free at hfree
    rw [ptrOf, if_pos rfl, some.injEq, Prod.mk.injEq] at hfree
    obtain ⟨-, rfl⟩ := hfree
    exact h
  | some b => exact h.free ha.2 (ha.1 b rfl) hfree

theorem inv_realloc {env : Surroundings} {b : Option Buf} {size : Word}
    (ha : p.Allowed (.realloc env b size)) (hs : p.step (.realloc env b size) = some p') :
    p'.interposer.Inv p'.live := by
  obtain ⟨r, hr, rfl⟩ := map_eq_some_iff.mp hs
  cases b with
  | none =>
    have halloc := h.malloc ha.2 size
    unfold Interposer.realloc at hr
    rw [ptrOf, if_pos rfl] at hr
    rcases hm : p.interposer.malloc env size with ⟨_ | nb, s'⟩
    · rw [hm] at hr halloc
      cases hr
      exact halloc.1
    · rw [hm] at hr halloc
      cases hr
      exact halloc.1
  | some b =>
    have hb := ha.1 b rfl
    by_cases hn : size = 0
    · unfold Interposer.realloc at hr
      rw [ptrOf, if_neg (h.ne_zero hb), if_pos hn] at hr
      obtain ⟨⟨rel, s'⟩, hfree, rfl⟩ := map_eq_some_iff.mp hr
      exact h.free ha.2 hb hfree
    · by_cases hgood : b.owner = .umem ∨ b.req ≠ 0
      · obtain ⟨r', hr', hexit⟩ := h.realloc_exit ha.2 hb hn hgood
        obtain rfl := some.inj (hr.symm.trans hr')
        cases hexit with
        | failed inv buffer same => exact inv
        | moved hm => exact hm.inv
        | kept size quiet => exact h.quiet quiet
      · rcases h.realloc_refused ha.2 hb hn hgood with hnone | ⟨cache, hsome⟩
        · cases hr.symm.trans hnone
        · obtain rfl := some.inj (hr.symm.trans hsome)
          exact h.setCache cache

theorem inv_store {b : Buf} {off : Word} {v : Half} (ha : p.Allowed (.store b off v))
    (hs : p.step (.store b off v) = some p') : p'.interposer.Inv p'.live := by
  cases hs
  obtain ⟨hb, hoff⟩ := ha
  refine h.payload hb fun a hchanged => ?_
  obtain rfl : a = b.ptr+off := by
    by_contra hne
    exact hchanged (Function.update_of_ne hne _ _)
  have hroom := h.usable_le hb
  have hbound := (h.bound b hb).2
  bv_omega

theorem inv_dlsym {f : LibcFn} (ha : p.Allowed (.dlsym f)) (hs : p.step (.dlsym f) = some p') :
    p'.interposer.Inv p'.live := by
  cases f with
  | free =>
    cases hs
    exact { h with libcFree := fun _ => rfl }
  | realloc =>
    cases hs
    exact h.quiet ⟨rfl, rfl, rfl, rfl, rfl, rfl, rfl, rfl, rfl, id⟩
  | memalign =>
    cases hs
    exact { h with libcFree := fun _ => ha.2 rfl }

theorem inv_spans {heap : HeapView} {cache : SpanCache} (hview : heap.WellFormed)
    (hholds : ∀ b ∈ p.live, b.owner = .umem → heap.Holds b.base b.size) :
    ({ p.interposer with heap := heap, cache := cache } : Interposer).Inv p.live := by
  refine { h with view := hview, located := fun b hb => ?_ }
  have hat := h.located b hb
  unfold Buf.At at hat ⊢
  split at hat
  · exact hat
  · exact hat
  · exact hat
  · rename_i hh
    exact ⟨hat.1, hat.2.1, hholds b hb (by rw [Buf.owner, hh])⟩
  · rename_i hh
    exact ⟨hat.1, hat.2.1, hholds b hb (by rw [Buf.owner, hh])⟩

theorem inv_step (hs : p.Step e p') : p'.interposer.Inv p'.live := by
  obtain ⟨ha, hs⟩ := hs
  cases e with
  | malloc env size =>
    cases hs
    exact inv_after (h.malloc ha size)
  | calloc env nelem elsize =>
    cases hs
    exact inv_after (h.calloc ha nelem elsize)
  | memalign env align size =>
    cases hs
    exact inv_after (h.memalign ha align size)
  | posixMemalign env alignment size =>
    cases hs
    exact inv_after (h.posixMemalign ha alignment size)
  | free env b => exact inv_free h ha hs
  | realloc env b size => exact inv_realloc h ha hs
  | store b off v => exact inv_store h ha hs
  | thread depth callocDepth | loaded | umemReady =>
    cases hs
    exact h.quiet ⟨rfl, rfl, rfl, rfl, rfl, rfl, rfl, rfl, rfl, id⟩
  | load =>
    cases hs
    have ha : p.interposer.phase = .uninit := ha
    exact h.quiet ⟨rfl, rfl, rfl, rfl, rfl, rfl, rfl, rfl, rfl,
      fun hr => by rw [ha] at hr; cases hr⟩
  | dlsym f => exact inv_dlsym h ha hs
  | spans heap cache =>
    cases hs
    exact inv_spans h ha.1 ha.2

end
end

theorem runs_inv {p p' : Process} {events : List Event} (hinit : p.Initial)
    (hrun : Runs Step p events p') : p'.interposer.Inv p'.live :=
  hrun.invariant (P := fun p => p.interposer.Inv p.live) (fun _ _ _ => inv_step) hinit.inv

end Process

/-- In every state that a process reaches, `realloc` is sound on exactly the buffers that umem owns
and those that were requested with a size other than 0. -/
theorem realloc_sound_iff {start p : Process} {events : List Event} {env : Surroundings} {b : Buf}
    {n : Word} (hinit : start.Initial) (hrun : Runs Process.Step start events p) (hb : b ∈ p.live)
    (hfit : p.interposer.Fits p.live env) (hn : n ≠ 0) :
    p.interposer.ReallocSound env p.live b n ↔ b.owner = .umem ∨ b.req ≠ 0 :=
  (Process.runs_inv hinit hrun).reallocSound_iff hfit hb hn

/-! ## Two bootstrap buffers -/

namespace Process

/-- A process before its first call, with the static buffer at `0x1000`. -/
def start : Process where
  live := []
  interposer :=
    { umem := ⟨fun _ => 0, ⟨List.replicate maxBootstrapPtrs none, 0, fun _ => none⟩, false, 0⟩
      heap := ⟨⟨0, 0⟩, ⟨0, 0⟩, ⟨0, false, 0, fun _ => ⟨0, 0⟩⟩⟩
      cache := ⟨0, 0, 0⟩
      phase := .uninit
      inDlsym := false
      staticBuffer := 0x1000
      staticBufferUsed := 0
      libcPtrs := List.replicate maxLibcPtrs none
      libcPtrLive := 0
      libcFree := false
      libcRealloc := false
      libcMemalign := false
      startup := true
      initAttempted := false
      callocDepth := 0 }

/-- `mmap` returns the page at `a`, and nothing else can be had. -/
def pageAt (a : Word) : Surroundings where
  alloc := ⟨fun _ => none, fun _ _ _ => none, fun n => if n ≤ 4096 then some a else none, false⟩
  umemInit := false
  libcMemalign := fun _ _ => none
  libcOwns := fun _ => false
  libcRealloc := fun _ _ => none
  pagesize := 4096

/-- The buffer that `malloc (n)` returns on the page at `0x10000`. -/
def first (n : Word) : Buf := ⟨0x10010, n, .bootstrap, 0x10000, n + 16⟩

theorem start_initial : start.Initial where
  live := rfl
  phase := ⟨rfl, rfl⟩
  libcPtrs := rfl
  libcPtrLive := rfl
  bootPtrs := rfl
  bootLive := rfl
  libcMemalign := rfl
  view := ⟨⟨fun _ h => absurd h (Nat.not_lt_zero _), fun _ _ _ h => absurd h (Nat.not_lt_zero _)⟩,
    fun _ h => absurd h (Nat.not_lt_zero _)⟩
  buffer := by decide
  used := rfl

theorem pageAt_fits {s : Interposer} {live : List Buf} {a : Word} (hbuf : s.staticBuffer = 0x1000)
    (ha : 0x2000 < a.toNat ∧ a.toNat+4096 < 2^64 ∧ 4096 ∣ a.toNat)
    (hlive : ∀ b ∈ live, b.hi ≤ a.toNat ∧ b.ptr ≤ a) : s.Fits live (pageAt a) := by
  obtain ⟨hlo, hhi, hdvd⟩ := ha
  have hmmap : ∀ {n b : Word}, (pageAt a).alloc.mmap n = some b → b = a ∧ n.toNat ≤ 4096 := by
    intro n b h
    simp only [pageAt, ite_none_right_eq_some, some.injEq] at h
    exact ⟨h.2.symm, h.1⟩
  refine ⟨⟨fun _ _ h => ?_, fun _ _ _ _ _ h => ?_, fun n b h => ?_⟩, fun _ _ h => ?_,
    fun _ _ _ _ h => ?_, fun n b h => ?_, fun _ _ _ h => ?_, fun _ _ => rfl⟩
  · cases h
  · cases h
  · obtain ⟨rfl, hn⟩ := hmmap h
    exact ⟨by bv_omega, by omega, hdvd⟩
  · cases h
  · cases h
  · obtain ⟨rfl, hn⟩ := hmmap h
    refine ⟨.inr ?_, fun c hc => .inr (hlive c hc).1, fun c hc hin => ?_⟩
    · rw [hbuf]
      exact hlo
    · have := (hlive c hc).2
      bv_omega
  · cases h

/-- The process after `malloc (n)`. -/
def mallocked (n : Word) : Process := ⟨(start.interposer.malloc (pageAt 0x10000) n).2, [first n]⟩

theorem after_of_fst {live : List Buf} {res : Option Buf × Interposer} {b : Buf}
    (h : res.1 = some b) : after live res = ⟨res.2, b :: live⟩ := by
  obtain ⟨b', s⟩ := res
  obtain rfl : b' = some b := h
  rfl

theorem runs_mallocked {n : Word}
    (h : (start.interposer.malloc (pageAt 0x10000) n).1 = some (first n)) :
    Runs Step start [.malloc (pageAt 0x10000) n] (mallocked n) :=
  Runs.singleton.mpr ⟨pageAt_fits rfl (by decide) (by simp [start]), congrArg some (after_of_fst h)⟩

end Process

/-- A buffer of 100 bytes is resized. -/
theorem realloc_sound_first :
    (Process.mallocked 100).interposer.ReallocSound (Process.pageAt 0x20000)
      (Process.mallocked 100).live (Process.first 100) 64 :=
  (realloc_sound_iff Process.start_initial (Process.runs_mallocked (by decide +kernel))
    mem_cons_self (Process.pageAt_fits (by decide +kernel) (by decide) (by decide))
    (by decide)).mpr (.inr (by decide))

/-- The buffer that `malloc (0)` returned is not resized: `realloc` returns `NULL` without a call
of `malloc`. -/
theorem realloc_empty_refused :
    (∃ events, Runs Process.Step Process.start events (Process.mallocked 0)) ∧
      Process.first 0 ∈ (Process.mallocked 0).live ∧
      (Process.mallocked 0).interposer.Fits (Process.mallocked 0).live (Process.pageAt 0x20000) ∧
      (((Process.mallocked 0).interposer.realloc (Process.pageAt 0x20000) (Process.first 0).ptr
        64).map fun r => (r.ptr, r.inner)) = some (none, none) ∧
      ¬ (Process.mallocked 0).interposer.ReallocSound (Process.pageAt 0x20000)
        (Process.mallocked 0).live (Process.first 0) 64 := by
  have hrealloc : (((Process.mallocked 0).interposer.realloc (Process.pageAt 0x20000)
      (Process.first 0).ptr 64).map fun r => (r.ptr, r.inner)) = some (none, none) := by
    decide +kernel
  refine ⟨⟨_, Process.runs_mallocked (by decide +kernel)⟩, mem_cons_self,
    Process.pageAt_fits (by decide +kernel) (by decide) (by decide), hrealloc, ?_⟩
  rintro ⟨r, hr, hsound⟩
  rw [hr, map_some, some.injEq, Prod.mk.injEq] at hrealloc
  rw [hrealloc.1] at hsound
  exact absurd (hrealloc.2.symm.trans hsound.1) (by simp)

end Libumem.Malloc
