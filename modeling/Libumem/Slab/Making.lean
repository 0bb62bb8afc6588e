import Libumem.Lib.Bytes
import Libumem.Slab.CacheCreate
import Libumem.Slab.Machine

/-!
# Making a slab, byte by byte

`umem_slab_create` asks the arena for a span and, for a cache with a hash table, the slab cache for a
header and the bufctl cache for one bufctl after the other. Each of them can refuse, and the function
then gives back what it has. Header, bufctls, tags and patterns are written to one memory of bytes, in
which they can overlap: a bufctl inside of a tagged chunk lies on the first word of the tag.
-/

namespace Libumem.Slab.Making
open Arith Lib

/-- What the debug flags of a cache add to its geometry: the place of the tag in a chunk, how much of
the buffer is filled with a pattern, and the size of an audit record. -/
structure Debug (g : Geom) where
  flags : Umf
  notouch : Bool
  buftag : Word
  verify : Word
  auditSize : Word
  tag_fits : flags.buftag = true → buftag.toNat + sizeofBuftag ≤ g.chunksize.toNat
  verify_fits : flags.buftag = true → (verify.toNat + 7) / 8 * 8 ≤ buftag.toNat
  audit_fits : 32 ≤ auditSize.toNat

def uninitializedPattern : Word := 0xbaddcafebaddcafe

def freePattern : Word := 0xdeadbeefdeadbeef

def redzonePattern : Word := 0xfeedfacefeedface

/-- `UMEM_BUFTAG_FREE`. -/
def buftagFree : Word := 0xf4eef4ee

/-- Who `umem_slab_create` gets memory from. -/
inductive Pool
  | arena
  | slabCache
  | bufctlCache
  deriving DecidableEq, Repr

inductive Logged
  | slab (sp slab : Word)
  | failure
  deriving DecidableEq, Repr

/-- The fields of the cache that `umem_slab_create` writes, and the others. -/
structure Owner (ρ : Type) where
  cacheColor : Word
  cacheAllocFail : Word
  others : ρ
  deriving DecidableEq, Repr

/-- Everything but the memory: the cache, the logs, what each pool has handed out to whomever, and what
of it belongs to the call under way. -/
structure Books (ρ : Type) where
  cache : Owner ρ
  log : List Logged
  allocated : Pool → List Word
  mine : List (Pool × Word)
  badFrees : Nat

structure World (ρ : Type) where
  mem : Mem 64
  books : Books ρ

/-- What the pools answer to the requests of a call, and what they leave in the memory that does not
belong to it. -/
structure Below where
  answer : Pool → Nat → Option Word
  allocJunk : Pool → Nat → Mem 64
  freeJunk : Pool → Word → Mem 64

section
variable {ρ : Type} (g : Geom) (d : Debug g) (below : Below)

def objectSize : Pool → Nat
  | .arena => g.slabsize.toNat
  | .slabCache => sizeofSlab
  | .bufctlCache => if d.flags.audit then d.auditSize.toNat else 24

def Books.take (b : Books ρ) (p : Pool) (a : Word) : Books ρ :=
  { b with
    allocated := Function.update b.allocated p (a :: b.allocated p)
    mine := (p, a) :: b.mine }

def Books.giveBack (b : Books ρ) (p : Pool) (a : Word) : Books ρ :=
  { b with
    allocated := Function.update b.allocated p ((b.allocated p).erase a)
    mine := b.mine.erase (p, a)
    badFrees := if a ∈ b.allocated p then b.badFrees else b.badFrees + 1 }

/-- The byte belongs to the call. -/
def Books.owns (b : Books ρ) (x : Word) : Bool :=
  b.mine.any fun r => (x - r.2).toNat < objectSize g d r.1

/-- A pool can write to what does not belong to the call. -/
def World.disturb (w : World ρ) (junk : Mem 64) : World ρ :=
  { w with mem := fun x => if w.books.owns g d x then w.mem x else junk x }

/-- The `k`-th request to a pool. -/
def World.alloc (w : World ρ) (p : Pool) (k : Nat) : World ρ × Option Word :=
  let w := w.disturb g d (below.allocJunk p k)
  match below.answer p k with
  | none => (w, none)
  | some a => ({ w with books := w.books.take p a }, some a)

def World.free (w : World ρ) (p : Pool) (a : Word) : World ρ :=
  World.disturb g d { w with books := w.books.giveBack p a } (below.freeJunk p a)

end

/-- The field `slab_head` of a header. -/
def slabHead (sp : Word) : Word := sp + BitVec.ofNat 64 32

section
variable (g : Geom) (d : Debug g)

/-- A new header: the fields that `umem_slab_create` sets. -/
def writeHeader (m : Mem 64) (sp base : Word) (chunks : Nat) : Mem 64 :=
  let m := m.store64 sp g.cp
  let m := m.store64 (slabHead sp) 0
  let m := m.store64 (sp + BitVec.ofNat 64 40) 0
  let m := m.store32 (sp + BitVec.ofNat 64 56) 0
  let m := m.store32 (sp + BitVec.ofNat 64 60) 0
  let m := m.store64 (sp + BitVec.ofNat 64 8) base
  m.store64 (sp + BitVec.ofNat 64 48) (BitVec.ofNat 64 chunks)

/-- A bufctl of its own gets the address of the buffer and the slab. -/
def enterBufctl (m : Mem 64) (sp bcp buf : Word) : Mem 64 :=
  if g.hash then
    let m := if d.flags.audit then
      (m.bzero bcp d.auditSize.toNat).store64 (bcp + BitVec.ofNat 64 24) g.cp else m
    (m.store64 (bcp + BitVec.ofNat 64 8) buf).store64 (bcp + BitVec.ofNat 64 16) sp
  else m

def tagChunk (m : Mem 64) (bcp buf : Word) : Mem 64 :=
  if d.flags.buftag then
    let btp := buf + d.buftag
    let m := m.store64 btp redzonePattern
    let m := m.store64 (btp + BitVec.ofNat 64 8) bcp
    let m := m.store64 (btp + BitVec.ofNat 64 16) (bcp ^^^ buftagFree)
    if d.flags.deadbeef then m.fill freePattern buf d.verify.toNat else m
  else m

/-- The bufctl becomes the head of the list of the slab. -/
def pushBufctl (m : Mem 64) (sp bcp : Word) : Mem 64 :=
  (m.store64 bcp (g.linkMangle bcp (m.load64 (slabHead sp)))).store64 (slabHead sp) bcp

def buildChunk (m : Mem 64) (sp bcp buf : Word) : Mem 64 :=
  pushBufctl g (tagChunk g d (enterBufctl g d m sp bcp buf) bcp buf) sp bcp

end

section
variable {ρ : Type} (g : Geom) (d : Debug g) (below : Below)

/-- The loop over the chunks, with `n` of them left: whether all of them got a bufctl. -/
def buildLoop (sp : Word) : Nat → Nat → Word → World ρ → World ρ × Bool
  | 0, _, _, w => (w, true)
  | n + 1, k, buf, w =>
    if g.hash then
      let r := w.alloc g d below .bufctlCache k
      match r.2 with
      | none => (r.1, false)
      | some bcp => buildLoop sp n (k + 1) (buf + g.chunksize)
          { r.1 with mem := buildChunk g d r.1.mem sp bcp buf }
    else buildLoop sp n (k + 1) (buf + g.chunksize)
      { w with mem := buildChunk g d w.mem sp (buf + g.bufctl) buf }

/-- The loop behind `bufctl_alloc_failure`, when it ends within `n` turns. -/
def unwind (sp : Word) : Nat → World ρ → Option (World ρ)
  | 0, _ => none
  | n + 1, w =>
    let bcp := w.mem.load64 (slabHead sp)
    if bcp = 0 then some w
    else
      let next := g.linkMangle bcp (w.mem.load64 bcp)
      unwind sp n (World.free g d below { w with mem := w.mem.store64 (slabHead sp) next }
        .bufctlCache bcp)

/-- What is done behind `vmem_alloc_failure`. -/
def Books.failed (b : Books ρ) : Books ρ :=
  { b with
    log := .failure :: b.log
    cache := { b.cache with cacheAllocFail := b.cache.cacheAllocFail + 1 } }

def allocFailure (w : World ρ) : World ρ := { w with books := w.books.failed }

/-- The part of `umem_slab_create` that has a span and a header. -/
def buildSlab (color slab sp : Word) (w : World ρ) : Option (World ρ × Option Word) :=
  let base := slab + color
  let n := g.chunksFor color
  let r := buildLoop g d below sp n 0 base { w with mem := writeHeader g w.mem sp base n }
  if r.2 then
    some ({ r.1 with books := { r.1.books with log := .slab sp slab :: r.1.books.log } }, some sp)
  else
    (unwind g d below sp (n + 1) r.1).map fun w =>
      (allocFailure (World.free g d below (World.free g d below w .slabCache sp) .arena slab), none)

/-- The part of `umem_slab_create` that has a span. -/
def buildSpan (color slab : Word) (w : World ρ) : Option (World ρ × Option Word) :=
  let w := if !d.notouch && d.flags.deadbeef then
    { w with mem := w.mem.fill uninitializedPattern slab g.slabsize.toNat } else w
  if g.hash then
    let r := w.alloc g d below .slabCache 0
    match r.2 with
    | none => some (allocFailure (World.free g d below r.1 .arena slab), none)
    | some sp => buildSlab g d below color slab sp r.1
  else buildSlab g d below color slab (g.umemSlab slab) w

/-- The colors are used in turn. -/
def nextColor (color : Word) : Word :=
  if g.maxcolor < color + g.align then g.mincolor else color + g.align

def Books.rotate (b : Books ρ) : Books ρ :=
  { b with cache := { b.cache with cacheColor := nextColor g b.cache.cacheColor } }

/-- `umem_slab_create`: the slab, or null, unless the unwinding does not end. -/
def umemSlabCreate (w : World ρ) : Option (World ρ × Option Word) :=
  let color := nextColor g w.books.cache.cacheColor
  let w := { w with books := w.books.rotate g }
  let r := w.alloc g d below .arena 0
  match r.2 with
  | none => some (allocFailure r.1, none)
  | some slab => buildSpan g d below color slab r.1

end

/-! ### What is on the list of a slab -/

variable (g : Geom)

/-- The next bufctl on the list of a slab. -/
def freeLink (m : Mem 64) (bcp : Word) : Option Word := ptr (g.linkMangle bcp (m.load64 bcp))

/-- The buffer of a bufctl. -/
def addrOf (m : Mem 64) (bcp : Word) : Word :=
  if g.hash then m.load64 (bcp + BitVec.ofNat 64 8) else bcp - g.bufctl

/-- The bytes of a bufctl that these read. -/
def cellSize : Nat := if g.hash then 16 else 8

/-- The list of a slab leads through some bufctls, which are the ones of some buffers. -/
structure Built (m : Mem 64) (sp : Word) (bcs bufs : List Word) : Prop where
  chain : Chain (freeLink g m) (ptr (m.load64 (slabHead sp))) bcs
  addrs : bcs.map (addrOf g m) = bufs

variable {g}

section

variable {m m' : Mem 64} {bcp : Word} (h : ∀ x ∈ region bcp (cellSize g), m' x = m x)

include h

theorem freeLink_congr : freeLink g m' bcp = freeLink g m bcp := by
  have hload : m'.load64 bcp = m.load64 bcp := by
    apply Mem.load64_congr
    intro x hx
    apply h
    refine region_mono ?_ hx
    unfold cellSize
    split <;> omega
  rw [freeLink, freeLink, hload]

theorem addrOf_congr : addrOf g m' bcp = addrOf g m bcp := by
  unfold addrOf
  split
  · rename_i hhash
    apply Mem.load64_congr
    intro x hx
    apply h
    rw [cellSize, if_pos hhash]
    exact region_add_subset (by omega) hx
  · rfl

end

namespace Built
variable {m m' : Mem 64} {sp bcp buf : Word} {bcs bufs : List Word}

theorem congr (h : Built g m sp bcs bufs) (hhead : m'.load64 (slabHead sp) = m.load64 (slabHead sp))
    (hcells : ∀ bcp ∈ bcs, ∀ x ∈ region bcp (cellSize g), m' x = m x) : Built g m' sp bcs bufs where
  chain := by
    rw [hhead]
    exact h.chain.congr fun bcp hbcp => freeLink_congr (hcells bcp hbcp)
  addrs := by
    rw [← h.addrs]
    exact List.map_congr_left fun bcp hbcp => addrOf_congr (hcells bcp hbcp)

theorem nil (hhead : m.load64 (slabHead sp) = 0) : Built g m sp [] [] where
  chain := by
    rw [hhead]
    rfl
  addrs := rfl

theorem push (h : Built g m sp bcs bufs) (hne : bcp ≠ 0) (hhead : m'.load64 (slabHead sp) = bcp)
    (hlink : m'.load64 bcp = g.linkMangle bcp (m.load64 (slabHead sp)))
    (haddr : addrOf g m' bcp = buf)
    (hcells : ∀ bcp ∈ bcs, ∀ x ∈ region bcp (cellSize g), m' x = m x) :
    Built g m' sp (bcp :: bcs) (buf :: bufs) where
  chain := by
    refine ⟨?_, ?_⟩
    · rw [hhead, ptr, if_neg hne]
    · rw [freeLink, hlink, Geom.linkMangle_linkMangle]
      exact h.chain.congr fun bcp hbcp => freeLink_congr (hcells bcp hbcp)
  addrs := by
    rw [List.map_cons, haddr, ← h.addrs]
    exact congrArg _ (List.map_congr_left fun bcp hbcp => addrOf_congr (hcells bcp hbcp))

theorem head (h : Built g m sp (bcp :: bcs) (buf :: bufs)) :
    m.load64 (slabHead sp) = bcp ∧ bcp ≠ 0 ∧
      Chain (freeLink g m) (ptr (g.linkMangle bcp (m.load64 bcp))) bcs ∧
      bcs.map (addrOf g m) = bufs := by
  obtain ⟨hfirst, hrest⟩ := h.chain
  rw [ptr] at hfirst
  split at hfirst
  · cases hfirst
  · rename_i hne
    have hload := Option.some.inj hfirst
    exact ⟨hload, hload ▸ hne, hrest, (List.cons.inj h.addrs).2⟩

end Built

end Libumem.Slab.Making
