import Libumem.Lib.Chain
import Libumem.Lib.Linked
import Libumem.Lib.Scan
import Libumem.Slab.Geometry

/-!
# The slab layer as a machine

What one cache does between taking and dropping its lock is one step. A caller that needs a new slab
drops the lock, picks a color under it again, builds the slab on its own and takes the lock a third
time to link it. A slab without buffers in use is unlinked under the lock and destroyed after it, and
a pass of `umem_cache_reclaim_pages` marks slabs under the lock, drops it and takes it again. Since
callers differ in nothing else, the machine keeps what is pending and not who does it.
-/

namespace Libumem.Slab
open Function Arith Lib

/-- The memory that the slab layer of a cache uses. A bufctl is given by its address, which is also
the address of its link. The last three fields are history: the slabs and bufctls that exist, and
the buffers that callers hold. -/
structure State where
  slabs : Word → UmemSlab
  links : Links Word
  freelist : Word
  bcNext : Word → Word
  bcAddr : Word → Word
  bcSlab : Word → Word
  hashTable : Nat → Word
  hashMask : Word
  buftotal : Nat
  color : Word
  /-- callers that found no buffer -/
  wanting : Nat
  /-- the colors of those that have picked one -/
  coloured : List Word
  /-- slabs that are built and not linked yet -/
  built : List Word
  /-- slabs that are unlinked and not destroyed yet -/
  dying : List Word
  /-- the slabs that a pass is reclaiming -/
  reclaimList : Option (List Word)
  live : List Word
  bufctls : List Word
  held : List Word

/-- A pointer in memory. -/
def ptr (w : Word) : Option Word := if w = 0 then none else some w

namespace State

def nextOf (s : State) (sp : Word) : Word := (s.links.next sp).getD 0

def prevOf (s : State) (sp : Word) : Word := (s.links.prev sp).getD 0

def setSlab (s : State) (sp : Word) (f : UmemSlab → UmemSlab) : State :=
  { s with slabs := update s.slabs sp (f (s.slabs sp)) }

/-- The next bufctl on a slab's own list, whose links are mangled. -/
def freeLink (g : Geom) (s : State) (bcp : Word) : Option Word := ptr (g.linkMangle bcp (s.bcNext bcp))

/-- The next bufctl in a bucket of the hash table. -/
def hashLink (s : State) (bcp : Word) : Option Word := ptr (s.bcNext bcp)

/-- `UMEM_HASH`, as an index. -/
def hashIndex (g : Geom) (s : State) (buf : Word) : Nat := ((buf >>> g.hashShift) &&& s.hashMask).toNat

/-- The buffer of a bufctl. -/
def addrOf (g : Geom) (s : State) (bcp : Word) : Word :=
  if g.hash then s.bcAddr bcp else bcp - g.bufctl

def slabOf (g : Geom) (s : State) (bcp : Word) : Word :=
  if g.hash then s.bcSlab bcp else g.umemSlab (bcp - g.bufctl)

/-- Take a slab out of the list, and off the front of the free list. -/
def unlinkSlab (s : State) (sp : Word) : State :=
  { s with
    links := s.links.bypass sp
    freelist := if sp = s.freelist then s.nextOf sp else s.freelist }

/-- Put a slab at the front of the free list. -/
def linkSlab (s : State) (sp : Word) : State :=
  { s with links := s.links.pushBack s.freelist sp, freelist := sp }

end State

section
variable (g : Geom) (s : State)

/-- The walk past the slabs that are being reclaimed, with `n` turns left. -/
def firstUsable : Nat → Word → Word
  | 0, sp => sp
  | n + 1, sp =>
    if sp ≠ g.nullslab ∧
        ((s.slabs sp).slabState = .reclaiming ∨ (s.slabs sp).slabHead = 0) then
      firstUsable n (s.nextOf sp)
    else sp

/-- Enter a bufctl into the hash table, or leave its link to the owner of the buffer. -/
def enterHash (bcp : Word) : State :=
  let i := s.hashIndex g (s.bcAddr bcp)
  { s with
    bcNext := if g.hash then update s.bcNext bcp (s.hashTable i) else s.bcNext
    hashTable := if g.hash then update s.hashTable i bcp else s.hashTable }

/-- A slab that was idle becomes active again. -/
def reactivate (sl : UmemSlab) : UmemSlab :=
  { sl with
    slabState := .active
    slabIdleTime := if sl.slabState = .active then sl.slabIdleTime else 0 }

/-- The end of `umem_slab_alloc`, for a slab with a free buffer: the state and the buffer. -/
def takeBuffer (sp : Word) : State × Option Word :=
  let s := s.setSlab sp reactivate
  let bcp := (s.slabs sp).slabHead
  let next := g.linkMangle bcp (s.bcNext bcp)
  if g.umemSlabLinkValid (s.slabs sp) next = false then
    -- the list is cut off at a corrupted link
    ({ s.setSlab sp fun sl => { sl with slabHead := 0 } with freelist := s.nextOf sp }, none)
  else
    let buf := s.addrOf g bcp
    let s := s.setSlab sp fun sl => { sl with slabRefcnt := sl.slabRefcnt + 1, slabHead := next }
    let s := { s with freelist := if next = 0 then s.nextOf sp else s.freelist }
    let s := enterHash g s bcp
    ({ s with held := buf :: s.held }, some buf)

/-- `umem_slab_alloc` up to the point where it returns or drops the lock to create a slab. A walk
over the slabs takes no more turns than the cache has buffers. -/
def umemSlabAlloc : State × Option Word :=
  let sp := s.freelist
  if (s.slabs sp).slabHead = 0 then ({ s with wanting := s.wanting + 1 }, none)
  else if (s.slabs sp).slabState = .reclaiming then
    let sp := firstUsable g s s.buftotal (s.nextOf sp)
    if sp = g.nullslab ∨ (s.slabs sp).slabHead = 0 then
      ({ s with wanting := s.wanting + 1 }, none)
    else takeBuffer g s sp
  else takeBuffer g s sp

end

section
variable (g : Geom)

/-- The first part of `umem_slab_create`. -/
def pickColor (s : State) : Option State :=
  if s.wanting = 0 then none
  else
    let color := s.color + g.align
    let color := if g.maxcolor.toNat < color.toNat then g.mincolor else color
    some { s with color := color, wanting := s.wanting - 1, coloured := color :: s.coloured }

def newBufctls (base : Word) (n : Nat) (delivered : List Word) : List Word :=
  if g.hash then delivered else (g.chunksFrom base n).map (· + g.bufctl)

def newSlab (slab delivered : Word) : Word := if g.hash then delivered else g.umemSlab slab

/-- What the arena and the metadata caches promise: the span is aligned, in the address space and
apart from the spans of the other slabs and from the cache itself, and the metadata is new. -/
def Delivered (s : State) (slab sp : Word) (bcs : List Word) (n : Nat) : Prop :=
  p2phase slab g.quantum = 0 ∧ slab ≠ 0 ∧ slab.toNat + g.slabsize.toNat < 2 ^ 64 ∧
  (g.nullslab.toNat < slab.toNat ∨ slab.toNat + g.slabsize.toNat ≤ g.nullslab.toNat) ∧
  (∀ sp' ∈ s.live, g.spanStart (s.slabs sp') + g.slabsize.toNat ≤ slab.toNat ∨
    slab.toNat + g.slabsize.toNat ≤ g.spanStart (s.slabs sp')) ∧
  (g.hash = true → sp ∉ s.live ∧ sp ≠ g.nullslab ∧ bcs.length = n ∧ bcs.Nodup ∧
    ∀ bcp ∈ bcs, bcp ∉ s.bufctls ∧ bcp ≠ 0 ∧ p2phase bcp 8 = 0)

instance (s : State) (slab sp : Word) (bcs : List Word) (n : Nat) :
    Decidable (Delivered g s slab sp bcs n) := by
  unfold Delivered
  have := List.decidableBAll (fun sp' => g.spanStart (s.slabs sp') + g.slabsize.toNat ≤ slab.toNat ∨
    slab.toNat + g.slabsize.toNat ≤ g.spanStart (s.slabs sp')) s.live
  have := List.decidableBAll (fun bcp => bcp ∉ s.bufctls ∧ bcp ≠ 0 ∧ p2phase bcp 8 = 0) bcs
  infer_instance

/-- The loop of `umem_slab_create` over the bufctls of the chunks. -/
def buildChunks (sp : Word) : List Word → Word → State → State
  | [], _, s => s
  | bcp :: bcs, buf, s =>
    let s := if g.hash then
      { s with
        bcAddr := update s.bcAddr bcp buf
        bcSlab := update s.bcSlab bcp sp } else s
    let s := { s with
      bcNext := update s.bcNext bcp (g.linkMangle bcp (s.slabs sp).slabHead) }
    buildChunks sp bcs (buf + g.chunksize) (s.setSlab sp fun sl => { sl with slabHead := bcp })

/-- The rest of `umem_slab_create`, with what it is given for its color. -/
def umemSlabCreate (s : State) (color slab header : Word) (bufctls : List Word) : Option State :=
  let base := slab + color
  let n := g.chunksFor color
  let sp := newSlab g slab header
  let bcs := newBufctls g base n bufctls
  if color ∈ s.coloured ∧ Delivered g s slab sp bcs n then
    let s := { s with coloured := s.coloured.erase color }
    let s := s.setSlab sp fun _ => ⟨g.cp, base, 0, 0, n, .active, 0⟩
    let s := buildChunks g sp bcs base s
    some { s with built := sp :: s.built, live := sp :: s.live, bufctls := bcs ++ s.bufctls }
  else none

/-- The arena or a metadata cache has nothing to deliver, and `umem_slab_alloc` returns null. -/
def createFailed (s : State) (color : Word) : Option State :=
  if color ∈ s.coloured then some { s with coloured := s.coloured.erase color } else none

/-- `umem_slab_alloc` from the point where it takes the lock again. -/
def linkNewSlab (s : State) (sp : Word) : Option (State × Option Word) :=
  if sp ∈ s.built then
    let s := { s with
      built := s.built.erase sp
      buftotal := s.buftotal + (s.slabs sp).slabChunks }
    some (takeBuffer g (s.linkSlab sp) sp)
  else none

end

section
variable (g : Geom)

/-- Look a buffer up in the hash table and take its bufctl out. -/
def leaveHash (s : State) (buf : Word) : State × Option Word :=
  let i := s.hashIndex g buf
  match chainFind (fun bcp => s.bcAddr bcp = buf) s.hashLink s.buftotal none (ptr (s.hashTable i)) with
  | none => (s, none)
  | some (bcp, none) =>
    ({ s with hashTable := update s.hashTable i (s.bcNext bcp) }, some bcp)
  | some (bcp, some prev) =>
    ({ s with bcNext := update s.bcNext prev (s.bcNext bcp) }, some bcp)

/-- The first part of `umem_slab_free`: the bufctl and the slab of the buffer. -/
def findBufctl (s : State) (buf : Word) : State × Option (Word × Word) :=
  if g.hash then
    let (s, found) := leaveHash g s buf
    (s, found.map fun bcp => (bcp, s.bcSlab bcp))
  else (s, some (buf + g.bufctl, g.umemSlab buf))

/-- The slab keeps its pages until the update thread advises them away. -/
def markDirty (s : State) (sp : Word) : State :=
  s.setSlab sp fun sl => { sl with slabState := .dirty, slabIdleTime := 0 }

/-- The part that `umem_slab_free` and `umem_cache_reclaim_pages` have in common: a slab without
buffers in use leaves the cache, to be destroyed without the lock. -/
def retireSlab (s : State) (sp : Word) : State :=
  { s.unlinkSlab sp with
    buftotal := s.buftotal - (s.slabs sp).slabChunks
    dying := sp :: s.dying }

/-- The bufctl of a buffer goes back to the list of its slab, which joins the free list if it is not on
it. -/
def pushBuffer (s : State) (buf bcp sp : Word) : State :=
  let sl := s.slabs sp
  { s with
    links := if sl.slabHead = 0 then (s.links.bypass sp).pushBack s.freelist sp else s.links
    freelist := if sl.slabHead = 0 then sp else s.freelist
    bcNext := update s.bcNext bcp (g.linkMangle bcp sl.slabHead)
    slabs := update s.slabs sp
      { sl with slabHead := bcp, slabRefcnt := sl.slabRefcnt - 1 }
    held := s.held.erase buf }

/-- The rest of `umem_slab_free`, for a buffer of the cache. -/
def putBuffer (s : State) (buf bcp sp : Word) (reclaimEnabled : Bool) : State :=
  let s := pushBuffer g s buf bcp sp
  if (s.slabs sp).slabRefcnt = 0 then
    if reclaimEnabled then markDirty s sp else retireSlab s sp
  else s

/-- `umem_slab_free` in a build with `NDEBUG`. It reports an address that is not the one of a chunk. -/
def umemSlabFree (s : State) (buf : Word) (reclaimEnabled : Bool) : State :=
  match findBufctl g s buf with
  | (s, none) => s
  | (s, some (bcp, sp)) =>
    if (s.slabs sp).slabCache ≠ g.cp ∨ g.slabChunk (s.slabs sp) buf = false then s
    else putBuffer g s buf bcp sp reclaimEnabled

/-- The `ASSERT`s about the slab that a buffer goes back to. -/
def putAsserts (s : State) (sp : Word) : Bool :=
  let sl := s.slabs sp
  (sl.slabHead ≠ 0 || (sl.slabRefcnt = sl.slabChunks && s.freelist ≠ sp)) && 1 ≤ sl.slabRefcnt

def freeAsserts (s : State) (buf : Word) : Bool :=
  match findBufctl g s buf with
  | (_, none) => true
  | (s, some (_, sp)) =>
    (s.slabs sp).slabCache ≠ g.cp || g.slabChunk (s.slabs sp) buf = false || putAsserts s sp

/-- `umem_slab_free` in a build with or without `NDEBUG`. Without it, an `ASSERT` that fails aborts the
process. -/
def umemSlabFreeIn (ndebug : Bool) (s : State) (buf : Word) (reclaimEnabled : Bool) : Option State :=
  if ndebug || freeAsserts g s buf then some (umemSlabFree g s buf reclaimEnabled) else none

/-- `umem_slab_destroy`: the bufctls on the list of the slab go back to their cache, or away with the
span. -/
def umemSlabDestroy (s : State) (sp : Word) : Option State :=
  if sp ∈ s.dying then
    let sl := s.slabs sp
    let bcs := if g.hash then chainList (s.freeLink g) sl.slabChunks (ptr sl.slabHead)
      else (g.chunkStarts sl).map (· + g.bufctl)
    some { s with
      dying := s.dying.erase sp
      live := s.live.erase sp
      bufctls := s.bufctls.filter (· ∉ bcs) }
  else none

end

section
variable (g : Geom) (reapInterval reclaimDelay : BitVec 32)

def reclaimTurn (sp : Word) (r : State × List Word) : State × List Word :=
  let s := r.1
  if (s.slabs sp).slabRefcnt ≠ 0 then r
  else
    let idle := (s.slabs sp).slabIdleTime + reapInterval
    match (s.slabs sp).slabState with
    | .dirty =>
      if reclaimDelay ≤ idle then
        (s.setSlab sp fun sl => { sl with slabIdleTime := idle, slabState := .reclaiming },
          sp :: r.2)
      else (s.setSlab sp fun sl => { sl with slabIdleTime := idle }, r.2)
    | .clean =>
      let s := s.setSlab sp fun sl => { sl with slabIdleTime := idle }
      if reclaimDelay * 2 ≤ idle then (retireSlab s sp, r.2) else (s, r.2)
    | _ => r

/-- The walk of `umem_cache_reclaim_pages` from the end of the list to its front, with `n` turns
left. -/
def reclaimWalk : Nat → Word → State × List Word → State × List Word
  | 0, _, r => r
  | n + 1, sp, r =>
    if sp = g.nullslab then r
    else reclaimWalk n (r.1.prevOf sp) (reclaimTurn reapInterval reclaimDelay sp r)

/-- `umem_cache_reclaim_pages` up to the point where it drops the lock. The passes of one cache
exclude each other. -/
def startReclaim (s : State) : Option State :=
  if s.reclaimList = none then
    let (s, list) :=
      reclaimWalk g reapInterval reclaimDelay s.buftotal (s.prevOf g.nullslab) (s, [])
    some { s with reclaimList := some list }
  else none

/-- The end of `umem_cache_reclaim_pages`, under the lock again. -/
def finishReclaim (s : State) : Option State :=
  s.reclaimList.map fun list =>
    { list.foldl (fun s sp => s.setSlab sp fun sl => { sl with slabState := .clean }) s with
      reclaimList := none }

end

/-- What can happen to a cache. -/
inductive Event
  | alloc
  | color
  | create (color slab header : Word) (bufctls : List Word)
  | createFail (color : Word)
  | link (sp : Word)
  | free (buf : Word) (reclaimEnabled : Bool)
  | destroy (sp : Word)
  | startReclaim (reapInterval reclaimDelay : BitVec 32)
  | finishReclaim
  /-- the holder of a buffer writes over the bufctl that is in it -/
  | write (buf val : Word)
  deriving DecidableEq, Repr

def step (g : Geom) (s : State) : Event → Option State
  | .alloc => some (umemSlabAlloc g s).1
  | .color => pickColor g s
  | .create color slab header bufctls => umemSlabCreate g s color slab header bufctls
  | .createFail color => createFailed s color
  | .link sp => (linkNewSlab g s sp).map Prod.fst
  | .free buf reclaimEnabled => some (umemSlabFree g s buf reclaimEnabled)
  | .destroy sp => umemSlabDestroy g s sp
  | .startReclaim reapInterval reclaimDelay => startReclaim g reapInterval reclaimDelay s
  | .finishReclaim => finishReclaim s
  | .write buf val =>
    if g.hash = false ∧ buf ∈ s.held then
      some { s with bcNext := update s.bcNext (buf + g.bufctl) val }
    else none

/-- A cache as `umem_cache_create` leaves it. The memory outside of the cache is arbitrary. -/
def initial (g : Geom) (memory : State) : State :=
  { memory with
    slabs := update memory.slabs g.nullslab ⟨g.cp, 0, 0, -1, 0, .active, 0⟩
    links := ⟨update memory.links.next g.nullslab (some g.nullslab),
      update memory.links.prev g.nullslab (some g.nullslab)⟩
    freelist := g.nullslab
    hashTable := fun _ => 0
    hashMask := 63
    buftotal := 0
    color := g.mincolor
    wanting := 0
    coloured := []
    built := []
    dying := []
    reclaimList := none
    live := []
    bufctls := []
    held := [] }

end Libumem.Slab
