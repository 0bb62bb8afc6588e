import Libumem.Lib.Scan
import Libumem.Arith.P2

/-!
# Owned blocks

The handles of `umem_own.c`. A handle is the address of a block that starts with a header; the data
of the user stands behind the header. The allocator answers with any block that does not touch one
in use, and the user may write to the data that a header promises. A store that reaches into
another header leaves anything there.
-/

namespace Libumem.Own
open Arith

/-- `UMEM_OWN_STATE_OWNED` and its like. -/
def stateOwned : BitVec 32 := 1
def stateMoved : BitVec 32 := 2
def stateDropped : BitVec 32 := 3

/-- `umem_own_error_t`. -/
inductive OwnError
  | useAfterFree
  | useAfterMove
  | doubleFree
  | borrowConflict
  | threadViolation
  deriving DecidableEq, Repr

/-- `own_hdr_debug_t` without the stack that is captured. The last three fields belong to the block
in debug mode only. -/
structure Header where
  refcount : BitVec 32
  state : BitVec 32
  allocSize : Word
  ownerThread : Word
  borrowCount : BitVec 32
  mutBorrow : BitVec 32
  deriving DecidableEq, Repr

/-- Where a block comes from, or where it goes back to: `_umem_alloc` or a cache. -/
inductive Origin (κ : Type)
  | general
  | cache (cp : κ)
  deriving DecidableEq, Repr

structure Block (κ : Type) where
  addr : Word
  size : Word
  origin : Origin κ
  deriving DecidableEq, Repr

/-- A handle that was made, with the block that was obtained and the size that was recorded. -/
structure Handle (κ : Type) where
  block : Block κ
  size : Word
  deriving DecidableEq, Repr

/-- The headers in memory, and what has happened so far: the handles made and those still in use,
the results of `umem_deref`, what `umem_clone` read, and what `umem_drop` gave back. -/
structure Sys (κ : Type) where
  headers : Word → Header
  live : List (Handle κ)
  made : List (Handle κ)
  derefs : List (Handle κ × Word)
  reads : List (Handle κ × Word × Word)
  returned : List (Handle κ × Block κ)
  errors : List (OwnError × Word × String)

section
variable (debug : Bool)

def headerSize : Word := if debug then 104 else 16

def alignedHeaderSize : Word := (headerSize debug + 15) &&& ~~~15

def toData (o : Word) : Word := o + alignedHeaderSize debug

/-- The bytes from `lo` on reach into the header at `o`. -/
def Hits (lo : Word) (len : Nat) (o : Word) : Prop :=
  0 < len ∧ ((o - lo).toNat < len ∨ (lo - o).toNat < (headerSize debug).toNat)

instance (lo : Word) (len : Nat) (o : Word) : Decidable (Hits debug lo len o) :=
  inferInstanceAs (Decidable (_ ∧ _))

end

namespace Sys
variable {κ : Type} (debug : Bool) (thrSelf : Word)

def reportError (err : OwnError) (o : Word) (msg : String) (s : Sys κ) : Sys κ :=
  { s with errors := s.errors ++ [(err, o, msg)] }

/-- A store of `len` bytes, with what it leaves of the headers in its way. -/
def store (lo : Word) (len : Nat) (junk : Word → Header) (s : Sys κ) : Sys κ :=
  { s with headers := fun o => if Hits debug lo len o then junk o else s.headers o }

def setHeader (o : Word) (h : Header) (s : Sys κ) : Sys κ :=
  { s with headers := Function.update s.headers o h }

/-- The error for a handle that is not owned. -/
def stateError (st : BitVec 32) : OwnError :=
  if st = stateMoved then .useAfterMove else .useAfterFree

/-- Whether the handle may be used, and the state with the report if not. -/
def requireOwned (o : Word) (op : String) (s : Sys κ) : Bool × Sys κ :=
  if o = 0 then (false, s.reportError .useAfterFree 0 op)
  else if (s.headers o).state = stateOwned then (true, s)
  else (false, s.reportError (stateError (s.headers o).state) o op)

def requireThread (o : Word) (op : String) (s : Sys κ) : Bool × Sys κ :=
  if debug ∧ (s.headers o).ownerThread ≠ thrSelf then
    (false, s.reportError .threadViolation o op)
  else (true, s)

/-- The two checks in a row. -/
def require (o : Word) (op : String) (s : Sys κ) : Bool × Sys κ :=
  if (s.requireOwned o op).1 then (s.requireOwned o op).2.requireThread debug thrSelf o op
  else s.requireOwned o op

def initHeader (o userSize : Word) (junk : Word → Header) (s : Sys κ) : Sys κ :=
  (s.store debug o (headerSize debug).toNat junk).setHeader o
    { refcount := 0, state := stateOwned, allocSize := userSize,
      -- without the debug mode these bytes are the user's
      ownerThread := if debug then thrSelf else (junk o).ownerThread,
      borrowCount := if debug then 0 else (junk o).borrowCount,
      mutBorrow := if debug then 0 else (junk o).mutBorrow }

/-- What `umem_own_alloc` asks the allocator for. -/
def ownTotal (size : Word) : Word := alignedHeaderSize debug + size

/-- The answer of the allocator is `raw`, which is zero when there is none. -/
def umemOwnAlloc (size raw : Word) (junk : Word → Header) (s : Sys κ) : Word × Sys κ :=
  if raw = 0 then (0, s) else (raw, s.initHeader debug thrSelf raw size junk)

def umemOwnCacheAlloc (cacheBufsize raw : Word) (junk : Word → Header) (s : Sys κ) :
    Word × Sys κ :=
  if raw = 0 then (0, s) else (raw, s.initHeader debug thrSelf raw cacheBufsize junk)

def umemDeref (o : Word) (s : Sys κ) : Word × Sys κ :=
  let r := s.require debug thrSelf o "deref"
  if r.1 then (toData debug o, r.2) else (0, r.2)

def umemDerefConst (o : Word) (s : Sys κ) : Word × Sys κ :=
  if o = 0 then (0, s.reportError .useAfterFree 0 "deref_const NULL")
  else if (s.headers o).state ≠ stateOwned then
    (0, s.reportError (stateError (s.headers o).state) o "deref_const")
  else (toData debug o, s)

/-- The error that keeps `umem_drop` from giving the block back. -/
def dropError (o : Word) (s : Sys κ) : Option (OwnError × String) :=
  let l := s.headers o
  if l.state = stateDropped then some (.doubleFree, "double drop")
  else if l.state = stateMoved then some (.useAfterMove, "drop after move")
  else if l.state ≠ stateOwned then some (.useAfterFree, "drop corrupted handle")
  else if debug ∧ l.ownerThread ≠ thrSelf then some (.threadViolation, "drop")
  else if l.refcount ≠ 0 then some (.borrowConflict, "drop with outstanding borrows")
  else if debug ∧ (l.borrowCount ≠ 0 ∨ l.mutBorrow ≠ 0) then
    some (.borrowConflict, "drop with active debug borrows")
  else none

/-- The address and the size that `_umem_free` is called with, if it is. -/
def umemDrop (o : Word) (s : Sys κ) : Option (Word × Word) × Sys κ :=
  if o = 0 then (none, s)
  else
    match s.dropError debug thrSelf o with
    | some (err, msg) => (none, s.reportError err o msg)
    | none =>
      (some (o, alignedHeaderSize debug + (s.headers o).allocSize),
        s.setHeader o { s.headers o with state := stateDropped })

/-- Whether the reference was taken. -/
def umemBorrow (o : Word) (s : Sys κ) : Bool × Sys κ :=
  let r := s.require debug thrSelf o "borrow"
  let l := s.headers o
  if r.1 = false then (false, r.2)
  else if debug ∧ l.mutBorrow ≠ 0 then
    (false, s.reportError .borrowConflict o "borrow while mut borrow active")
  else
    (true, s.setHeader o
      { l with refcount := l.refcount + 1
               borrowCount := if debug then l.borrowCount + 1 else l.borrowCount })

def umemBorrowMut (o : Word) (s : Sys κ) : Bool × Sys κ :=
  let r := s.require debug thrSelf o "borrow_mut"
  let l := s.headers o
  if r.1 = false then (false, r.2)
  else if debug ∧ l.borrowCount ≠ 0 then
    (false, s.reportError .borrowConflict o "mut borrow while shared borrows active")
  else if debug ∧ l.mutBorrow ≠ 0 then
    (false, s.reportError .borrowConflict o "mut borrow while another mut active")
  else
    (true, s.setHeader o
      { l with refcount := l.refcount + 1, mutBorrow := if debug then 1 else l.mutBorrow })

def umemUnborrow (o : Word) (refMutable : Bool) (s : Sys κ) : Sys κ :=
  let l := s.headers o
  if o = 0 then s
  else if l.refcount = 0 then s.reportError .borrowConflict o "unborrow underflow"
  else
    s.setHeader o
      { l with refcount := l.refcount - 1
               mutBorrow := if debug ∧ refMutable then 0 else l.mutBorrow
               borrowCount := if debug ∧ ¬refMutable then l.borrowCount - 1 else l.borrowCount }

def umemMove (o : Word) (s : Sys κ) : Word × Sys κ :=
  let r := s.require debug thrSelf o "move"
  let l := s.headers o
  if r.1 = false then (0, r.2)
  else if l.refcount ≠ 0 then (0, s.reportError .borrowConflict o "move with outstanding borrows")
  else
    (o, s.setHeader o
      { l with ownerThread := if debug then thrSelf else l.ownerThread
               borrowCount := if debug then 0 else l.borrowCount
               mutBorrow := if debug then 0 else l.mutBorrow })

/-- The test of `umem_clone` in front of its allocation. -/
def cloneError (src : Word) (s : Sys κ) : Option (OwnError × String) :=
  if src = 0 then some (.useAfterFree, "clone from NULL")
  else if (s.headers src).state ≠ stateOwned then
    some (stateError (s.headers src).state, "clone")
  else none

/-- The number of bytes that are copied: no more than the source has. -/
def copySize (src size : Word) (s : Sys κ) : Word :=
  if size < (s.headers src).allocSize then size else (s.headers src).allocSize

def umemClone (src size raw : Word) (junk junk' : Word → Header) (s : Sys κ) : Word × Sys κ :=
  match s.cloneError src with
  | some (err, msg) => (0, s.reportError err src msg)
  | none =>
    let n := s.copySize src size
    let r := s.umemOwnAlloc debug thrSelf size raw junk
    if r.1 = 0 then r else (r.1, r.2.store debug (toData debug r.1) n.toNat junk')

end Sys

/-- One call of the interface by the thread `thrSelf`, or a store by the user into its data. A
handle that is null is `none`. -/
inductive Event (κ : Type)
  | ownAlloc (thrSelf size raw : Word) (junk : Word → Header)
  | ownCacheAlloc (thrSelf : Word) (cp : κ) (raw : Word) (junk : Word → Header)
  | clone (thrSelf : Word) (src : Option (Handle κ)) (size raw : Word) (junk junk' : Word → Header)
  | deref (thrSelf : Word) (handle : Option (Handle κ))
  | derefConst (handle : Option (Handle κ))
  | borrow (thrSelf : Word) (handle : Option (Handle κ))
  | borrowMut (thrSelf : Word) (handle : Option (Handle κ))
  | unborrow (handle : Option (Handle κ)) (refMutable : Bool)
  | move (thrSelf : Word) (handle : Option (Handle κ))
  | drop (thrSelf : Word) (handle : Option (Handle κ))
  | write (handle : Handle κ) (offset len : Nat) (junk : Word → Header)

def pointer {κ : Type} (handle : Option (Handle κ)) : Word := handle.elim 0 (·.block.addr)

namespace Sys
variable {κ : Type}

/-- A constructor has returned a handle on the block. -/
def noteMade (o : Word) (block : Block κ) (size : Word) (s : Sys κ) : Sys κ :=
  if o = 0 then s
  else { s with live := ⟨block, size⟩ :: s.live, made := ⟨block, size⟩ :: s.made }

/-- A pointer to the data of a handle has been returned. -/
def noteDeref (handle : Option (Handle κ)) (p : Word) (s : Sys κ) : Sys κ :=
  match handle with
  | none => s
  | some h => if p = 0 then s else { s with derefs := (h, p) :: s.derefs }

/-- The data of a handle has been copied to another one. -/
def noteRead (src : Option (Handle κ)) (dst p n : Word) (s : Sys κ) : Sys κ :=
  match src with
  | none => s
  | some h => if dst = 0 then s else { s with reads := (h, p, n) :: s.reads }

variable [DecidableEq κ]

/-- The block of a handle has been given back. -/
def noteReturned (handle : Option (Handle κ)) (freed : Option (Word × Word)) (s : Sys κ) : Sys κ :=
  match handle, freed with
  | some h, some (o, total) =>
    { s with live := s.live.erase h, returned := (h, ⟨o, total, .general⟩) :: s.returned }
  | _, _ => s

variable (debug : Bool) (cacheBufsize : κ → Word)

def step (s : Sys κ) : Event κ → Sys κ
  | .ownAlloc thrSelf size raw junk =>
    let r := s.umemOwnAlloc debug thrSelf size raw junk
    r.2.noteMade r.1 ⟨raw, ownTotal debug size, .general⟩ size
  | .ownCacheAlloc thrSelf cp raw junk =>
    let r := s.umemOwnCacheAlloc debug thrSelf (cacheBufsize cp) raw junk
    r.2.noteMade r.1 ⟨raw, cacheBufsize cp, .cache cp⟩ (cacheBufsize cp)
  | .clone thrSelf src size raw junk junk' =>
    let n := s.copySize (pointer src) size
    let r := s.umemClone debug thrSelf (pointer src) size raw junk junk'
    (r.2.noteRead src r.1 (toData debug (pointer src)) n).noteMade r.1
      ⟨raw, ownTotal debug size, .general⟩ size
  | .deref thrSelf handle =>
    let r := s.umemDeref debug thrSelf (pointer handle)
    r.2.noteDeref handle r.1
  | .derefConst handle =>
    let r := s.umemDerefConst debug (pointer handle)
    r.2.noteDeref handle r.1
  | .borrow thrSelf handle => (s.umemBorrow debug thrSelf (pointer handle)).2
  | .borrowMut thrSelf handle => (s.umemBorrowMut debug thrSelf (pointer handle)).2
  | .unborrow handle refMutable => s.umemUnborrow debug (pointer handle) refMutable
  | .move thrSelf handle => (s.umemMove debug thrSelf (pointer handle)).2
  | .drop thrSelf handle =>
    let r := s.umemDrop debug thrSelf (pointer handle)
    r.2.noteReturned handle r.1
  | .write handle offset len junk =>
    s.store debug (toData debug handle.block.addr + BitVec.ofNat 64 offset) len junk

/-- What an allocator answers to a request for `size` bytes: nothing, or a block of that many bytes
whose end is an address too, and that does not touch a block in use. -/
def Answer (s : Sys κ) (size raw : Word) : Prop :=
  raw ≠ 0 → size ≠ 0 ∧ raw.toNat + size.toNat < 2 ^ 64 ∧ ∀ h ∈ s.live,
    raw.toNat + size.toNat ≤ h.block.addr.toNat ∨
      h.block.addr.toNat + h.block.size.toNat ≤ raw.toNat

instance (s : Sys κ) (size raw : Word) : Decidable (s.Answer size raw) :=
  inferInstanceAs (Decidable (_ → _))

def InUse (s : Sys κ) (handle : Option (Handle κ)) : Prop := ∀ h, handle = some h → h ∈ s.live

instance (s : Sys κ) (handle : Option (Handle κ)) : Decidable (s.InUse handle) :=
  match handle with
  | none => isTrue fun _ h => by cases h
  | some h => decidable_of_iff (h ∈ s.live)
      ⟨fun hmem _ heq => Option.some.inj heq ▸ hmem, fun hall => hall h rfl⟩

/-- What the allocator and the users of the interface keep to. -/
def Ok (s : Sys κ) : Event κ → Prop
  | .ownAlloc _ size raw _ => s.Answer (ownTotal debug size) raw
  | .ownCacheAlloc _ cp raw _ => s.Answer (cacheBufsize cp) raw
  | .clone _ src size raw _ _ => s.InUse src ∧ s.Answer (ownTotal debug size) raw
  | .deref _ handle => s.InUse handle
  | .derefConst handle => s.InUse handle
  | .borrow _ handle => s.InUse handle
  | .borrowMut _ handle => s.InUse handle
  | .unborrow handle _ => s.InUse handle
  | .move _ handle => s.InUse handle
  | .drop _ handle => s.InUse handle
  -- a user writes to the data that the header promises
  | .write handle offset len _ =>
    handle ∈ s.live ∧ offset + len ≤ (s.headers handle.block.addr).allocSize.toNat

instance (s : Sys κ) (e : Event κ) : Decidable (s.Ok debug cacheBufsize e) :=
  match e with
  | .ownAlloc _ size raw _ => inferInstanceAs (Decidable (s.Answer (ownTotal debug size) raw))
  | .ownCacheAlloc _ cp raw _ => inferInstanceAs (Decidable (s.Answer (cacheBufsize cp) raw))
  | .clone _ src size raw _ _ =>
    inferInstanceAs (Decidable (s.InUse src ∧ s.Answer (ownTotal debug size) raw))
  | .deref _ handle => inferInstanceAs (Decidable (s.InUse handle))
  | .derefConst handle => inferInstanceAs (Decidable (s.InUse handle))
  | .borrow _ handle => inferInstanceAs (Decidable (s.InUse handle))
  | .borrowMut _ handle => inferInstanceAs (Decidable (s.InUse handle))
  | .unborrow handle _ => inferInstanceAs (Decidable (s.InUse handle))
  | .move _ handle => inferInstanceAs (Decidable (s.InUse handle))
  | .drop _ handle => inferInstanceAs (Decidable (s.InUse handle))
  | .write handle offset len _ => inferInstanceAs (Decidable (handle ∈ s.live ∧
      offset + len ≤ (s.headers handle.block.addr).allocSize.toNat))

def Moves (s : Sys κ) (e : Event κ) (t : Sys κ) : Prop :=
  s.Ok debug cacheBufsize e ∧ some (s.step debug cacheBufsize e) = some t

/-- No handle has been made yet. -/
def initial (headers : Word → Header) : Sys κ := ⟨headers, [], [], [], [], [], []⟩

end Sys
end Libumem.Own
