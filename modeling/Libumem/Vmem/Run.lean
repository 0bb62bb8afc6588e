import Libumem.Vmem.Extend
import Libumem.Lib.Scan

/-!
# Runs of an arena

An arena together with the calls that are under way in it. A call waits for `vm_lock`, runs one
critical section, and either ends or waits again. The blocks that callers hold, and the spans
imported from the source and handed back to it, are recorded along the way.
-/

namespace Libumem.Vmem
open Arith Lib

/-- The bits of `vmflag` that the allocation functions look at. -/
structure Vmflag where
  vmNextfit : Bool
  vmBestfit : Bool
  vmFirstfit : Bool
  vmNosleep : Bool
  deriving DecidableEq, Repr

/-- A call that waits for the lock, by what it does next. -/
inductive Call
  /-- The instant-fit section of `vmem_alloc`. -/
  | instant (size : Word) (nosleep : Bool)
  | nextfit (size : Word) (nosleep : Bool)
  /-- The search loop of `vmem_nextfit_alloc`, after a wait. -/
  | search (size : Word) (nosleep : Bool)
  /-- `vmem_nextfit_alloc` after its `vmem_advance` has returned a span to the source. -/
  | advanced (size : Word) (nosleep : Bool)
  | xalloc (x : XallocArgs)
  /-- `vmem_xalloc` in `vm_source_alloc`. -/
  | importing (x : XallocArgs) (asize : Word) (resv : Int)
  deriving DecidableEq

namespace Call

/-- The arguments of the `vmem_xalloc` that the call is, or may become. -/
def args (vmp : Arena) : Call → XallocArgs
  | .instant size nosleep | .nextfit size nosleep | .search size nosleep
  | .advanced size nosleep => plainArgs vmp size false false nosleep
  | .xalloc x | .importing x _ _ => x

/-- The next critical section. `answer` is what `vm_source_alloc` has returned to an import; an
address of zero is a failure. -/
def exec (vmp : Arena) (answer : Block) : Call → Option (Arena × AllocResult)
  | .instant size _ => vmemAlloc vmp size
  | .nextfit size nosleep => vmemNextfitAlloc vmp size nosleep
  | .search size nosleep => nextfitSearch vmp size nosleep
  | .advanced size nosleep => nextfitAdvanced vmp size nosleep
  | .xalloc x => vmemXalloc vmp x
  | .importing x _ resv => vmemXallocImported vmp x answer.size resv answer.addr

/-- Where the call goes on after waiting for a free. -/
def again : Call → Call
  | .instant size nosleep => .instant size nosleep
  | .nextfit size nosleep | .search size nosleep | .advanced size nosleep => .search size nosleep
  | .xalloc x | .importing x _ _ => .xalloc x

/-- What is left to do of a call whose section ended with `r`. -/
def rest (vmp : Arena) (call : Call) : AllocResult → List Call
  | .done _ _ | .null => []
  | .importing asize resv => [.importing (call.args vmp) asize resv]
  | .xalloc => [.xalloc (call.args vmp)]
  | .released _ => [.advanced (call.args vmp).size (call.args vmp).vmNosleep]
  | .retry => if (call.args vmp).vmNosleep then [] else [call.again]

/-- The span that an import adds to the arena. -/
def imports (answer : Block) : Call → List Block
  | .importing _ _ _ => if answer.addr = 0 then [] else [answer]
  | _ => []

end Call

/-- The span that a section has handed back to the source. -/
def AllocResult.returns : AllocResult → List Block
  | .done _ block => block.toList
  | .released block => [block]
  | _ => []

def AllocResult.allocs (size : Word) : AllocResult → List Block
  | .done addr _ => [⟨addr, size⟩]
  | _ => []

structure Sys where
  arena : Arena
  /-- The calls under way. -/
  calls : List Call
  /-- The blocks that have been allocated and not freed. -/
  live : List Block
  /-- The spans obtained from the source so far. -/
  imported : List Block
  /-- The spans passed to `vm_source_free` so far. -/
  returned : List Block

inductive Op
  | add (vaddr size : Word)
  | extendAlloc (vaddr size alloc : Word)
  | alloc (size : Word) (vmflag : Vmflag)
  | xalloc (x : XallocArgs)
  /-- A call that waits gets the lock. -/
  | resume (call : Call) (answer : Block)
  | xfree (vaddr size : Word)
  /-- `vmem_walk` links its walker in. -/
  | walk (walker : SegId)
  | advance (walker : SegId) (afterme : Option SegId)
  /-- `vmem_populate` restocks the segment structures. -/
  | putseg (vsp : SegId)
  deriving DecidableEq

/-- Which section `vmem_alloc` goes to; small requests are served by a quantum cache. -/
def allocCalls (vmp : Arena) (size : Word) (vmflag : Vmflag) : List Call :=
  if size - 1 < vmp.vmQcacheMax then []
  else if vmflag.vmNextfit then [.nextfit size vmflag.vmNosleep]
  else if vmflag.vmBestfit || vmflag.vmFirstfit then
    [.xalloc (plainArgs vmp size vmflag.vmBestfit vmflag.vmFirstfit vmflag.vmNosleep)]
  else [.instant size vmflag.vmNosleep]

def Sys.resume (s : Sys) (call : Call) (answer : Block) : Option Sys :=
  if call ∈ s.calls then do
    let (vmp, r) ← call.exec s.arena answer
    return {
      arena := vmp
      calls := call.rest s.arena r ++ s.calls.erase call
      live := r.allocs (call.args s.arena).size ++ s.live
      imported := call.imports answer ++ s.imported
      returned := r.returns ++ s.returned }
  else none

/-- One step of a run; `none` is a panic or a null dereference. -/
def Sys.step (s : Sys) : Op → Option Sys
  | .add vaddr size => do
    let vmp ← vmemAdd s.arena vaddr size
    return { s with arena := vmp }
  | .extendAlloc vaddr size alloc => do
    let (vmp, addr) ← vmemExtendAlloc s.arena vaddr size alloc
    return { s with arena := vmp, live := ⟨addr, alloc⟩ :: s.live }
  | .alloc size vmflag => some { s with calls := allocCalls s.arena size vmflag ++ s.calls }
  | .xalloc x => some { s with calls := .xalloc x :: s.calls }
  | .resume call answer => s.resume call answer
  | .xfree vaddr size => do
    let (vmp, released) ← vmemXfree s.arena vaddr size
    return { s with
      arena := vmp
      live := s.live.erase ⟨vaddr, size⟩
      returned := released.toList ++ s.returned }
  | .walk walker => some { s with arena := vmemWalkInsert s.arena walker }
  | .advance walker afterme =>
    let (vmp, released) := vmemAdvance s.arena walker afterme
    some { s with arena := vmp, returned := released.toList ++ s.returned }
  | .putseg vsp => some { s with arena := vmemPutseg s.arena vsp }

/-- A new arena. -/
def Sys.create (quantum : Word) (source : Option Word) (sourceFree xalloc : Bool)
    (qcacheMax : Word) : Sys :=
  ⟨vmemCreate quantum source sourceFree xalloc qcacheMax, [], [], [], []⟩

end Libumem.Vmem
