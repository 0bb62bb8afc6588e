import Libumem.Vmem.Arena

/-!
# Allocation and free within one arena

The critical sections of `vmem.c` under `vm_lock`. Each function is the code between one acquire
of the lock and the next release; where the source drops the lock in the middle of a call, the
section ends with a result that says what the caller does next. A result of `none` is a panic or
a null dereference.
-/

namespace Libumem.Vmem
open Arith Lib

/-- What is left of a free segment on one side of an allocation goes on the freelist. -/
def segRemainder (vmp : Arena) (vprev : SegId) (start stop : Word) : Option Arena :=
  if start ≠ stop then do
    let (newseg, vmp) ← vmemSegCreate vmp vprev start stop
    return vmemFreelistInsert vmp newseg
  else some vmp

def vmemSegAlloc (vmp : Arena) (vsp : SegId) (addr size : Word) : Option (SegId × Arena) :=
  let vsStart := (vmp.segs vsp).vsStart
  let vsEnd := (vmp.segs vsp).vsEnd
  let vsSize := vsEnd - vsStart
  let realsize := p2roundup size vmp.vmQuantum
  let addrEnd := addr + realsize
  if p2samehighbit vsSize (vsSize - realsize) && addr == vsStart then do
    let vmp := vmp.setStart vsp addrEnd
    let (vsp, vmp) ← vmemSegCreate vmp (vmp.aPrev vsp) addr (addr + size)
    return (vsp, vmemHashInsert vmp vsp)
  else do
    let vmp := vmemFreelistDelete vmp vsp
    let vmp ← segRemainder vmp vsp addrEnd vsEnd
    let vmp ← segRemainder vmp (vmp.aPrev vsp) vsStart addr
    let vmp := (vmp.setStart vsp addr).setEnd vsp (addr + size)
    return (vsp, vmemHashInsert vmp vsp)

/-- Whether `vsp` is a whole imported span that goes back to the source. -/
def isWholeImport (vmp : Arena) (vsp : SegId) : Bool :=
  (vmp.segs vsp).vsImport && vmp.vmSourceFree &&
    (vmp.segs (vmp.aPrev vsp)).vsType == .span && (vmp.segs (vmp.aNext vsp)).vsType == .span

/-- Unlink a walker, and link it in again behind `afterme` if there is one. -/
def advanceLink (vmp : Arena) (walker : SegId) (afterme : Option SegId) : Arena :=
  let vmp := vmp.aDelete walker
  match afterme with
  | some after => vmp.aInsert after walker
  | none => vmp

/-- "The walker segment's presence may have prevented its neighbors from coalescing." -/
def advanceJoin (vmp : Arena) (vprev vnext : SegId) : Arena :=
  if (vmp.segs vprev).vsType = .free ∧ (vmp.segs vnext).vsType = .free then
    let vmp := vmemFreelistDelete vmp vnext
    let vmp := vmemFreelistDelete vmp vprev
    let vmp := vmp.setEnd vprev (vmp.segs vnext).vsEnd
    let vmp := vmemFreelistInsert vmp vprev
    vmemSegDestroy vmp vnext
  else vmp

/-- Move a walker behind `afterme`, or unlink it. The block is the one passed to
`vm_source_free`, for which the lock is dropped at the end. -/
def vmemAdvance (vmp : Arena) (walker : SegId) (afterme : Option SegId) :
    Arena × Option Block :=
  let vprev := vmp.aPrev walker
  let vnext := vmp.aNext walker
  let vmp := advanceLink vmp walker afterme
  let vsp :=
    if (vmp.segs vprev).vsType = .free then some vprev
    else if (vmp.segs vnext).vsType = .free then some vnext
    else none
  let vmp := advanceJoin vmp vprev vnext
  match vsp with
  | none => (vmp, none)
  | some vsp =>
    if isWholeImport vmp vsp then
      let block := ⟨(vmp.segs vsp).vsStart, vmp.vsSize vsp⟩
      let vmp := vmemFreelistDelete vmp vsp
      (vmemSpanDestroy vmp vsp, some block)
    else (vmp, none)

/-- "Attempt to coalesce with the next segment." -/
def xfreeNext (vmp : Arena) (vsp : SegId) : Arena :=
  let vnext := vmp.aNext vsp
  if (vmp.segs vnext).vsType = .free then
    let vmp := vmemFreelistDelete vmp vnext
    let vmp := vmp.setEnd vsp (vmp.segs vnext).vsEnd
    vmemSegDestroy vmp vnext
  else vmp

/-- "Attempt to coalesce with the previous segment." -/
def xfreePrev (vmp : Arena) (vsp : SegId) : SegId × Arena :=
  let vprev := vmp.aPrev vsp
  if (vmp.segs vprev).vsType = .free then
    let vmp := vmemFreelistDelete vmp vprev
    let vmp := vmp.setEnd vprev (vmp.segs vsp).vsEnd
    (vprev, vmemSegDestroy vmp vsp)
  else (vsp, vmp)

def vmemXfree (vmp : Arena) (vaddr size : Word) : Option (Arena × Option Block) := do
  let (vsp, vmp) ← vmemHashDelete vmp vaddr size
  let vmp := vmp.setEnd vsp (p2roundup (vmp.segs vsp).vsEnd vmp.vmQuantum)
  let vmp := xfreeNext vmp vsp
  let (vsp, vmp) := xfreePrev vmp vsp
  if isWholeImport vmp vsp then
    let block := ⟨(vmp.segs vsp).vsStart, vmp.vsSize vsp⟩
    return (vmemSpanDestroy vmp vsp, some block)
  else
    return (vmemFreelistInsert vmp vsp, none)

/-- The arguments of `vmem_xalloc`. -/
structure XallocArgs where
  size : Word
  align : Word
  phase : Word
  nocross : Word
  minaddr : Word
  maxaddr : Word
  vmBestfit : Bool
  vmFirstfit : Bool
  vmNosleep : Bool
  deriving DecidableEq, Repr

/-- The arguments with which `vmem_alloc` and `vmem_nextfit_alloc` call `vmem_xalloc`. -/
def plainArgs (vmp : Arena) (size : Word) (bestfit firstfit nosleep : Bool) : XallocArgs :=
  ⟨size, vmp.vmQuantum, 0, 0, 0, 0, bestfit, firstfit, nosleep⟩

/-- `vmem_xalloc` replaces an `align` of zero by the quantum. -/
def xallocAlign (vmp : Arena) (x : XallocArgs) : Word :=
  if x.align = 0 then vmp.vmQuantum else x.align

/-- The argument checks of `vmem_xalloc`, each of which panics. -/
def xallocPanics (vmp : Arena) (x : XallocArgs) : Bool :=
  let align := xallocAlign vmp x
  (decide (0 < x.phase) && decide (x.align ≤ x.phase)) ||
  ((align ||| x.phase ||| x.nocross) &&& (vmp.vmQuantum - 1)) != 0 ||
  (x.nocross != 0 &&
    (decide (x.nocross < align) || decide (x.nocross < p2roundup (x.phase + x.size) align)))

/-- The first freelist that `vmem_xalloc` searches, or 0. -/
def xallocFlist (vmp : Arena) (x : XallocArgs) : Nat :=
  if x.size &&& (x.size - 1) = 0 then
    lowbit (p2align vmp.vmFreemap x.size)
  else
    let hb := highbit x.size
    let hb :=
      if vmp.vmFreemap >>> hb = 0 || hb == vmemFreelists || x.vmBestfit || x.vmFirstfit then hb - 1
      else hb
    lowbit (p2align vmp.vmFreemap ((1 : Word) <<< hb))

/-- Where `vmem_xalloc` looks in a free segment: the range left by `minaddr` and `maxaddr`, and
the first address in it that meets the alignment and does not cross a boundary. -/
structure XallocFit where
  start : Word
  stop : Word
  taddr : Word

def xallocFit (vmp : Arena) (x : XallocArgs) (vsp : Seg) : XallocFit :=
  let align := xallocAlign vmp x
  let start := if x.minaddr < vsp.vsStart then vsp.vsStart else x.minaddr
  let stop := (if vsp.vsEnd - 1 < x.maxaddr - 1 then vsp.vsEnd - 1 else x.maxaddr - 1) + 1
  let taddr := p2phaseup start align x.phase
  let taddr :=
    if p2boundary taddr x.size x.nocross then
      taddr + p2roundup (p2nphase taddr x.nocross) align
    else taddr
  ⟨start, stop, taddr⟩

/-- The address at which `vmem_xalloc` can place the allocation in `vsp`, if any. -/
def xallocPlace (vmp : Arena) (x : XallocArgs) (vsp : Seg) : Option Word :=
  if vsp.vsEnd - 1 < x.minaddr then none
  else if x.maxaddr - 1 < vsp.vsStart then none
  else
    let fit := xallocFit vmp x vsp
    if fit.stop - fit.start < (fit.taddr - fit.start) + x.size then none else some fit.taddr

/-- The loop of `vmem_xalloc` over one freelist. -/
def xallocScan (vmp : Arena) (x : XallocArgs) :
    List SegId → Option (SegId × Word) → Option (SegId × Word)
  | [], vbest => vbest
  | vsp :: rest, vbest =>
    match xallocPlace vmp x (vmp.segs vsp) with
    | none => xallocScan vmp x rest vbest
    | some taddr =>
      if vbest.any fun best => vmp.vsSize best.1 ≤ vmp.vsSize vsp then
        xallocScan vmp x rest vbest
      else if !x.vmBestfit || vmp.vsSize vsp == x.size then some (vsp, taddr)
      else xallocScan vmp x rest (some (vsp, taddr))

/-- The search of `vmem_xalloc` from freelist `flist` upwards. Each turn moves to a higher list,
so `vmemFreelists + 1` turns are enough. -/
def xallocSearch (vmp : Arena) (x : XallocArgs) : Nat → Nat → Option (SegId × Word)
  | 0, _ => none
  | turns + 1, flist =>
    if flist = 0 then none
    else
      match xallocScan vmp x (vmp.vmFreelist flist) none with
      | some best => some best
      | none => xallocSearch vmp x turns (lowbit (p2align vmp.vmFreemap ((1 : Word) <<< flist)))

/-- How a critical section of an allocation ends. -/
inductive AllocResult
  /-- The call returns this address; the block was passed to `vm_source_free` on the way. -/
  | done (addr : Word) (released : Option Block)
  | null
  /-- The lock is dropped to call `vm_source_alloc` for `asize` bytes. -/
  | importing (asize : Word) (resv : Int)
  /-- The call goes on in `vmem_xalloc` with the quantum as alignment. -/
  | xalloc
  /-- The lock is dropped to pass this block to `vm_source_free`. -/
  | released (block : Block)
  /-- The lock is dropped to reap or to wait for a free. -/
  | retry
  deriving DecidableEq, Repr

def xallocAsize (vmp : Arena) (x : XallocArgs) (sourceQuantum : Word) : Word :=
  let align := xallocAlign vmp x
  p2roundup (x.size + x.phase) (if sourceQuantum < align then align else sourceQuantum)

/-- The body of the loop in `vmem_xalloc`, up to the import. -/
def vmemXalloc (vmp : Arena) (x : XallocArgs) : Option (Arena × AllocResult) :=
  if xallocPanics vmp x then none
  else
    match xallocSearch vmp x (vmemFreelists + 1) (xallocFlist vmp x) with
    | some (vbest, addr) => do
      let (_, vmp) ← vmemSegAlloc vmp vbest addr x.size
      return (vmp, .done addr none)
    | none =>
      if x.size = 0 then none
      else if x.nocross = 0 && x.minaddr = 0 && x.maxaddr = 0 then
        match vmp.vmSource with
        | none => some (vmp, .retry)
        | some sourceQuantum =>
          let asize := xallocAsize vmp x sourceQuantum
          if asize < x.size then
            if x.vmNosleep then some (vmp, .null) else none
          else
            let resv : Int := if x.size = asize then 2 else 4
            some ({ vmp with vmNsegfree := vmp.vmNsegfree - resv }, .importing asize resv)
      else some (vmp, .retry)

/-- The rest of `vmem_xalloc` once `vm_source_alloc` has returned `vaddr`. The block is `asize`
bytes long, or what an extended import function made of it. -/
def vmemXallocImported (vmp : Arena) (x : XallocArgs) (asize : Word) (resv : Int)
    (vaddr : Word) : Option (Arena × AllocResult) :=
  let vmp := { vmp with vmNsegfree := vmp.vmNsegfree + resv }
  if vaddr = 0 then some (vmp, .retry)
  else do
    let (vbest, vmp) ← vmemSpanCreate vmp vaddr asize true
    let addr := p2phaseup (vmp.segs vbest).vsStart (xallocAlign vmp x) x.phase
    let (_, vmp) ← vmemSegAlloc vmp vbest addr x.size
    return (vmp, .done addr none)

/-- The instant-fit section of `vmem_alloc`. -/
def vmemAlloc (vmp : Arena) (size : Word) : Option (Arena × AllocResult) :=
  let flist :=
    if size &&& (size - 1) = 0 then lowbit (p2align vmp.vmFreemap size)
    else
      let hb := highbit size
      if hb < vmemFreelists then lowbit (p2align vmp.vmFreemap ((1 : Word) <<< hb)) else 0
  if flist = 0 then some (vmp, .xalloc)
  else
    match vmp.vmFreelist flist with
    | [] => none
    | vsp :: _ => do
      let addr := (vmp.segs vsp).vsStart
      let (_, vmp) ← vmemSegAlloc vmp vsp addr size
      return (vmp, .done addr none)

/-- The end of `vmem_nextfit_alloc`, once it has found a segment. -/
def nextfitTake (vmp : Arena) (vsp : SegId) (size : Word) : Option (Arena × AllocResult) := do
  let addr := (vmp.segs vsp).vsStart
  let (vsp, vmp) ← vmemSegAlloc vmp vsp addr size
  let (vmp, released) := vmemAdvance vmp vmRotor (some vsp)
  return (vmp, .done addr released)

/-- `vmem_nextfit_alloc` from the point where the rotor has been advanced past a full circle. -/
def nextfitAdvanced (vmp : Arena) (size : Word) (nosleep : Bool) :
    Option (Arena × AllocResult) :=
  let vsp := vmp.aPrev vmRotor
  if (vmp.segs vsp).vsType = .free ∧ size ≤ vmp.vsSize vsp then nextfitTake vmp vsp size
  else if vmp.vmSource.isSome || nosleep then some (vmp, .xalloc)
  else some (vmp, .retry)

/-- The search of `vmem_nextfit_alloc` around the arena, starting behind the rotor. -/
def nextfitSearch (vmp : Arena) (size : Word) (nosleep : Bool) : Option (Arena × AllocResult) :=
  let found := (Ring.around vmp.aList vmRotor).find? fun vsp =>
    decide ((vmp.segs vsp).vsType = .free) && decide (size ≤ vmp.vsSize vsp)
  match found with
  | some vsp => nextfitTake vmp vsp size
  | none =>
    let (vmp, released) := vmemAdvance vmp vmRotor (some (vmp.aNext vmRotor))
    match released with
    | some block => some (vmp, .released block)
    | none => nextfitAdvanced vmp size nosleep

def vmemNextfitAlloc (vmp : Arena) (size : Word) (nosleep : Bool) :
    Option (Arena × AllocResult) :=
  let realsize := p2roundup size vmp.vmQuantum
  let vsp := vmp.aNext vmRotor
  let vsSize := vmp.vsSize vsp
  if (vmp.segs vsp).vsType = .free ∧ realsize < vsSize ∧
      p2samehighbit vsSize (vsSize - realsize) then do
    let addr := (vmp.segs vsp).vsStart
    let vmp := vmp.setStart vsp (addr + realsize)
    let (newseg, vmp) ← vmemSegCreate vmp (vmp.aPrev vmRotor) addr (addr + size)
    return (vmemHashInsert vmp newseg, .done addr none)
  else nextfitSearch vmp size nosleep

end Libumem.Vmem
