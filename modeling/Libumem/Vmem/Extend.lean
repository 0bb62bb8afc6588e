import Libumem.Vmem.Alloc

/-!
# Growing an arena

`vmem_add`, `vmem_extend_unlocked` and `_vmem_extend_alloc`, and the walker segments that
`vmem_walk` links in.
-/

namespace Libumem.Vmem
open Arith Lib

def vmemAdd (vmp : Arena) (vaddr size : Word) : Option Arena :=
  if vaddr = 0 ∨ size = 0 then none
  else do
    let (_, vmp) ← vmemSpanCreate vmp vaddr size false
    return vmp

/-- `[addr, endaddr)` closes the gap between `prevspan` and `span`. -/
def extendJoin (vmp : Arena) (span : SegId) (addr endaddr : Word) : SegId × Arena :=
  let prevspan := vmp.kPrev span
  let nextseg := vmp.aNext span
  let prevseg := vmp.aPrev span
  let vmp := vmp.setEnd prevspan (vmp.segs span).vsEnd
  if (vmp.segs prevseg).vsType = .free ∧ (vmp.segs nextseg).vsType = .free then
    let vmp := vmemFreelistDelete vmp prevseg
    let vmp := vmp.setEnd prevseg (vmp.segs nextseg).vsEnd
    let vmp := vmemFreelistDelete vmp nextseg
    let vmp := vmp.kDelete span
    let vmp := vmemSegDestroy vmp nextseg
    (prevseg, vmemSegDestroy vmp span)
  else if (vmp.segs prevseg).vsType = .free then
    let vmp := vmp.kDelete span
    let vmp := vmemSegDestroy vmp span
    let vmp := vmemFreelistDelete vmp prevseg
    (prevseg, vmp.setEnd prevseg endaddr)
  else if (vmp.segs nextseg).vsType = .free then
    let vmp := vmp.kDelete span
    let vmp := vmemSegDestroy vmp span
    let vmp := vmemFreelistDelete vmp nextseg
    (nextseg, vmp.setStart nextseg addr)
  else
    let vmp := vmp.kDelete span
    (span, (vmp.setStart span addr).setEnd span endaddr)

/-- `[addr, endaddr)` follows `span`. -/
def extendEnd (vmp : Arena) (span : SegId) (addr endaddr : Word) : Option (SegId × Arena) :=
  let oldseg := vmp.aPrev (vmp.kNext span)
  let vmp := vmp.setEnd span endaddr
  if (vmp.segs oldseg).vsType = .free then
    let vmp := vmemFreelistDelete vmp oldseg
    some (oldseg, vmp.setEnd oldseg endaddr)
  else vmemSegCreate vmp oldseg addr endaddr

/-- `[addr, endaddr)` precedes `span`. -/
def extendStart (vmp : Arena) (span : SegId) (addr endaddr : Word) : Option (SegId × Arena) :=
  let oldseg := vmp.aNext span
  let vmp := vmp.setStart span addr
  if (vmp.segs oldseg).vsType = .free then
    let vmp := vmemFreelistDelete vmp oldseg
    some (oldseg, vmp.setStart oldseg addr)
  else vmemSegCreate vmp span addr endaddr

/-- Add `[addr, endaddr)` to the span it touches, and to the one before it if it fills the gap. -/
def extendSpan (vmp : Arena) (span : SegId) (addr endaddr : Word) : Option (SegId × Arena) :=
  if (vmp.segs (vmp.kPrev span)).vsEnd = addr ∧ (vmp.segs span).vsStart = endaddr then
    some (extendJoin vmp span addr endaddr)
  else if (vmp.segs span).vsEnd = addr then extendEnd vmp span addr endaddr
  else extendStart vmp span addr endaddr

def vmemExtendUnlocked (vmp : Arena) (addr endaddr : Word) : Option (SegId × Arena) :=
  let found := vmp.kList.reverse.find? fun span =>
    (vmp.segs span).vsEnd == addr || (vmp.segs span).vsStart == endaddr
  match found with
  | none => vmemSpanCreate vmp addr (endaddr - addr) false
  | some span => do
    let (vsp, vmp) ← extendSpan vmp span addr endaddr
    let vmp := vmemFreelistInsert vmp vsp
    return (vsp, { vmp with vkMemTotal := vmp.vkMemTotal + (endaddr - addr) })

/-- "If there is a source, we can't mess with the spans." -/
def extendAllocSpan (vmp : Arena) (vaddr size : Word) : Option (SegId × Arena) :=
  if vmp.vmSource.isSome then vmemSpanCreate vmp vaddr size false
  else vmemExtendUnlocked vmp vaddr (vaddr + size)

def vmemExtendAlloc (vmp : Arena) (vaddr size alloc : Word) : Option (Arena × Word) := do
  let (vsp, vmp) ← extendAllocSpan vmp vaddr size
  let addr := (vmp.segs vsp).vsStart
  let (_, vmp) ← vmemSegAlloc vmp vsp addr alloc
  return (vmp, addr)

/-- `vmem_walk` links its walker in at the front of the arena. -/
def vmemWalkInsert (vmp : Arena) (walker : SegId) : Arena :=
  (vmp.setSeg walker ⟨0, 0, .walker, false⟩).aInsert seg0 walker

end Libumem.Vmem
