import Libumem.Arith.P2
import Libumem.Lib.Ring

/-!
# Arenas and their segments

The state of one `vmem_t` and the operations of `vmem.c` on a single segment: the per-arena
stock of segment structures, the power-of-two freelists, the hash of allocated segments, and the
creation and removal of segments and spans.

Segment structures are named by numbers. The address-ordered list `vs_anext`/`vs_aprev` and the
span list `vs_knext`/`vs_kprev` are rings anchored at `vm_seg0`, kept as lists without the anchor.
A freelist is kept without its head, under the index `highbit(size)`: list `h` is the one headed
by `vm_freelist[h - 1]`.
-/

namespace Libumem.Vmem
open Function Arith Lib

inductive SegType
  | unset | alloc | free | span | rotor | walker
  deriving DecidableEq, Repr

/-- The fields of a `vmem_seg_t` other than its links. -/
structure Seg where
  vsStart : Word
  vsEnd : Word
  vsType : SegType
  vsImport : Bool
  deriving DecidableEq, Repr

def Seg.vsSize (vsp : Seg) : Word := vsp.vsEnd - vsp.vsStart

abbrev SegId := Nat

def seg0 : SegId := 0

def vmRotor : SegId := 1

def vmemFreelists : Nat := 64

def vmemMinfree : Int := 8

/-- What `vmem_create` fixes for the life of an arena. -/
structure ArenaConf where
  vmQuantum : Word
  vmQshift : Nat
  /-- The quantum of `vm_source`, when `vm_source_alloc` is set. -/
  vmSource : Option Word
  /-- Whether `vm_source_free` is set. -/
  vmSourceFree : Bool
  /-- The `VMC_XALLOC` bit of `vm_cflags`. -/
  vmcXalloc : Bool
  vmQcacheMax : Word

structure HashShape where
  vmHashMask : Word
  vmHashShift : Nat

structure VmemKstat where
  vkMemImport : Word
  vkMemTotal : Word
  vkMemInuse : Word
  vkAlloc : Word
  vkFree : Word

structure Arena extends ArenaConf, HashShape, VmemKstat where
  vmNsegfree : Int
  vmSegfree : List SegId
  vmHashTable : Word → List SegId
  vmFreemap : Word
  vmFreelist : Nat → List SegId
  segs : SegId → Seg
  aList : List SegId
  kList : List SegId

/-- A block of address space, given to an arena or handed back to its source. -/
structure Block where
  addr : Word
  size : Word
  deriving DecidableEq, Repr

namespace Arena

def aNext (vmp : Arena) (vsp : SegId) : SegId := Ring.next seg0 vmp.aList vsp

def aPrev (vmp : Arena) (vsp : SegId) : SegId := Ring.prev seg0 vmp.aList vsp

def kNext (vmp : Arena) (vsp : SegId) : SegId := Ring.next seg0 vmp.kList vsp

def kPrev (vmp : Arena) (vsp : SegId) : SegId := Ring.prev seg0 vmp.kList vsp

def aInsert (vmp : Arena) (vprev vsp : SegId) : Arena :=
  { vmp with aList := Ring.insert seg0 vmp.aList vprev vsp }

def aDelete (vmp : Arena) (vsp : SegId) : Arena :=
  { vmp with aList := vmp.aList.erase vsp }

def kInsert (vmp : Arena) (vprev vsp : SegId) : Arena :=
  { vmp with kList := Ring.insert seg0 vmp.kList vprev vsp }

def kDelete (vmp : Arena) (vsp : SegId) : Arena :=
  { vmp with kList := vmp.kList.erase vsp }

def setSeg (vmp : Arena) (vsp : SegId) (seg : Seg) : Arena :=
  { vmp with segs := update vmp.segs vsp seg }

def setStart (vmp : Arena) (vsp : SegId) (start : Word) : Arena :=
  vmp.setSeg vsp { vmp.segs vsp with vsStart := start }

def setEnd (vmp : Arena) (vsp : SegId) (stop : Word) : Arena :=
  vmp.setSeg vsp { vmp.segs vsp with vsEnd := stop }

def setType (vmp : Arena) (vsp : SegId) (type : SegType) : Arena :=
  vmp.setSeg vsp { vmp.segs vsp with vsType := type }

def setImport (vmp : Arena) (vsp : SegId) (mark : Bool) : Arena :=
  vmp.setSeg vsp { vmp.segs vsp with vsImport := mark }

def vsSize (vmp : Arena) (vsp : SegId) : Word := (vmp.segs vsp).vsSize

end Arena

/-- `VMEM_HASH_INDEX`. -/
def vmemHashIndex (vmp : Arena) (a : Word) : Word :=
  ((a + (a >>> vmp.vmHashShift) + (a >>> (vmp.vmHashShift <<< 1))) >>> vmp.vmQshift) &&&
    vmp.vmHashMask

/-- An empty stock of segment structures is a null dereference. -/
def vmemGetseg (vmp : Arena) : Option (SegId × Arena) :=
  match vmp.vmSegfree with
  | [] => none
  | vsp :: rest => some (vsp, { vmp with vmSegfree := rest, vmNsegfree := vmp.vmNsegfree - 1 })

def vmemPutseg (vmp : Arena) (vsp : SegId) : Arena :=
  { vmp with vmSegfree := vsp :: vmp.vmSegfree, vmNsegfree := vmp.vmNsegfree + 1 }

/-- `VS_SIZE` of the head of freelist `h`. -/
def freelistHeadSize (h : Nat) : Word := (1 : Word) <<< (h - 1)

def vmemFreelistInsert (vmp : Arena) (vsp : SegId) : Arena :=
  let h := highbit (vmp.vsSize vsp)
  let vmp := vmp.setType vsp .free
  { vmp with
    vmFreemap := vmp.vmFreemap ||| freelistHeadSize h
    vmFreelist := update vmp.vmFreelist h (vsp :: vmp.vmFreelist h) }

/-- The freelist that the links of `vsp` put it on. -/
def freelistOf (vmp : Arena) (vsp : SegId) : Option Nat :=
  (List.range (vmemFreelists + 1)).find? fun h => vsp ∈ vmp.vmFreelist h

/-- Whether a neighbour on a freelist, or the head in its place, has `vs_start == 0`. -/
def startsAtZero (vmp : Arena) : Option SegId → Bool
  | none => true
  | some vsp => (vmp.segs vsp).vsStart == 0

def freelistPrev (vmp : Arena) (h : Nat) (vsp : SegId) : Option SegId :=
  match vmp.vmFreelist h with
  | [] => none
  | first :: rest => if first = vsp then none else Ring.predFrom? vsp first rest

def freelistNext (vmp : Arena) (h : Nat) (vsp : SegId) : Option SegId :=
  Ring.succ? vsp (vmp.vmFreelist h)

def vmemFreelistDelete (vmp : Arena) (vsp : SegId) : Arena :=
  match freelistOf vmp vsp with
  | none => vmp
  | some h =>
    let kprev := freelistPrev vmp h vsp
    let kprevSize := match kprev with
      | none => freelistHeadSize h
      | some p => vmp.vsSize p
    let freemap :=
      -- both neighbours are freelist heads, so the list becomes empty
      if startsAtZero vmp (freelistNext vmp h vsp) && startsAtZero vmp kprev then
        vmp.vmFreemap ^^^ kprevSize
      else vmp.vmFreemap
    { vmp with
      vmFreemap := freemap
      vmFreelist := update vmp.vmFreelist h ((vmp.vmFreelist h).erase vsp) }

def vmemHashInsert (vmp : Arena) (vsp : SegId) : Arena :=
  let vmp := vmp.setType vsp .alloc
  let bucket := vmemHashIndex vmp (vmp.segs vsp).vsStart
  { vmp with
    vmHashTable := update vmp.vmHashTable bucket (vsp :: vmp.vmHashTable bucket)
    vkAlloc := vmp.vkAlloc + 1
    vkMemInuse := vmp.vkMemInuse + vmp.vsSize vsp }

/-- A free of an address that is not allocated, or with the wrong size, panics. -/
def vmemHashDelete (vmp : Arena) (addr size : Word) : Option (SegId × Arena) :=
  let bucket := vmemHashIndex vmp addr
  match (vmp.vmHashTable bucket).find? fun vsp => (vmp.segs vsp).vsStart == addr with
  | none => none
  | some vsp =>
    if vmp.vsSize vsp ≠ size then none
    else some (vsp, { vmp with
      vmHashTable := update vmp.vmHashTable bucket ((vmp.vmHashTable bucket).erase vsp)
      vkFree := vmp.vkFree + 1
      vkMemInuse := vmp.vkMemInuse - size })

def vmemSegCreate (vmp : Arena) (vprev : SegId) (start stop : Word) : Option (SegId × Arena) := do
  let (newseg, vmp) ← vmemGetseg vmp
  let vmp := vmp.setSeg newseg ⟨start, stop, .unset, false⟩
  return (newseg, vmp.aInsert vprev newseg)

def vmemSegDestroy (vmp : Arena) (vsp : SegId) : Arena :=
  vmemPutseg (vmp.aDelete vsp) vsp

/-- The span before which a span starting at `start` is linked in: spans that are not imported
are kept in address order, searching from the highest one down. -/
def spanKnext (vmp : Arena) (start : Word) (imported : Bool) : SegId :=
  if !imported && vmp.vmSource.isNone then
    let kprev := (vmp.kList.reverse.find? fun kprev =>
      !(vmp.segs kprev).vsImport && (vmp.segs kprev).vsEnd - 1 < start).getD seg0
    vmp.kNext kprev
  else seg0

/-- A span that is not aligned to the quantum panics. -/
def vmemSpanCreate (vmp : Arena) (vaddr size : Word) (imported : Bool) :
    Option (SegId × Arena) :=
  let start := vaddr
  let stop := start + size
  let knext := spanKnext vmp start imported
  if (start ||| stop) &&& (vmp.vmQuantum - 1) ≠ 0 then none
  else do
    let (span, vmp) ← vmemSegCreate vmp (vmp.aPrev knext) start stop
    let vmp := vmp.setType span .span
    let vmp := vmp.kInsert (vmp.kPrev knext) span
    let (newseg, vmp) ← vmemSegCreate vmp span start stop
    let vmp := vmemFreelistInsert vmp newseg
    let vmp := vmp.setImport newseg imported
    let vmp := if imported then { vmp with vkMemImport := vmp.vkMemImport + size } else vmp
    return (newseg, { vmp with vkMemTotal := vmp.vkMemTotal + size })

def vmemSpanDestroy (vmp : Arena) (vsp : SegId) : Arena :=
  let span := vmp.aPrev vsp
  let size := vmp.vsSize vsp
  let vmp :=
    if (vmp.segs vsp).vsImport then { vmp with vkMemImport := vmp.vkMemImport - size } else vmp
  let vmp := { vmp with vkMemTotal := vmp.vkMemTotal - size }
  let vmp := vmp.kDelete span
  let vmp := vmemSegDestroy vmp vsp
  vmemSegDestroy vmp span

/-- The arena `vmem_create` sets up, before its first span and its first segment structures. -/
def vmemCreate (quantum : Word) (source : Option Word) (sourceFree xalloc : Bool)
    (qcacheMax : Word) : Arena where
  vmQuantum := quantum
  vmQshift := highbit quantum - 1
  vmSource := source
  vmSourceFree := sourceFree
  vmcXalloc := xalloc
  vmQcacheMax := qcacheMax
  vmNsegfree := 0
  vmSegfree := []
  vmHashMask := 16 - 1
  vmHashShift := highbit (16 - 1)
  vmHashTable := fun _ => []
  vmFreemap := 0
  vmFreelist := fun _ => []
  segs := update (fun _ => ⟨0, 0, .span, false⟩) vmRotor ⟨0, 0, .rotor, false⟩
  aList := [vmRotor]
  kList := []
  vkMemImport := 0
  vkMemTotal := 0
  vkMemInuse := 0
  vkAlloc := 0
  vkFree := 0

end Libumem.Vmem
