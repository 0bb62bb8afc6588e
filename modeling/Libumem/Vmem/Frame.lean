import Libumem.Vmem.Extend

/-!
# What each operation on a segment leaves alone

Frame lemmas for the operations of `Libumem.Vmem.Arena`, one for each.
-/

namespace Libumem.Vmem
open Function Arith Lib
namespace VmemKstat

/-- The counters after an allocation of `size` bytes. -/
def allocated (k : VmemKstat) (size : Word) : VmemKstat :=
  { k with vkAlloc := k.vkAlloc + 1, vkMemInuse := k.vkMemInuse + size }

/-- The counters after a free of `size` bytes. -/
def freed (k : VmemKstat) (size : Word) : VmemKstat :=
  { k with vkFree := k.vkFree + 1, vkMemInuse := k.vkMemInuse - size }

/-- The counters after a span of `size` bytes has come in. -/
def spanAdded (k : VmemKstat) (size : Word) (imported : Bool) : VmemKstat :=
  { k with
    vkMemImport := if imported then k.vkMemImport + size else k.vkMemImport
    vkMemTotal := k.vkMemTotal + size }

/-- The counters after a span of `size` bytes has gone back. -/
def spanRemoved (k : VmemKstat) (size : Word) (imported : Bool) : VmemKstat :=
  { k with
    vkMemImport := if imported then k.vkMemImport - size else k.vkMemImport
    vkMemTotal := k.vkMemTotal - size }

end VmemKstat

theorem vsSize_range (addr size : Word) (type : SegType) (mark : Bool) :
    (⟨addr, addr+size, type, mark⟩ : Seg).vsSize = size :=
  add_sub_cancel_left addr size

variable (vmp : Arena) (vsp : SegId)

@[simp] theorem setSeg_frame (seg : Seg) :
    (vmp.setSeg vsp seg).aList = vmp.aList ∧ (vmp.setSeg vsp seg).kList = vmp.kList ∧
    (vmp.setSeg vsp seg).segs = update vmp.segs vsp seg ∧
    (vmp.setSeg vsp seg).vmSegfree = vmp.vmSegfree ∧
    (vmp.setSeg vsp seg).vmNsegfree = vmp.vmNsegfree ∧
    (vmp.setSeg vsp seg).vmFreelist = vmp.vmFreelist ∧
    (vmp.setSeg vsp seg).vmFreemap = vmp.vmFreemap ∧
    (vmp.setSeg vsp seg).vmHashTable = vmp.vmHashTable ∧
    (vmp.setSeg vsp seg).toArenaConf = vmp.toArenaConf ∧
    (vmp.setSeg vsp seg).toHashShape = vmp.toHashShape ∧
    (vmp.setSeg vsp seg).toVmemKstat = vmp.toVmemKstat := by
  simp [Arena.setSeg]

@[simp] theorem setStart_eq (start : Word) :
    vmp.setStart vsp start = vmp.setSeg vsp { vmp.segs vsp with vsStart := start } := rfl

@[simp] theorem setEnd_eq (stop : Word) :
    vmp.setEnd vsp stop = vmp.setSeg vsp { vmp.segs vsp with vsEnd := stop } := rfl

@[simp] theorem setType_eq (type : SegType) :
    vmp.setType vsp type = vmp.setSeg vsp { vmp.segs vsp with vsType := type } := rfl

@[simp] theorem setImport_eq (mark : Bool) :
    vmp.setImport vsp mark = vmp.setSeg vsp { vmp.segs vsp with vsImport := mark } := rfl

@[simp] theorem vmemFreelistInsert_frame :
    (vmemFreelistInsert vmp vsp).aList = vmp.aList ∧
    (vmemFreelistInsert vmp vsp).kList = vmp.kList ∧
    (vmemFreelistInsert vmp vsp).segs =
      update vmp.segs vsp { vmp.segs vsp with vsType := .free } ∧
    (vmemFreelistInsert vmp vsp).vmSegfree = vmp.vmSegfree ∧
    (vmemFreelistInsert vmp vsp).vmNsegfree = vmp.vmNsegfree ∧
    (vmemFreelistInsert vmp vsp).vmHashTable = vmp.vmHashTable ∧
    (vmemFreelistInsert vmp vsp).toArenaConf = vmp.toArenaConf ∧
    (vmemFreelistInsert vmp vsp).toHashShape = vmp.toHashShape ∧
    (vmemFreelistInsert vmp vsp).toVmemKstat = vmp.toVmemKstat := by
  simp [vmemFreelistInsert]

@[simp] theorem vmemFreelistDelete_frame :
    (vmemFreelistDelete vmp vsp).aList = vmp.aList ∧
    (vmemFreelistDelete vmp vsp).kList = vmp.kList ∧
    (vmemFreelistDelete vmp vsp).segs = vmp.segs ∧
    (vmemFreelistDelete vmp vsp).vmSegfree = vmp.vmSegfree ∧
    (vmemFreelistDelete vmp vsp).vmNsegfree = vmp.vmNsegfree ∧
    (vmemFreelistDelete vmp vsp).vmHashTable = vmp.vmHashTable ∧
    (vmemFreelistDelete vmp vsp).toArenaConf = vmp.toArenaConf ∧
    (vmemFreelistDelete vmp vsp).toHashShape = vmp.toHashShape ∧
    (vmemFreelistDelete vmp vsp).toVmemKstat = vmp.toVmemKstat := by
  unfold vmemFreelistDelete
  split <;> simp

@[simp] theorem vmemHashInsert_frame :
    (vmemHashInsert vmp vsp).aList = vmp.aList ∧
    (vmemHashInsert vmp vsp).kList = vmp.kList ∧
    (vmemHashInsert vmp vsp).segs =
      update vmp.segs vsp { vmp.segs vsp with vsType := .alloc } ∧
    (vmemHashInsert vmp vsp).vmSegfree = vmp.vmSegfree ∧
    (vmemHashInsert vmp vsp).vmNsegfree = vmp.vmNsegfree ∧
    (vmemHashInsert vmp vsp).vmFreelist = vmp.vmFreelist ∧
    (vmemHashInsert vmp vsp).vmFreemap = vmp.vmFreemap ∧
    (vmemHashInsert vmp vsp).toArenaConf = vmp.toArenaConf ∧
    (vmemHashInsert vmp vsp).toHashShape = vmp.toHashShape ∧
    (vmemHashInsert vmp vsp).toVmemKstat = vmp.toVmemKstat.allocated (vmp.segs vsp).vsSize := by
  simp [vmemHashInsert, Arena.setSeg, VmemKstat.allocated, Arena.vsSize, Seg.vsSize]

@[simp] theorem vmemSegDestroy_frame :
    (vmemSegDestroy vmp vsp).aList = vmp.aList.erase vsp ∧
    (vmemSegDestroy vmp vsp).kList = vmp.kList ∧
    (vmemSegDestroy vmp vsp).segs = vmp.segs ∧
    (vmemSegDestroy vmp vsp).vmSegfree = vsp :: vmp.vmSegfree ∧
    (vmemSegDestroy vmp vsp).vmNsegfree = vmp.vmNsegfree+1 ∧
    (vmemSegDestroy vmp vsp).vmFreelist = vmp.vmFreelist ∧
    (vmemSegDestroy vmp vsp).vmFreemap = vmp.vmFreemap ∧
    (vmemSegDestroy vmp vsp).vmHashTable = vmp.vmHashTable ∧
    (vmemSegDestroy vmp vsp).toArenaConf = vmp.toArenaConf ∧
    (vmemSegDestroy vmp vsp).toHashShape = vmp.toHashShape ∧
    (vmemSegDestroy vmp vsp).toVmemKstat = vmp.toVmemKstat := by
  simp [vmemSegDestroy, vmemPutseg, Arena.aDelete]

@[simp] theorem aDelete_frame :
    (vmp.aDelete vsp).aList = vmp.aList.erase vsp ∧ (vmp.aDelete vsp).kList = vmp.kList ∧
    (vmp.aDelete vsp).segs = vmp.segs ∧ (vmp.aDelete vsp).vmSegfree = vmp.vmSegfree ∧
    (vmp.aDelete vsp).vmNsegfree = vmp.vmNsegfree ∧
    (vmp.aDelete vsp).vmFreelist = vmp.vmFreelist ∧
    (vmp.aDelete vsp).vmFreemap = vmp.vmFreemap ∧
    (vmp.aDelete vsp).vmHashTable = vmp.vmHashTable ∧
    (vmp.aDelete vsp).toArenaConf = vmp.toArenaConf ∧
    (vmp.aDelete vsp).toHashShape = vmp.toHashShape ∧
    (vmp.aDelete vsp).toVmemKstat = vmp.toVmemKstat := by
  simp [Arena.aDelete]

@[simp] theorem kInsert_frame (vprev : SegId) :
    (vmp.kInsert vprev vsp).aList = vmp.aList ∧
    (vmp.kInsert vprev vsp).kList = Ring.insert seg0 vmp.kList vprev vsp ∧
    (vmp.kInsert vprev vsp).segs = vmp.segs ∧
    (vmp.kInsert vprev vsp).vmSegfree = vmp.vmSegfree ∧
    (vmp.kInsert vprev vsp).vmNsegfree = vmp.vmNsegfree ∧
    (vmp.kInsert vprev vsp).vmFreelist = vmp.vmFreelist ∧
    (vmp.kInsert vprev vsp).vmFreemap = vmp.vmFreemap ∧
    (vmp.kInsert vprev vsp).vmHashTable = vmp.vmHashTable ∧
    (vmp.kInsert vprev vsp).toArenaConf = vmp.toArenaConf ∧
    (vmp.kInsert vprev vsp).toHashShape = vmp.toHashShape ∧
    (vmp.kInsert vprev vsp).toVmemKstat = vmp.toVmemKstat := by
  simp [Arena.kInsert]

@[simp] theorem kDelete_frame :
    (vmp.kDelete vsp).aList = vmp.aList ∧ (vmp.kDelete vsp).kList = vmp.kList.erase vsp ∧
    (vmp.kDelete vsp).segs = vmp.segs ∧ (vmp.kDelete vsp).vmSegfree = vmp.vmSegfree ∧
    (vmp.kDelete vsp).vmNsegfree = vmp.vmNsegfree ∧
    (vmp.kDelete vsp).vmFreelist = vmp.vmFreelist ∧
    (vmp.kDelete vsp).vmFreemap = vmp.vmFreemap ∧
    (vmp.kDelete vsp).vmHashTable = vmp.vmHashTable ∧
    (vmp.kDelete vsp).toArenaConf = vmp.toArenaConf ∧
    (vmp.kDelete vsp).toHashShape = vmp.toHashShape ∧
    (vmp.kDelete vsp).toVmemKstat = vmp.toVmemKstat := by
  simp [Arena.kDelete]

theorem vmemHashIndex_congr {vmp vmp' : Arena} (hc : vmp'.toArenaConf = vmp.toArenaConf)
    (hs : vmp'.toHashShape = vmp.toHashShape) (a : Word) :
    vmemHashIndex vmp' a = vmemHashIndex vmp a := by
  simp only [vmemHashIndex, hc, hs]

end Libumem.Vmem
