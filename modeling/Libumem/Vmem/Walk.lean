import Libumem.Vmem.Invariant

/-!
# Looking an arena over

`vmem_walk` with the lock held all the time, and what `vmem_xfree` accepts, in the states that runs
lead to.
-/

namespace Libumem.Vmem
open List Arith Lib

/-- `vmem_walk` without `VMEM_REENTRANT`: what `func` is called with, and the arena it leaves. -/
def vmemWalk (vmp : Arena) (typemask : SegType → Bool) (walker : SegId) :
    List Block × Arena × Option Block :=
  if typemask .walker then ([], vmp, none)
  else
    let vmp := vmemWalkInsert vmp walker
    ((vmp.aList.filter fun vsp => typemask (vmp.segs vsp).vsType).map fun vsp =>
      (vmp.segs vsp).block, vmemAdvance vmp walker none)

/-- A run whose sizes, alignments and bounds are in range leads to the state. -/
def Sys.Reached (s : Sys) : Prop :=
  ∃ quantum source sourceFree xalloc qcacheMax ops, IsPow2 quantum ∧ (∀ sq ∈ source, IsPow2 sq) ∧
    Runs (Sys.Moves fun s op => op.Admissible s ∧ op.InRange s)
      (Sys.create quantum source sourceFree xalloc qcacheMax) ops s

variable {s : Sys} {vmp : Arena}

theorem Sys.Reached.invariant (h : s.Reached) : s.Invariant := by
  obtain ⟨_, _, _, _, _, _, hq, hsq, hrun⟩ := h
  exact hrun.invariant (fun s op s' hs hm => hs.step hm.1.1 hm.1.2 hm.2)
    (Sys.create_invariant hq hsq)

theorem Sys.Reached.step (h : s.Reached) (op : Op) {s' : Sys} (hadm : op.Admissible s)
    (hok : op.InRange s) (hs : s.step op = some s') : s'.Reached := by
  obtain ⟨_, _, _, _, _, ops, hq, hsq, hrun⟩ := h
  refine ⟨_, _, _, _, _, ops ++ [op], hq, hsq, Runs.append.mpr ⟨s, hrun, ?_⟩⟩
  exact Runs.singleton.mpr ⟨⟨hadm, hok⟩, hs⟩

section
variable (hL : Layout vmp)
include hL

theorem vmemXfree_isSome (hI : Indexed vmp []) {y : SegId} (hy : y ∈ vmp.aList)
    (ht : (vmp.segs y).vsType = .alloc) :
    (vmemXfree vmp (vmp.segs y).vsStart (vmp.segs y).vsSize).isSome := by
  have hmem : y ∈ vmp.vmHashTable (vmemHashIndex vmp (vmp.segs y).vsStart) :=
    (hI.hash.mem _ y).mpr ⟨⟨hy, by simp, ht⟩, rfl⟩
  -- the chain has no other segment with the address
  cases hfind : (vmp.vmHashTable (vmemHashIndex vmp (vmp.segs y).vsStart)).find? fun vsp =>
      (vmp.segs vsp).vsStart == (vmp.segs y).vsStart with
  | none => simpa using find?_eq_none.mp hfind y hmem
  | some z =>
    obtain ⟨⟨hz, -, htz⟩, -⟩ := (hI.hash.mem _ z).mp (mem_of_find?_eq_some hfind)
    obtain rfl := hL.eq_of_vsStart hz hy (.inl htz) (.inl ht) (by simpa using find?_some hfind)
    simp only [vmemXfree, vmemHashDelete, hfind, Arena.vsSize, ne_eq, not_true_eq_false, if_false,
      Option.bind_eq_bind, Option.bind_some]
    split <;> rfl

end

/-- In every state `vmem_xfree` takes exactly the live blocks, with their exact sizes, and panics on
all else. An address that has been freed is not taken again, with whatever size. -/
theorem xfree_accepts_iff (h : s.Reached) (vaddr size : Word) :
    ((vmemXfree s.arena vaddr size).isSome ↔ ⟨vaddr, size⟩ ∈ s.live) ∧
    ∀ vmp released, vmemXfree s.arena vaddr size = some (vmp, released) →
      ∀ size', vmemXfree vmp vaddr size' = none := by
  have hw := h.invariant.wellFormed
  have hmem := h.invariant.held.mem ⟨vaddr, size⟩
  refine ⟨⟨fun hsome => ?_, fun hb => ?_⟩, fun vmp released hfree size' => ?_⟩
  · obtain ⟨r, hr⟩ := Option.isSome_iff_exists.mp hsome
    obtain ⟨-, ⟨v, hv, ht, rfl, rfl, -⟩, -⟩ := vmemXfree_drops hw hr
    exact hmem.mpr ⟨v, hv, ht, rfl⟩
  · obtain ⟨y, hy, ht, hblock⟩ := hmem.mp hb
    cases hblock
    exact vmemXfree_isSome hw.layout hw.indexed hy ht
  · obtain ⟨hw', ⟨v, hv, ht, hstart, -, hd⟩, -⟩ := vmemXfree_drops hw hfree
    apply Option.eq_none_iff_forall_ne_some.mpr
    rintro ⟨vmp', released'⟩ hagain
    obtain ⟨-, ⟨v', hv', ht', hstart', -, -⟩, -⟩ := vmemXfree_drops hw' hagain
    obtain ⟨hne, hfixed⟩ := (hd.fixed v').mp ⟨hv', .inl ht'⟩
    rw [hd.segs v' hfixed hne] at ht' hstart'
    exact hne (hw.layout.eq_of_vsStart hfixed.1 hv (.inl ht') (.inl ht)
      (hstart'.trans hstart.symm))

/-- A block of 24 bytes is allocated. -/
theorem exists_reached : ∃ s : Sys, s.Reached ∧ s.live = [⟨0x1000, 24⟩] ∧
    20 ∉ seg0 :: (s.arena.aList ++ s.arena.vmSegfree) := by
  obtain ⟨s, hrun, hs⟩ := exists_runs (P := fun s op => Op.Admissible s op ∧ Op.InRange s op)
    (f := Sys.step) (Sys.create 8 none false false 0)
    (stockOps ++ [.add 0x1000 0x1000, .xalloc ⟨24, 0, 0, 0, 0, 0, true, false, true⟩,
      .resume (.xalloc ⟨24, 0, 0, 0, 0, 0, true, false, true⟩) ⟨0, 0⟩])
    (fun s => (s.live, decide (20 ∉ seg0 :: (s.arena.aList ++ s.arena.vmSegfree))))
    ([⟨0x1000, 24⟩], true) (by decide +kernel)
  simp only [Prod.mk.injEq, decide_eq_true_eq] at hs
  exact ⟨s, ⟨8, none, false, false, 0, _, isPow2_eight, by simp, hrun⟩, hs⟩

theorem xfree_accepts_live : ∃ s : Sys, s.Reached ∧ (vmemXfree s.arena 0x1000 24).isSome := by
  obtain ⟨s, h, hlive, -⟩ := exists_reached
  exact ⟨s, h, (xfree_accepts_iff h 0x1000 24).1.mpr (by simp [hlive])⟩

/-- A walk over the allocated segments visits the live blocks, each once, and leads to a state in
which they are live. -/
theorem walk_visits_live (h : s.Reached) {walker : SegId}
    (hfresh : walker ∉ seg0 :: (s.arena.aList ++ s.arena.vmSegfree)) :
    (vmemWalk s.arena (· == .alloc) walker).1.Perm s.live ∧
    ∃ s' : Sys, s'.Reached ∧ s'.arena = (vmemWalk s.arena (· == .alloc) walker).2.1 ∧
      s'.live = s.live := by
  have hin := h.step (.walk walker) hfresh trivial rfl
  have hout := hin.step (.advance walker none)
    ⟨by simp, by simp [vmemWalkInsert, Arena.aInsert, Arena.setSeg],
      by simp [Arena.Place]⟩ trivial rfl
  refine ⟨?_, _, hout, rfl, rfl⟩
  have hheld := hin.invariant.held
  have hL := hin.invariant.wellFormed.layout
  apply (perm_ext_iff_of_nodup ?_ (hheld.nodup hL)).mpr
  · intro b
    simp [vmemWalk, hheld.mem, and_assoc]
  · apply Nodup.map_on _ ((nodup_cons.mp hL.nodup_aList).2.filter _)
    intro a ha b hb heq
    simp only [mem_filter, beq_iff_eq] at ha hb
    exact Held.eq_of_block hL ha.1 hb.1 ha.2 hb.2 heq

theorem walk_visits_block : ∃ s : Sys, s.Reached ∧
    (vmemWalk s.arena (· == .alloc) 20).1.Perm [⟨0x1000, 24⟩] := by
  obtain ⟨s, h, hlive, hfresh⟩ := exists_reached
  exact ⟨s, h, hlive ▸ (walk_visits_live h hfresh).1⟩

end Libumem.Vmem
