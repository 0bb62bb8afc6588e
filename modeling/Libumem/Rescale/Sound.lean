import Libumem.Rescale.Slab
import Libumem.Slab.Safe
import Libumem.Vmem.Invariant

/-!
# Rescaling keeps the contents of a hash table

The two rescale functions together. For the tables of caches, and of arenas that the arrays do not
come from, nothing but the chains changes. Where the arrays come from the arena itself, this is true
of what happens between the allocation of the new array and the free of the old one.
-/

namespace Libumem.Rescale
open Option Arith Lib Vmem Slab

theorem hash_rescale_sound :
    (∀ (vmp : Vmem.Arena) (got hash0 : Bool), WellFormed vmp → TableSize 4 (hashTableSize vmp) →
      (nseg vmp).toNat < 2 ^ 30 → ∃ vmp', Rescales vmemHashView
        (fun got vmp => some (vmemHashRescale (.elsewhere got hash0) vmp)) 16 (nseg vmp).toNat
        got vmp vmp') ∧
    (∀ (vmp : Vmem.Arena) (calls : ArrayCalls) (mid : Vmem.Arena), (nseg vmp).toNat < 2 ^ 30 →
      ¬ NearEnough (hashTableSize vmp) (hashSize vmemHashInitial (nseg vmp)) →
      calls.alloc vmp (hashSize vmemHashInitial (nseg vmp) * 8) = (mid, true) →
      WellFormed mid → TableSize 4 (hashTableSize mid) →
      vmemHashRescale calls vmp = (if calls.hash0
        then rebuildHash mid (hashSize vmemHashInitial (nseg vmp))
        else calls.free (rebuildHash mid (hashSize vmemHashInitial (nseg vmp)))) ∧
      RebuildsSection (nseg vmp).toNat mid (hashSize vmemHashInitial (nseg vmp))) ∧
    ∀ (g : Geom) (s : State) (ly : Slab.Layout) (got : Bool), Inv g s ly → g.hash = true →
      TableSize 6 (cacheTableSize s) → s.buftotal < 2 ^ 30 →
      ∃ s', Rescales (umemHashView g) (umemHashRescale g) 64 s.buftotal got s s' :=
  ⟨fun _ got hash0 hw hsize hn => vmemHashRescale_elsewhere hw hsize hn got hash0,
    fun _ _ _ hn hfar halloc hw hsize => vmemHashRescale_between hn hfar halloc hw hsize,
    fun _ _ _ got h hhash hsize hn => umemHashRescale_rescales h hhash hsize hn got⟩

/-! ## An arena with its own table in it -/

/-- The allocation of a table of 64 pointers. -/
def tableOps : List Op :=
  stockOps ++ [.add 0x10000 0x1000, .alloc 512 ⟨false, false, false, true⟩,
    .resume (.instant 512 true) ⟨0, 0⟩]

/-- The arrays come from the arena itself. -/
def ownCalls : ArrayCalls where
  alloc := fun vmp size =>
    match vmemAlloc vmp size with
    | some (vmp, .done _ _) => (vmp, true)
    | _ => (vmp, false)
  hash0 := false
  free := fun vmp => ((vmemXfree vmp 0x10000 512).map Prod.fst).getD vmp

/-- What the run leaves, once its table has been rebuilt with 64 pointers: one entry, and room for an
array of 16 pointers behind it. -/
def tableCheck (s : Sys) : Bool :=
  decide (s.live = [⟨0x10000, 512⟩] ∧ nseg s.arena = 1 ∧ hashTableSize s.arena = 16 ∧
    (vmemAlloc (rebuildHash s.arena 64) 128).map Prod.snd = some (.done 0x10200 none) ∧
    (vmemAlloc (rebuildHash s.arena 64) 128).map (fun r => hashTableSize r.1) = some 64)

theorem tableOps_run : ∃ s, Runs (Sys.Moves fun s op => op.Admissible s ∧ op.InRange s)
    (Sys.create 8 (some 4096) true false 0) tableOps s ∧ tableCheck s = true :=
  exists_runs (P := fun s op => Op.Admissible s op ∧ Op.InRange s op) (f := Sys.step) _ _ tableCheck
    _ (by decide +kernel)

theorem vmemHashLookup_isSome {vmp : Vmem.Arena} {live : List Block} (hw : WellFormed vmp)
    (hh : Held vmp live) {a : Word} :
    (vmemHashLookup vmp a).isSome = true ↔ ∃ b ∈ live, b.addr = a := by
  rw [isSome_iff_exists]
  constructor
  · rintro ⟨x, hx⟩
    obtain ⟨⟨hmem, -, ht⟩, ha⟩ := (vmemHashLookup_eq_some hw).mp hx
    exact ⟨_, (hh.mem _).mpr ⟨x, hmem, ht, rfl⟩, ha⟩
  · rintro ⟨b, hb, rfl⟩
    obtain ⟨x, hmem, ht, rfl⟩ := (hh.mem b).mp hb
    exact ⟨x, (vmemHashLookup_eq_some hw).mpr ⟨⟨hmem, by simp, ht⟩, rfl⟩⟩

structure OwnTable (vmp : Vmem.Arena) : Prop where
  wellFormed : WellFormed vmp
  held : Held vmp [⟨0x10000, 512⟩]
  nseg : nseg vmp = 1
  size : hashTableSize vmp = 64
  room : ∃ mid, vmemAlloc vmp 128 = some (mid, .done 0x10200 none) ∧ hashTableSize mid = 64

theorem exists_ownTable : ∃ vmp, OwnTable vmp := by
  obtain ⟨s, hrun, hs⟩ := tableOps_run
  have hinv := hrun.invariant (P := Sys.Invariant)
    (fun s op s' hs hm => hs.step hm.1.1 hm.1.2 hm.2)
    (Sys.create_invariant ⟨3, by decide⟩ fun sq hsq => by
      cases hsq
      exact ⟨12, by decide⟩)
  obtain ⟨hlive, hnseg, hsize, hdone, hmid⟩ := of_decide_eq_true hs
  have hheld := hinv.held
  rw [hlive] at hheld
  obtain ⟨⟨mid, r⟩, halloc, rfl⟩ := map_eq_some_iff.mp hdone
  rw [halloc] at hmid
  obtain ⟨ha, hsegs, hn⟩ := rebuildHash_keeps s.arena 64
  refine ⟨rebuildHash s.arena 64,
    rebuildHash_wellFormed hinv.wellFormed ⟨4, by decide, by decide, by rw [hsize]; rfl⟩ 64,
    hheld.keeps (Keeps.ofSame ha hsegs), hn.trans hnseg, hashTableSize_rebuildHash, mid, halloc, ?_⟩
  exact some.inj hmid

namespace OwnTable
variable {vmp : Vmem.Arena}

section

variable (h : OwnTable vmp)

include h

theorem tableSize : TableSize 4 (hashTableSize vmp) :=
  ⟨6, by decide, by decide, by rw [h.size]; rfl⟩

theorem newSize : hashSize vmemHashInitial (Rescale.nseg vmp) = 16 := by
  rw [h.nseg]
  decide

theorem far : ¬ NearEnough (hashTableSize vmp) (hashSize vmemHashInitial (Rescale.nseg vmp)) := by
  rw [h.newSize, h.size]
  decide

theorem alloc_own : ∃ mid,
    ownCalls.alloc vmp (hashSize vmemHashInitial (Rescale.nseg vmp) * 8) = (mid, true) ∧
      WellFormed mid ∧ TableSize 4 (hashTableSize mid) ∧
      Held mid [⟨0x10200, 128⟩, ⟨0x10000, 512⟩] := by
  obtain ⟨mid, halloc, hsize⟩ := h.room
  have hacts := (vmemAlloc_serves h.wellFormed halloc).acts
  refine ⟨mid, ?_, (hacts.wellFormed h.wellFormed).1,
    ⟨6, by decide, by decide, by rw [hsize]; rfl⟩, hacts.held h.wellFormed h.held⟩
  rw [h.newSize]
  simp only [ownCalls, show (16 : Word) * 8 = 128 from rfl, halloc]

theorem lookup_new : (vmemHashLookup (vmemHashRescale ownCalls vmp) 0x10200).isSome = true := by
  obtain ⟨mid, halloc, hmid, hsize, hheld⟩ := h.alloc_own
  have hw := rebuildHash_wellFormed hmid hsize 16
  obtain ⟨ha, hsegs, -⟩ := rebuildHash_keeps mid 16
  have hh : Held (rebuildHash mid 16) [⟨0x10200, 128⟩, ⟨0x10000, 512⟩] :=
    hheld.keeps (Keeps.ofSame ha hsegs)
  have hn : (Rescale.nseg vmp).toNat < 2^30 := by
    rw [h.nseg]
    decide
  rw [(vmemHashRescale_between hn h.far halloc hmid hsize).1, h.newSize]
  unfold ownCalls
  dsimp only
  cases hfree : vmemXfree (rebuildHash mid 16) 0x10000 512 with
  | none => exact (vmemHashLookup_isSome hw hh).mpr ⟨⟨0x10200, 128⟩, by simp, rfl⟩
  | some r =>
    obtain ⟨vmp', released⟩ := r
    obtain ⟨hw', ⟨v, hv, ht, hstart, hvsize, hd⟩, -⟩ := vmemXfree_drops hw hfree
    refine (vmemHashLookup_isSome hw' (hh.drops hw.layout hd hv ht)).mpr ⟨⟨0x10200, 128⟩, ?_, rfl⟩
    rw [Seg.block, hstart, hvsize]
    decide

end

end OwnTable

/-- `vmem_hash_arena` has nothing in it but its own table of 64 pointers. When that is rescaled to 16
pointers, the new array becomes an entry. And where a rescale found no memory, the next one may. -/
theorem hash_rescale_limits : ∃ vmp, WellFormed vmp ∧ TableSize 4 (hashTableSize vmp) ∧
    (nseg vmp).toNat = 1 ∧
    vmemHashLookup (vmemHashRescale ownCalls vmp) 0x10200 ≠ vmemHashLookup vmp 0x10200 ∧
    vmemHashRescale (.elsewhere false false) vmp = vmp ∧
    vmemHashRescale (.elsewhere true false) vmp ≠ vmp := by
  obtain ⟨vmp, h⟩ := exists_ownTable
  refine ⟨vmp, h.wellFormed, h.tableSize, by rw [h.nseg]; rfl, ?_, if_neg h.far, ?_⟩
  · intro heq
    have hsome := h.lookup_new
    rw [heq, vmemHashLookup_isSome h.wellFormed h.held] at hsome
    revert hsome
    decide
  · intro heq
    have hrebuilt : vmemHashRescale (.elsewhere true false) vmp =
        rebuildHash vmp (hashSize vmemHashInitial (nseg vmp)) := if_neg h.far
    have hsize := congrArg hashTableSize (hrebuilt.symm.trans heq)
    rw [hashTableSize_rebuildHash, h.newSize, h.size] at hsize
    revert hsize
    decide

/-! ## A cache without buffers and a large table -/

/-- A cache that was large, with a table of 256 pointers. -/
def emptied : State := installTable (initial tinyObjects zeroMemory) 256 ⟨fun _ => 0, fun _ => 0⟩

theorem emptied_inv : Inv tinyObjects emptied ⟨[], [], fun _ => [], fun _ => [], fun _ => []⟩ := by
  refine inv_installTable (initial_inv tinyObjects zeroMemory) (fun _ _ => rfl) ?_
  refine ⟨fun _ => [], fun _ => rfl, fun bcp i => ?_⟩
  simp [InUse]

/-- All three parts at tables that are rebuilt, the second where the arena holds the arrays itself. -/
theorem hash_rescale_sound_shrinks :
    (∃ vmp vmp', OwnTable vmp ∧ Rescales vmemHashView
      (fun got vmp => some (vmemHashRescale (.elsewhere got false) vmp)) 16 1 true vmp vmp') ∧
    (∃ vmp mid, OwnTable vmp ∧ vmemHashRescale ownCalls vmp = ownCalls.free (rebuildHash mid 16) ∧
      RebuildsSection 1 mid 16) ∧
    ∃ s', Rescales (umemHashView tinyObjects) (umemHashRescale tinyObjects) 64 0 true emptied s' := by
  obtain ⟨vmp, h⟩ := exists_ownTable
  obtain ⟨helse, hbetween, hcache⟩ := hash_rescale_sound
  have hone : (nseg vmp).toNat = 1 := by
    rw [h.nseg]
    rfl
  have hn : (nseg vmp).toNat < 2 ^ 30 := by
    rw [hone]
    decide
  refine ⟨⟨vmp, ?_⟩, ⟨vmp, ?_⟩, ?_⟩
  · obtain ⟨vmp', hr⟩ := helse vmp true false h.wellFormed h.tableSize hn
    rw [hone] at hr
    exact ⟨vmp', h, hr⟩
  · obtain ⟨mid, halloc, hmid, hsize, -⟩ := h.alloc_own
    have := hbetween vmp ownCalls mid hn h.far halloc hmid hsize
    rw [hone, h.newSize] at this
    exact ⟨mid, h, this⟩
  · exact hcache tinyObjects emptied _ true emptied_inv rfl ⟨8, by decide, by decide, by decide⟩
      (by decide)

end Libumem.Rescale
