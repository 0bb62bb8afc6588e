import Libumem.Slab.CacheGeometry
import Libumem.Slab.Conserve

/-!
# The slab layer as a pool of blocks

What `umem_cache_create` settles carries over to the runs of the slab layer: they are runs of a pool
that hands out and takes back blocks, no two of which overlap.
-/

namespace Libumem.Slab
open List Option Arith Lib

def ApartBy (size : Nat) (a b : Word) : Prop := a.toNat + size ≤ b.toNat ∨ b.toNat + size ≤ a.toNat

/-- What an event does to the blocks of a pool that are in use. -/
def Pool (size : Nat) (held : List Word) (e : Event) (held' : List Word) : Prop :=
  match e with
  | .alloc | .link _ =>
    held' = held ∨ ∃ buf, held' = buf :: held ∧ ∀ a ∈ held, ApartBy size buf a
  | .free buf _ => held' = held.erase buf
  | _ => held' = held

section
variable {g : Geom} {s s' : State} {ly : Layout} {e : Event} {buf : Word}

theorem Geom.SpanOk.chunks_apart {sl : UmemSlab} {a b : Word} (h : g.SpanOk sl)
    (ha : a ∈ g.chunkStarts sl) (hb : b ∈ g.chunkStarts sl) (hne : a ≠ b) :
    ApartBy g.chunksize.toNat a b := by
  obtain ⟨i, hi, rfl⟩ := Geom.mem_chunksFrom.mp ha
  obtain ⟨j, hj, rfl⟩ := Geom.mem_chunksFrom.mp hb
  have hij : i ≠ j := fun h => hne (by rw [h])
  rw [ApartBy, h.toNat_chunk hi, h.toNat_chunk hj]
  rcases hij.lt_or_gt with hlt | hlt
  all_goals
    have := Nat.mul_le_mul_right g.chunksize.toNat hlt
    grind

theorem Inv.held_apart (h : Inv g s ly) : s.held.Pairwise (ApartBy g.chunksize.toNat) := by
  refine h.held_nodup.imp_of_mem fun {a b} ha hb hne => ?_
  obtain ⟨sp, hsp, bcp, hbcp, rfl⟩ := (h.held a).mp ha
  obtain ⟨sp', hsp', bcp', hbcp', rfl⟩ := (h.held b).mp hb
  have hchunk := (h.slab sp hsp).addr_mem (mem_append_right _ hbcp)
  have hchunk' := (h.slab sp' hsp').addr_mem (mem_append_right _ hbcp')
  by_cases heq : sp = sp'
  · subst heq
    exact (h.slab sp hsp).span.chunks_apart hchunk hchunk' hne
  · have hin := (h.slab sp hsp).span.chunk_in_span hchunk
    have hin' := (h.slab sp' hsp').span.chunk_in_span hchunk'
    unfold ApartBy
    rcases h.apart sp hsp sp' hsp' heq with hle | hle <;> omega

theorem takeBuffer_held (g : Geom) (s : State) (sp : Word) : (takeBuffer g s sp).1.held = s.held ∨
    ∃ buf, (takeBuffer g s sp).1.held = buf :: s.held := by
  unfold takeBuffer
  dsimp only
  split
  · exact .inl rfl
  · exact .inr ⟨_, rfl⟩

theorem buildChunks_held (sp : Word) (bcs : List Word) (buf : Word) :
    (buildChunks g sp bcs buf s).held = s.held := by
  obtain ⟨_, _, _, _, heq⟩ := buildChunks_eq sp bcs buf s
  rw [heq]

theorem reclaimWalk_held (interval delay : BitVec 32) (n : Nat) (sp : Word)
    (r : State × List Word) : (reclaimWalk g interval delay n sp r).1.held = r.1.held := by
  induction n generalizing sp r with
  | zero => rfl
  | succ n ih =>
    rw [reclaimWalk]
    split
    · rfl
    · rw [ih, reclaimTurn]
      dsimp only
      repeat' split
      all_goals rfl

theorem setSlabs_held (f : UmemSlab → UmemSlab) (list : List Word) :
    (list.foldl (fun s sp => s.setSlab sp f) s).held = s.held := by
  induction list generalizing s with
  | nil => rfl
  | cons sp list ih => exact ih

section
variable (h : Inv g s ly)
include h

theorem umemSlabFree_held (hlegit : LegitFree g s buf) (enabled : Bool) :
    (umemSlabFree g s buf enabled).held = s.held.erase buf := by
  by_cases hbuf : buf ∈ s.held
  · obtain ⟨sp, hsp, bcp, hb, rfl⟩ := (h.held buf).mp hbuf
    obtain ⟨s₁, ⟨next, table, rfl⟩, -, heq⟩ := umemSlabFree_used h hsp hb enabled
    rw [heq]
    repeat' split
    all_goals rfl
  · rw [erase_of_not_mem hbuf, umemSlabFree_of_notHeld h hlegit hbuf]

theorem Inv.pool (hs : LegitStep g s e s') : Pool g.chunksize.toNat s.held e s'.held := by
  obtain ⟨hlegit, hstep⟩ := hs
  obtain ⟨ly', h', -⟩ := h.step hlegit hstep
  have htaken : (s'.held = s.held ∨ ∃ buf, s'.held = buf :: s.held) →
      Pool g.chunksize.toNat s.held .alloc s'.held := by
    rintro (heq | ⟨buf, heq⟩)
    · exact .inl heq
    · have hapart := h'.held_apart
      rw [heq] at hapart
      exact .inr ⟨buf, heq, (pairwise_cons.mp hapart).1⟩
  cases e with
  | alloc =>
    cases hstep
    apply htaken
    unfold umemSlabAlloc
    dsimp only
    repeat' split
    all_goals first | exact .inl rfl | exact takeBuffer_held g s _
  | link sp =>
    obtain ⟨r, hlink, rfl⟩ := map_eq_some_iff.mp hstep
    obtain ⟨-, hlink⟩ := ite_none_right_eq_some.mp hlink
    cases hlink
    exact htaken (takeBuffer_held g _ sp)
  | free buf enabled =>
    cases hstep
    exact umemSlabFree_held h hlegit enabled
  | color =>
    obtain ⟨-, hstep⟩ := ite_none_left_eq_some.mp hstep
    cases hstep
    rfl
  | create color slab header bufctls =>
    obtain ⟨-, hstep⟩ := ite_none_right_eq_some.mp hstep
    cases hstep
    exact buildChunks_held _ _ _
  | createFail | destroy | write =>
    obtain ⟨-, hstep⟩ := ite_none_right_eq_some.mp hstep
    cases hstep
    rfl
  | startReclaim interval delay =>
    obtain ⟨-, hstep⟩ := ite_none_right_eq_some.mp hstep
    cases hstep
    exact reclaimWalk_held _ _ _ _ _
  | finishReclaim =>
    obtain ⟨list, -, rfl⟩ := map_eq_some_iff.mp hstep
    exact setSlabs_held _ list

theorem Inv.runs_pool {events : List Event} (hrun : Runs (LegitStep g) s events s') :
    Runs (Pool g.chunksize.toNat) s.held events s'.held := by
  induction events generalizing s ly with
  | nil => exact congrArg State.held hrun
  | cons e events ih =>
    obtain ⟨m, hm, hrun⟩ := hrun
    obtain ⟨ly', h', -⟩ := h.step hm.1 hm.2
    exact ⟨m.held, h.pool hm, ih h' hrun⟩

end
end

/-- Every run of the slab layer of a proper cache is a run of the pool of its chunks. -/
def Cache.IsPool (c : Cache) : Prop :=
  ∃ h : c.Proper, ∀ cp nullslab linkCookie memory events s,
    Runs (LegitStep (h.geom cp nullslab linkCookie))
      (initial (h.geom cp nullslab linkCookie) memory) events s →
    Runs (Pool c.chunksize.toNat) [] events s.held

/-- A cache that is created with enough room is a pool, and its chunks hold the buffers that were
asked for. -/
theorem created_cache_is_pool (t : Tunables) (vmp : Arena) (args : CreateArgs) {c : Cache}
    (hqcache : args.cflags.qcache = false) (hcreate : umemCacheCreate t vmp args = some (.ok c))
    (hroom : RoomFor t vmp args) : args.bufsize.toNat ≤ c.chunksize.toNat ∧ c.IsPool := by
  obtain ⟨r, hr, hc⟩ := umemCacheCreate_ends t vmp args hqcache
  have hcreated := hc c (by simpa [hr] using hcreate)
  refine ⟨hcreated.bufsize_le, hcreated.proper hroom, ?_⟩
  intro cp nullslab linkCookie memory events s hrun
  exact (initial_inv _ memory).runs_pool hrun

theorem pageObjectsCache_is_pool : pageObjectsCache.IsPool :=
  (created_cache_is_pool plain pages ⟨0x1000, 0, noFlags⟩ rfl (by decide +kernel)
    ⟨by decide, by decide, by decide⟩).2

end Libumem.Slab
