import Libumem.Backend.Grow
import Libumem.Lib.Errno

/-!
# errno through the heap backends

`vmem_mmap_alloc` with `vmem_mmap_top_alloc` below it (`vmem_mmap.c`), and `vmem_sbrk_alloc`
(`vmem_sbrk.c`), over every way their steps can end. "Restore errno ONLY on success. A successful
allocation must not perturb the caller's errno; a failed one must not erase the reason." Two exits
of the backends do not keep to it: a reserved range that cannot be added to the arena, and every
failure of the sbrk backend, end with errno restored; and a retry from `sbrk_fails` that succeeds
ends with whatever errno the steps before it left.
-/

namespace Libumem.Backend
open Arith Lib.Errno

/-- The policy that `vmem_allocator` adds to the flags of `vmem_alloc`. -/
inductive Policy where
  | instantFit
  | bestFit
  | firstFit
  | nextFit
  deriving DecidableEq

/-- How the steps of one `vmem_alloc` on a heap arena end. A `vmem_populate` that finds enough
segments succeeds and sets nothing. -/
structure ArenaSteps where
  /-- `vmem_populate` before the arena's own search -/
  populate : Outcome Unit
  /-- what that search finds -/
  fit : Option Word
  /-- `vmem_populate` of `vmem_xalloc` -/
  repopulate : Outcome Unit
  /-- what the search of `vmem_xalloc` finds -/
  search : Option Word
  /-- `asize < size` -/
  overflow : Bool
  /-- what `vmem_reap` leaves in errno -/
  reap : Option Int

/-- `vmem_xalloc` with `VM_NOSLEEP`, the only way the heap is asked. -/
def vmemXalloc (a : ArenaSteps) (sourceAlloc : Option (Call (Option Word))) :
    Call (Option Word) := do
  match ← attempt a.repopulate with
  | none => return none
  | some _ =>
    match a.search with
    | some addr => return some addr
    | none =>
      match sourceAlloc with
      | none =>
        touch a.reap
        return none
      | some sourceAlloc =>
        if a.overflow then attempt ⟨none, none⟩
        else
          match ← sourceAlloc with
          | some vaddr => return some vaddr
          | none =>
            touch a.reap
            return none

def vmemAlloc (policy : Policy) (a : ArenaSteps) (sourceAlloc : Option (Call (Option Word))) :
    Call (Option Word) :=
  match policy with
  | .bestFit | .firstFit => vmemXalloc a sourceAlloc
  | .instantFit => do
    -- without segments the freelists are not looked at, and `vmem_xalloc` tries again
    match ← attempt a.populate with
    | none => vmemXalloc a sourceAlloc
    | some _ =>
      match a.fit with
      | some addr => return some addr
      | none => vmemXalloc a sourceAlloc
  | .nextFit => do
    match ← attempt a.populate with
    | none => return none
    | some _ =>
      match a.fit with
      | some addr => return some addr
      | none => vmemXalloc a sourceAlloc

/-- How the steps of one `vmem_mmap_alloc` end. -/
structure MmapSteps where
  /-- `vmem_alloc` on `mmap_heap` -/
  heap : ArenaSteps
  /-- `vmem_alloc` on `mmap_top` -/
  top : ArenaSteps
  /-- `umem_pal_reserve` -/
  reserve : Outcome Word
  /-- `_vmem_extend_alloc` -/
  extend : Outcome Word
  /-- what `umem_pal_release` leaves in errno -/
  release : Option Int
  /-- `umem_pal_commit` -/
  commit : Outcome Unit
  /-- what `vmem_reap` leaves in errno after a failed commit -/
  reap : Option Int

def vmemMmapTopAlloc (policy : Policy) (st : MmapSteps) : Call (Option Word) := do
  let oldErrno ← getErrno
  match ← vmemAlloc policy st.top none with
  | some ret =>
    setErrno oldErrno
    return some ret
  | none =>
    match ← attempt st.reserve with
    | some _ =>
      match ← attempt st.extend with
      | some ret => return some ret
      | none =>
        touch st.release
        setErrno oldErrno
        return none
    | none => return none

/-- `vmem_free`, which gives the range back when it cannot be committed, has no system call below
it: `mmap_heap` returns its spans to `mmap_top` with `vmem_free`. -/
def vmemMmapAlloc (policy : Policy) (st : MmapSteps) : Call (Option Word) := do
  let oldErrno ← getErrno
  match ← vmemAlloc policy st.heap (some (vmemMmapTopAlloc policy st)) with
  | none => return none
  | some ret =>
    match ← attempt st.commit with
    | none =>
      touch st.reap
      return none
    | some _ =>
      setErrno oldErrno
      return some ret

/-- How the steps of one `vmem_sbrk_alloc` end. -/
structure SbrkSteps where
  /-- `vmem_alloc` on `sbrk_top` -/
  top : ArenaSteps
  /-- `sbrk_fails` holds an entry -/
  fails : Bool
  /-- the retry finds an entry of at least the size -/
  entry : Bool
  /-- `_vmem_extend_alloc` with that entry -/
  retry : Outcome Word
  sbrk0 : Word
  brk : Outcome Unit
  /-- `_vmem_extend_alloc` with the range behind the old break -/
  extend : Outcome Word

/-- Linking the range into `sbrk_fails` after a failure sets nothing. -/
def vmemSbrkExtendAlloc (extend : Outcome Word) : Call (Option Word) := attempt extend

def vmemSbrkTryfail (st : SbrkSteps) : Call (Option Word) :=
  if st.entry then vmemSbrkExtendAlloc st.retry else return none

def sbrkGrowAligned (minSize lowAlign highAlign : Word) (st : SbrkSteps) :
    Call (Option (Word × Word)) :=
  match sbrkGrowPlan minSize lowAlign highAlign st.sbrk0 with
  | .error e => attempt ⟨none, some e⟩
  | .ok (retBrk, newBrk) => do
    match ← attempt st.brk with
    | none => return none
    | some _ => return some (retBrk, newBrk - retBrk)

def vmemSbrkAlloc (policy : Policy) (cfg : SbrkConfig) (size : Word) (st : SbrkSteps) :
    Call (Option Word) := do
  let oldErrno ← getErrno
  match ← vmemAlloc policy st.top none with
  | some ret =>
    setErrno oldErrno
    return some ret
  | none =>
    match ← (if st.fails then vmemSbrkTryfail st else return none) with
    | some ret => return some ret
    | none =>
      match ← sbrkGrowAligned (wordMax size cfg.vmemSbrkMinalloc) cfg.realPagesize
          cfg.vmemSbrkPagesize st with
      | some _ =>
        match ← vmemSbrkExtendAlloc st.extend with
        | some ret =>
          setErrno oldErrno
          return some ret
        | none =>
          setErrno oldErrno
          return none
      | none =>
        setErrno oldErrno
        return none

/-! ## What an arena does by itself -/

/-- What comes of an arena before anything is imported. -/
inductive Own where
  | found (addr : Word)
  | refused
  | missed
  deriving DecidableEq

namespace ArenaSteps

/-- The part of `vmem_xalloc` before the import. -/
def ownXalloc (a : ArenaSteps) : Own :=
  match a.repopulate.result, a.search with
  | none, _ => .refused
  | some _, some addr => .found addr
  | some _, none => .missed

/-- The part of `vmem_alloc` before the import. -/
def own (policy : Policy) (a : ArenaSteps) : Own :=
  match policy, a.populate.result, a.fit with
  | .instantFit, some _, some addr | .nextFit, some _, some addr => .found addr
  | .nextFit, none, _ => .refused
  | _, _, _ => a.ownXalloc

/-- errno after that part. -/
def left (policy : Policy) (a : ArenaSteps) (e : Int) : Int :=
  match policy, a.populate.result, a.fit with
  | .instantFit, some _, some _ | .nextFit, some _, some _ | .nextFit, none, _ =>
    a.populate.after e
  | .instantFit, _, _ | .nextFit, _, _ => a.repopulate.after (a.populate.after e)
  | .bestFit, _, _ | .firstFit, _, _ => a.repopulate.after e

/-- errno after `vmem_alloc` on an arena without a source returned `NULL`. -/
def missed (policy : Policy) (a : ArenaSteps) (e : Int) : Int :=
  match a.own policy with
  | .missed => a.reap.getD (a.left policy e)
  | _ => a.left policy e

end ArenaSteps

section
variable (policy : Policy) (a : ArenaSteps) (c : Cell)

/-- What `vmem_alloc` makes of a miss: without a source it reaps and gives up. -/
def onMiss (a : ArenaSteps) : Option (Call (Option Word)) → Cell → Option Word × Cell
  | none, c => (none, ⟨a.reap.getD c.errno, c.blame⟩)
  | some sourceAlloc, c =>
    if a.overflow then (none, ⟨c.errno, c.errno⟩)
    else
      match sourceAlloc c with
      | (some vaddr, c') => (some vaddr, c')
      | (none, c') => (none, ⟨a.reap.getD c'.errno, c'.blame⟩)

/-- The outcome of an arena's own part, with the cell it leaves. -/
def Outcomes (a : ArenaSteps) (own : Own) (sourceAlloc : Option (Call (Option Word))) (x b : Int)
    (r : Option Word × Cell) : Prop :=
  match own with
  | .found addr => r = (some addr, ⟨x, b⟩)
  | .refused => r = (none, ⟨x, x⟩)
  | .missed => r = onMiss a sourceAlloc ⟨x, b⟩

theorem vmemXalloc_run (sourceAlloc : Option (Call (Option Word))) :
    Outcomes a a.ownXalloc sourceAlloc (a.repopulate.after c.errno) c.blame
      (vmemXalloc a sourceAlloc c) := by
  unfold vmemXalloc ArenaSteps.ownXalloc
  rw [bind_run]
  cases hp : a.repopulate.result with
  | none => rw [attempt_none hp]; rfl
  | some u =>
    rw [attempt_some hp]
    cases hs : a.search with
    | some addr => rfl
    | none =>
      cases sourceAlloc with
      | none => rfl
      | some f =>
        simp only [Outcomes, onMiss]
        split
        · rfl
        · rw [bind_run]
          rcases f ⟨a.repopulate.after c.errno, c.blame⟩ with ⟨_ | vaddr, c'⟩ <;> rfl

theorem vmemAlloc_run (sourceAlloc : Option (Call (Option Word))) :
    ∃ b, Outcomes a (a.own policy) sourceAlloc (a.left policy c.errno) b
      (vmemAlloc policy a sourceAlloc c) := by
  have hx := fun c => vmemXalloc_run a c sourceAlloc
  cases policy with
  | bestFit => exact ⟨_, hx c⟩
  | firstFit => exact ⟨_, hx c⟩
  | instantFit =>
    simp only [vmemAlloc, bind_run, ArenaSteps.own, ArenaSteps.left]
    cases hp : a.populate.result with
    | none => rw [attempt_none hp]; exact ⟨_, hx _⟩
    | some u =>
      rw [attempt_some hp]
      cases hf : a.fit with
      | none => exact ⟨_, hx _⟩
      | some addr => exact ⟨_, rfl⟩
  | nextFit =>
    simp only [vmemAlloc, bind_run, ArenaSteps.own, ArenaSteps.left]
    cases hp : a.populate.result with
    | none => rw [attempt_none hp]; exact ⟨0, rfl⟩
    | some u =>
      rw [attempt_some hp]
      cases hf : a.fit with
      | none => exact ⟨_, hx _⟩
      | some addr => exact ⟨_, rfl⟩

theorem vmemAlloc_top :
    (∃ addr b, a.own policy = .found addr ∧
      vmemAlloc policy a none c = (some addr, ⟨a.left policy c.errno, b⟩)) ∨
    ((∀ addr, a.own policy ≠ .found addr) ∧
      ∃ b, vmemAlloc policy a none c = (none, ⟨a.missed policy c.errno, b⟩)) := by
  obtain ⟨b, h⟩ := vmemAlloc_run policy a c none
  cases ho : a.own policy with
  | found addr => rw [ho] at h; exact .inl ⟨addr, b, rfl, h⟩
  | refused =>
    rw [ho] at h
    exact .inr ⟨by simp, _, by rw [ArenaSteps.missed, ho]; exact h⟩
  | missed =>
    rw [ho] at h
    exact .inr ⟨by simp, b, by rw [ArenaSteps.missed, ho]; exact h⟩

end

/-! ## The mmap backend -/

namespace MmapSteps

/-- `mmap_top` has no room, so that address space is reserved. -/
def Grows (policy : Policy) (st : MmapSteps) : Prop :=
  st.heap.own policy = .missed ∧ st.heap.overflow = false ∧
    ∀ addr, st.top.own policy ≠ .found addr

/-- errno when `vmem_mmap_top_alloc` is entered. -/
def atImport (policy : Policy) (st : MmapSteps) (e : Int) : Int := st.heap.left policy e

/-- errno after `umem_pal_reserve`. -/
def atExtend (policy : Policy) (st : MmapSteps) (e : Int) : Int :=
  st.reserve.after (st.top.missed policy (st.atImport policy e))

/-- errno when `umem_pal_commit` is called, if the call gets that far. -/
def atCommit (policy : Policy) (st : MmapSteps) (e : Int) : Option Int :=
  match st.heap.own policy with
  | .found _ => some (st.heap.left policy e)
  | .refused => none
  | .missed =>
    if st.heap.overflow then none
    else
      match st.top.own policy, st.reserve.result, st.extend.result with
      | .found _, _, _ => some (st.atImport policy e)
      | _, some _, some _ => some (st.extend.after (st.atExtend policy e))
      | _, _, _ => none

/-- The reason of every failure reaches the caller. -/
structure Reported (policy : Policy) (st : MmapSteps) (e : Int) : Prop where
  reserve : st.Grows policy → st.reserve.Failed → Quiet st.heap.reap (st.atExtend policy e)
  extend : st.Grows policy → ¬ st.reserve.Failed → st.extend.Failed →
    st.heap.reap.getD (st.atImport policy e) = st.extend.after (st.atExtend policy e)
  commit : ∀ x ∈ st.atCommit policy e, st.commit.Failed → Quiet st.reap (st.commit.after x)

end MmapSteps

section
variable (policy : Policy) (st : MmapSteps) (c : Cell) (e : Int)

/-- The exits of `vmem_mmap_top_alloc` once `mmap_top` has no room. -/
inductive TopExit (st : MmapSteps) (c : Cell) (x : Int) : Option Word × Cell → Prop
  | reserve (hr : st.reserve.Failed) : TopExit st c x (none, ⟨x, x⟩)
  | grown {buf ret b} (hr : st.reserve.result = some buf) (hx : st.extend.result = some ret) :
      TopExit st c x (some ret, ⟨st.extend.after x, b⟩)
  | extend {buf} (hr : st.reserve.result = some buf) (hx : st.extend.Failed) :
      TopExit st c x (none, ⟨c.errno, st.extend.after x⟩)

theorem vmemMmapTopAlloc_run :
    (∃ addr b, st.top.own policy = .found addr ∧
      vmemMmapTopAlloc policy st c = (some addr, ⟨c.errno, b⟩)) ∨
    ((∀ addr, st.top.own policy ≠ .found addr) ∧
      TopExit st c (st.reserve.after (st.top.missed policy c.errno))
        (vmemMmapTopAlloc policy st c)) := by
  rw [vmemMmapTopAlloc, bind_run, getErrno_run, bind_run]
  obtain ⟨addr, b, ho, hv⟩ | ⟨ho, b, hv⟩ := vmemAlloc_top policy st.top c
  · rw [hv]
    exact .inl ⟨addr, b, ho, rfl⟩
  · rw [hv]
    refine .inr ⟨ho, ?_⟩
    simp only [bind_run]
    cases hr : st.reserve.result with
    | none => rw [attempt_none hr]; exact .reserve hr
    | some buf =>
      rw [attempt_some hr]
      simp only [bind_run]
      cases hx : st.extend.result with
      | none => rw [attempt_none hx]; exact .extend hr hx
      | some ret => rw [attempt_some hx]; exact .grown hr hx

theorem disciplined_commit {ret : Word} {x b : Int}
    (h : vmemAlloc policy st.heap (some (vmemMmapTopAlloc policy st)) ⟨e, e⟩ = (some ret, ⟨x, b⟩)) :
    Disciplined (vmemMmapAlloc policy st) e ↔
      (st.commit.Failed → Quiet st.reap (st.commit.after x)) := by
  have hrun : vmemMmapAlloc policy st ⟨e, e⟩ = (do
      match ← attempt st.commit with
      | none =>
        touch st.reap
        return none
      | some _ =>
        setErrno e
        return some ret : Call (Option Word)) ⟨x, b⟩ := by
    rw [vmemMmapAlloc, bind_run, getErrno_run, bind_run, h]
  rw [bind_run] at hrun
  cases hc : st.commit.result with
  | none =>
    rw [attempt_none hc] at hrun
    rw [disciplined_none hrun]
    exact ⟨fun hq _ => hq, fun hq => hq hc⟩
  | some u =>
    rw [attempt_some hc] at hrun
    rw [disciplined_some hrun]
    exact ⟨fun _ hf => absurd hf (Outcome.not_failed hc), fun _ => rfl⟩

theorem disciplined_refused {x b : Int}
    (h : vmemAlloc policy st.heap (some (vmemMmapTopAlloc policy st)) ⟨e, e⟩ = (none, ⟨x, b⟩)) :
    Disciplined (vmemMmapAlloc policy st) e ↔ x = b := by
  apply disciplined_none
  rw [vmemMmapAlloc, bind_run, getErrno_run, bind_run, h]
  rfl

theorem reported_iff_commit (h : ¬ st.Grows policy) :
    st.Reported policy e ↔
      ∀ x ∈ st.atCommit policy e, st.commit.Failed → Quiet st.reap (st.commit.after x) :=
  ⟨fun hr => hr.commit, fun hc => ⟨fun hg => absurd hg h, fun hg => absurd hg h, hc⟩⟩

theorem atCommit_grows (h : st.Grows policy) :
    st.atCommit policy e = match st.reserve.result, st.extend.result with
      | some _, some _ => some (st.extend.after (st.atExtend policy e))
      | _, _ => none := by
  obtain ⟨ho, hov, ht⟩ := h
  simp only [MmapSteps.atCommit, ho, hov]
  cases htop : st.top.own policy with
  | found addr => exact absurd htop (ht addr)
  | refused | missed => cases st.reserve.result <;> cases st.extend.result <;> rfl

/-- What the condition asks of the exit through which a call leaves `vmem_mmap_top_alloc`. -/
def ExitReported (st : MmapSteps) : Option Word × Cell → Prop
  | (some _, c) => st.commit.Failed → Quiet st.reap (st.commit.after c.errno)
  | (none, c) => st.heap.reap.getD c.errno = c.blame

theorem reported_iff_exit (h : st.Grows policy) {b : Int} {r : Option Word × Cell}
    (hexit : TopExit st ⟨st.atImport policy e, b⟩ (st.atExtend policy e) r) :
    st.Reported policy e ↔ ExitReported st r := by
  have hcommit := atCommit_grows policy st e h
  cases hexit with
  | reserve hr =>
    rw [hr] at hcommit
    refine ⟨fun hR => hR.reserve h hr, fun hq => ⟨fun _ _ => hq, fun _ hn => absurd hr hn, ?_⟩⟩
    simp [hcommit]
  | grown hr hx =>
    rw [hr, hx] at hcommit
    have hrf := Outcome.not_failed hr
    have hxf := Outcome.not_failed hx
    refine ⟨fun hR => hR.commit _ hcommit, fun hq =>
      ⟨fun _ hf => absurd hf hrf, fun _ _ hf => absurd hf hxf, ?_⟩⟩
    rintro x hx'
    obtain rfl := Option.some.inj (hcommit.symm.trans hx')
    exact hq
  | extend hr hx =>
    rw [hr, hx] at hcommit
    have hrf := Outcome.not_failed hr
    refine ⟨fun hR => hR.extend h hrf hx, fun hq => ⟨fun _ hf => absurd hf hrf, fun _ _ _ => hq,
      ?_⟩⟩
    simp [hcommit]

theorem vmemMmapAlloc_disciplined_iff :
    Disciplined (vmemMmapAlloc policy st) e ↔ st.Reported policy e := by
  obtain ⟨b, hrun⟩ := vmemAlloc_run policy st.heap ⟨e, e⟩ (some (vmemMmapTopAlloc policy st))
  cases ho : st.heap.own policy with
  | found addr =>
    rw [ho] at hrun
    rw [disciplined_commit policy st e hrun, reported_iff_commit policy st e fun hg => by
      rw [hg.1] at ho; cases ho]
    simp [MmapSteps.atCommit, ho]
  | refused =>
    rw [ho] at hrun
    rw [disciplined_refused policy st e hrun, reported_iff_commit policy st e fun hg => by
      rw [hg.1] at ho; cases ho]
    simp [MmapSteps.atCommit, ho]
  | missed =>
    simp only [ho, Outcomes, onMiss] at hrun
    cases hov : st.heap.overflow with
    | true =>
      rw [if_pos hov] at hrun
      rw [disciplined_refused policy st e hrun, reported_iff_commit policy st e fun hg => by
        rw [hg.2.1] at hov; cases hov]
      simp [MmapSteps.atCommit, ho, hov]
    | false =>
      rw [if_neg (by simp [hov])] at hrun
      obtain ⟨addr, b', ht, htop⟩ | ⟨ht, hexit⟩ :=
        vmemMmapTopAlloc_run policy st ⟨st.heap.left policy e, b⟩
      · rw [htop] at hrun
        rw [disciplined_commit policy st e hrun, reported_iff_commit policy st e fun hg =>
          hg.2.2 addr ht]
        simp [MmapSteps.atCommit, ho, hov, ht, MmapSteps.atImport]
      · rw [reported_iff_exit policy st e ⟨ho, hov, ht⟩ hexit]
        rcases hr : vmemMmapTopAlloc policy st ⟨st.heap.left policy e, b⟩ with ⟨_ | ret, x, b'⟩
        · rw [hr] at hrun
          exact disciplined_refused policy st e hrun
        · rw [hr] at hrun
          exact disciplined_commit policy st e hrun

end

/-! ## The sbrk backend -/

namespace SbrkSteps

/-- How `_sbrk_grow_aligned` ends: its own tests set errno, and so may `brk`. -/
def grow (cfg : SbrkConfig) (size : Word) (st : SbrkSteps) : Outcome (Word × Word) :=
  match sbrkGrowPlan (wordMax size cfg.vmemSbrkMinalloc) cfg.realPagesize cfg.vmemSbrkPagesize
      st.sbrk0 with
  | .error e => ⟨none, some e⟩
  | .ok (retBrk, newBrk) => ⟨st.brk.result.map fun _ => (retBrk, newBrk - retBrk), st.brk.sets⟩

/-- The retry extends `sbrk_top` with an entry of `sbrk_fails`. -/
def Retries (st : SbrkSteps) : Prop := st.fails = true ∧ st.entry = true

instance (st : SbrkSteps) : Decidable st.Retries := inferInstanceAs (Decidable (_ ∧ _))

/-- errno after the retry. -/
def atGrow (policy : Policy) (st : SbrkSteps) (e : Int) : Int :=
  if st.Retries then st.retry.after (st.top.missed policy e) else st.top.missed policy e

/-- A retry that succeeds has found errno untouched, and where the call fails the step that failed
left errno as it was on entry. -/
structure Reported (policy : Policy) (cfg : SbrkConfig) (size : Word) (st : SbrkSteps)
    (e : Int) : Prop where
  retry : (∀ addr, st.top.own policy ≠ .found addr) → st.Retries → ¬ st.retry.Failed →
    st.atGrow policy e = e
  grow : (∀ addr, st.top.own policy ≠ .found addr) → ¬ (st.Retries ∧ ¬ st.retry.Failed) →
    (st.grow cfg size).Failed → (st.grow cfg size).after (st.atGrow policy e) = e
  extend : (∀ addr, st.top.own policy ≠ .found addr) → ¬ (st.Retries ∧ ¬ st.retry.Failed) →
    ¬ (st.grow cfg size).Failed → st.extend.Failed →
    st.extend.after ((st.grow cfg size).after (st.atGrow policy e)) = e

end SbrkSteps

section
variable (policy : Policy) (cfg : SbrkConfig) (size : Word) (st : SbrkSteps) (c : Cell) (e : Int)

theorem sbrkGrowAligned_eq :
    sbrkGrowAligned (wordMax size cfg.vmemSbrkMinalloc) cfg.realPagesize cfg.vmemSbrkPagesize st =
      attempt (st.grow cfg size) := by
  funext c
  unfold sbrkGrowAligned SbrkSteps.grow
  rcases sbrkGrowPlan (wordMax size cfg.vmemSbrkMinalloc) cfg.realPagesize cfg.vmemSbrkPagesize
    st.sbrk0 with err | ⟨retBrk, newBrk⟩
  · rfl
  · simp only [bind_run]
    cases hb : st.brk.result with
    | none => rw [attempt_none hb, attempt_none rfl]; rfl
    | some u => rw [attempt_some hb, attempt_some rfl]; rfl

/-- What `vmem_sbrk_alloc` does once neither `sbrk_top` nor `sbrk_fails` had the memory. -/
def growTail (cfg : SbrkConfig) (size : Word) (st : SbrkSteps) (oldErrno : Int) :
    Call (Option Word) := do
  match ← attempt (st.grow cfg size) with
  | some _ =>
    match ← attempt st.extend with
    | some ret =>
      setErrno oldErrno
      return some ret
    | none =>
      setErrno oldErrno
      return none
  | none =>
    setErrno oldErrno
    return none

theorem vmemSbrkAlloc_eq :
    vmemSbrkAlloc policy cfg size st = (do
      let oldErrno ← getErrno
      match ← vmemAlloc policy st.top none with
      | some ret =>
        setErrno oldErrno
        return some ret
      | none =>
        match ← (if st.Retries then attempt st.retry else return none) with
        | some ret => return some ret
        | none => growTail cfg size st oldErrno) := by
  have hretry : (if st.fails then vmemSbrkTryfail st else return none) =
      (if st.Retries then attempt st.retry else return none : Call (Option Word)) := by
    cases hf : st.fails <;> cases hn : st.entry <;>
      simp [SbrkSteps.Retries, vmemSbrkTryfail, vmemSbrkExtendAlloc, hf, hn]
  unfold vmemSbrkAlloc growTail
  rw [hretry, sbrkGrowAligned_eq]
  rfl

theorem vmemSbrkAlloc_found {addr : Word} {b : Int}
    (h : vmemAlloc policy st.top none ⟨e, e⟩ = (some addr, ⟨st.top.left policy e, b⟩)) :
    vmemSbrkAlloc policy cfg size st ⟨e, e⟩ = (some addr, ⟨e, b⟩) := by
  rw [vmemSbrkAlloc_eq, bind_run, getErrno_run, bind_run, h]
  rfl

theorem vmemSbrkAlloc_retried {ret : Word} {b : Int} (hr : st.Retries)
    (hret : st.retry.result = some ret)
    (h : vmemAlloc policy st.top none ⟨e, e⟩ = (none, ⟨st.top.missed policy e, b⟩)) :
    vmemSbrkAlloc policy cfg size st ⟨e, e⟩ = (some ret, ⟨st.atGrow policy e, b⟩) := by
  rw [vmemSbrkAlloc_eq, bind_run, getErrno_run, bind_run, h, SbrkSteps.atGrow]
  simp only [if_pos hr, bind_run, attempt_some hret]
  rfl

theorem vmemSbrkAlloc_grows {b : Int} (hr : ¬ (st.Retries ∧ ¬ st.retry.Failed))
    (h : vmemAlloc policy st.top none ⟨e, e⟩ = (none, ⟨st.top.missed policy e, b⟩)) :
    ∃ b', vmemSbrkAlloc policy cfg size st ⟨e, e⟩ =
      growTail cfg size st e ⟨st.atGrow policy e, b'⟩ := by
  rw [vmemSbrkAlloc_eq, bind_run, getErrno_run, bind_run, h, SbrkSteps.atGrow]
  by_cases hret : st.Retries
  · have hf : st.retry.Failed := by
      by_contra hf
      exact hr ⟨hret, hf⟩
    simp only [if_pos hret, bind_run, attempt_none hf]
    exact ⟨_, rfl⟩
  · simp only [if_neg hret, bind_run]
    exact ⟨_, rfl⟩

theorem growTail_run (x b : Int) :
    ((st.grow cfg size).Failed ∧
      growTail cfg size st e ⟨x, b⟩ = (none, ⟨e, (st.grow cfg size).after x⟩)) ∨
    (¬ (st.grow cfg size).Failed ∧ st.extend.Failed ∧ growTail cfg size st e ⟨x, b⟩ =
      (none, ⟨e, st.extend.after ((st.grow cfg size).after x)⟩)) ∨
    (¬ (st.grow cfg size).Failed ∧ ¬ st.extend.Failed ∧
      ∃ ret, growTail cfg size st e ⟨x, b⟩ = (some ret, ⟨e, b⟩)) := by
  rw [growTail, bind_run]
  cases hg : (st.grow cfg size).result with
  | none => rw [attempt_none hg]; exact .inl ⟨hg, rfl⟩
  | some range =>
    have hgf := Outcome.not_failed hg
    rw [attempt_some hg]
    simp only [bind_run]
    cases hx : st.extend.result with
    | none => rw [attempt_none hx]; exact .inr (.inl ⟨hgf, hx, rfl⟩)
    | some ret =>
      rw [attempt_some hx]
      exact .inr (.inr ⟨hgf, Outcome.not_failed hx, ret, rfl⟩)

theorem vmemSbrkAlloc_disciplined_iff :
    Disciplined (vmemSbrkAlloc policy cfg size st) e ↔ st.Reported policy cfg size e := by
  obtain ⟨addr, b, ho, hv⟩ | ⟨ho, b, hv⟩ := vmemAlloc_top policy st.top ⟨e, e⟩
  · rw [disciplined_some (vmemSbrkAlloc_found policy cfg size st e hv)]
    exact ⟨fun _ => ⟨fun h => absurd ho (h addr), fun h => absurd ho (h addr),
      fun h => absurd ho (h addr)⟩, fun _ => rfl⟩
  · by_cases hr : st.Retries ∧ ¬ st.retry.Failed
    · obtain ⟨ret, hret⟩ := Option.ne_none_iff_exists'.mp hr.2
      rw [disciplined_some (vmemSbrkAlloc_retried policy cfg size st e hr.1 hret hv)]
      exact ⟨fun h => ⟨fun _ _ _ => h, fun _ hn => absurd hr hn, fun _ hn => absurd hr hn⟩,
        fun h => h.retry ho hr.1 hr.2⟩
    · obtain ⟨b', hrun⟩ := vmemSbrkAlloc_grows policy cfg size st e hr hv
      have hretry : st.Retries → ¬ st.retry.Failed → st.atGrow policy e = e :=
        fun h hf => absurd ⟨h, hf⟩ hr
      obtain ⟨hg, ht⟩ | ⟨hg, hx, ht⟩ | ⟨hg, hx, ret, ht⟩ :=
        growTail_run cfg size st e (st.atGrow policy e) b'
      · rw [disciplined_none (hrun.trans ht), eq_comm]
        exact ⟨fun h => ⟨fun _ => hretry, fun _ _ _ => h, fun _ _ hn => absurd hg hn⟩,
          fun h => h.grow ho hr hg⟩
      · rw [disciplined_none (hrun.trans ht), eq_comm]
        exact ⟨fun h => ⟨fun _ => hretry, fun _ _ hf => absurd hf hg, fun _ _ _ _ => h⟩,
          fun h => h.extend ho hr hg hx⟩
      · rw [disciplined_some (hrun.trans ht)]
        exact ⟨fun _ => ⟨fun _ => hretry, fun _ _ hf => absurd hf hg,
          fun _ _ _ hf => absurd hf hx⟩, fun _ => rfl⟩

end

/-- Of all the ways the steps of the heap backends can end, errno is kept on success and tells the
reason of a failure exactly in those that `Reported` describes. -/
theorem backends_errno_iff (policy : Policy) (e : Int) :
    (∀ st : MmapSteps, Disciplined (vmemMmapAlloc policy st) e ↔ st.Reported policy e) ∧
      ∀ (cfg : SbrkConfig) (size : Word) (st : SbrkSteps),
        Disciplined (vmemSbrkAlloc policy cfg size st) e ↔ st.Reported policy cfg size e :=
  ⟨fun st => vmemMmapAlloc_disciplined_iff policy st e,
    fun cfg size st => vmemSbrkAlloc_disciplined_iff policy cfg size st e⟩

/-- An arena with segments at hand and no room. -/
def fullArena : ArenaSteps where
  populate := ⟨some (), none⟩
  fit := none
  repopulate := ⟨some (), none⟩
  search := none
  overflow := false
  reap := none

/-- Address space is reserved, but there is no memory for the segments of the new span. -/
def spanRefused : MmapSteps where
  heap := fullArena
  top := fullArena
  reserve := ⟨some 0x7f0000000000, none⟩
  extend := ⟨none, some enomem⟩
  release := none
  commit := ⟨some (), none⟩
  reap := none

/-- `brk` fails. -/
def brkRefused : SbrkSteps where
  top := fullArena
  fails := false
  entry := false
  retry := ⟨none, none⟩
  sbrk0 := 0x600000
  brk := ⟨none, some enomem⟩
  extend := ⟨none, none⟩

/-- `sbrk_top` gets no segments to allocate with, but the retry does, and adds the entry on
`sbrk_fails` to it. -/
def retryServed : SbrkSteps where
  top := { fullArena with populate := ⟨none, some enomem⟩, repopulate := ⟨none, some enomem⟩ }
  fails := true
  entry := true
  retry := ⟨some 0x600000, none⟩
  sbrk0 := 0x600000
  brk := ⟨none, some enomem⟩
  extend := ⟨none, none⟩

/-- The settings of a machine with pages of 4 KiB. -/
def sbrkDefaults : SbrkConfig := ⟨4096, 4096, 65536⟩

/-- Entered with errno 0, the calls return `NULL` with errno 0 where a step has said `ENOMEM`, and
return memory with errno `ENOMEM`. -/
theorem backends_errno_lost :
    vmemMmapAlloc .instantFit spanRefused ⟨0, 0⟩ = (none, ⟨0, enomem⟩) ∧
      vmemSbrkAlloc .instantFit sbrkDefaults 8192 brkRefused ⟨0, 0⟩ = (none, ⟨0, enomem⟩) ∧
      vmemSbrkAlloc .instantFit sbrkDefaults 8192 retryServed ⟨0, 0⟩ =
        (some 0x600000, ⟨enomem, enomem⟩) ∧
      ¬ Disciplined (vmemMmapAlloc .instantFit spanRefused) 0 ∧
      ¬ Disciplined (vmemSbrkAlloc .instantFit sbrkDefaults 8192 brkRefused) 0 ∧
      ¬ Disciplined (vmemSbrkAlloc .instantFit sbrkDefaults 8192 retryServed) 0 := by
  refine ⟨rfl, rfl, rfl, ?_, ?_, ?_⟩ <;> decide

end Libumem.Backend
