import Libumem.Update.Invariant

/-!
# Every cache is in one of three states

The states of a cache as the comment in `umem.c` describes them, and that they are all there are, in
every state that a run reaches. A fork from inside an update breaks that: `umem_do_release` takes
the worker for gone although it is the thread that forked.
-/

namespace Libumem.Update
open Lib
variable {α : Type*}
namespace Sys

def Inactive (s : Sys α) (cp : α) : Prop :=
  s.uflags cp = 0 ∧ s.links.next (some cp) = none ∧ s.links.prev (some cp) = none

def WorkRequested (s : Sys α) (cp : α) : Prop :=
  s.uflags cp ≠ 0 ∧ s.uflags cp &&& umuActive = 0 ∧ s.links.next (some cp) ≠ none

/-- The worker is a thread of this process, and is the one that the variables name. -/
def Active (s : Sys α) (cp : α) : Prop :=
  s.uflags cp &&& umuActive ≠ 0 ∧ s.links.next (some cp) = none ∧ s.links.prev (some cp) = none ∧
    ∃ t th, s.threads t = some th ∧ th.doing.target = some cp ∧
      (s.updateThr = some t ∨ s.stUpdateThr = some t)

structure Sound (s : Sys α) : Prop where
  states : ∀ cp, s.Inactive cp ∨ s.WorkRequested cp ∨ s.Active cp
  ring : ∃ l : List α, s.links.Ring none (l.map some) ∧ ∀ cp, cp ∈ l ↔ s.WorkRequested cp
  asserts : s.asserts = true

end Sys

theorem Invariant.sound {s : Sys α} (h : Invariant s) : s.Sound := by
  obtain ⟨l, hl⟩ := h.listed
  have hoff : ∀ cp, cp ∉ l → s.links.next (some cp) = none ∧ s.links.prev (some cp) = none := by
    intro cp hcp
    exact hl.ring.outside (some cp) (by simpa using hcp)
  have hon : ∀ cp, cp ∈ l → s.WorkRequested cp := by
    intro cp hcp
    cases hl.state cp with
    | inactive flags off idle => exact absurd hcp off
    | requested asks unmarked quiet on idle =>
      refine ⟨asks.ne_zero, ?_, mt hl.next_eq_none_iff.mp (not_not.mpr on)⟩
      by_contra hne
      rw [active_iff.mp hne] at unmarked
      simp at unmarked
    | active asks marked off busy => exact absurd hcp off
  refine ⟨?_, ⟨l, hl.ring, ?_⟩, hl.asserts⟩
  · intro cp
    cases hl.state cp with
    | inactive flags off idle => exact .inl ⟨flags, hoff cp off⟩
    | requested asks unmarked quiet on idle => exact .inr (.inl (hon cp on))
    | active asks marked off busy =>
      obtain ⟨t, ht⟩ := busy
      obtain ⟨th, hth, hcp⟩ := Option.bind_eq_some_iff.mp ht
      obtain ⟨hnext, hprev⟩ := hoff cp off
      exact .inr (.inr ⟨active_iff.mpr marked, hnext, hprev, t, th, hth, hcp, h.worker hth hcp⟩)
  · intro cp
    constructor
    · exact hon cp
    · intro hw
      by_contra hcp
      exact hw.2.2 (hoff cp hcp).1

theorem Invariant.init {worker : Option Tid} {main : Tid} (hmain : worker ≠ some main) :
    Invariant (Sys.init worker main : Sys α) := by
  have hrole : (Sys.init worker main : Sys α).role =
      fun u => if u = main then some .plain else if some u = worker then some .updater else none := by
    funext u
    simp only [Sys.role, Sys.init]
    split
    · rfl
    · split <;> rfl
  refine ⟨?_, ?_, [], ?_, ?_, rfl⟩
  · rw [hrole]
    change Roles _ worker none .done
    constructor <;> grind
  · intro v thv hv
    simp only [Sys.init] at hv
    split at hv
    · cases hv
      exact kept_nothing (by simp) (by simp)
    · split at hv
      · cases hv
        exact kept_nothing (by simp) (by simp)
      · simp at hv
  · apply Links.Ring.empty
    · rfl
    · rfl
    · intro n hn
      simp [Sys.init, hn]
  · intro cp
    refine .inactive rfl (by simp) ?_
    rintro ⟨v, hv⟩
    simp only [Sys.target, Sys.init] at hv
    split at hv
    · simp [Doing.target] at hv
    · split at hv <;> simp [Doing.target] at hv

variable [DecidableEq α]

def Sys.AllowedStep (s : Sys α) (op : Op α) (s' : Sys α) : Prop :=
  op.Allowed s ∧ s.step op = some s'

theorem Invariant.run {worker : Option Tid} {main : Tid} (hmain : worker ≠ some main)
    {ops : List (Op α)} {s : Sys α} (hrun : Runs Sys.AllowedStep (Sys.init worker main) ops s) :
    Invariant s := by
  apply Runs.invariant _ hrun (Invariant.init hmain)
  intro s op s' h hs
  exact h.step hs.1 hs.2

/-- In every state that a run of allowed steps reaches, the states of the caches, the list and the
assertions are as they should be, and a `umem_remove_updates` that returns leaves the cache
inactive. -/
theorem updates_sound {worker : Option Tid} {main : Tid} (hmain : worker ≠ some main)
    (ops : List (Op α)) (s : Sys α)
    (hrun : Runs Sys.AllowedStep (Sys.init worker main) ops s) :
    s.Sound ∧ ∀ t th cp, s.threads t = some th → th.pending = .removing cp →
      (s.removeTurn t cp).2 = true → (s.removeTurn t cp).1.Inactive cp := by
  have h := Invariant.run hmain hrun
  refine ⟨h.sound, ?_⟩
  intro t th cp ht hp hreturns
  obtain ⟨l, hl⟩ := h.listed
  obtain ⟨l', hl', -, hret⟩ := hl.removeTurn (h.other_worker ht hp)
  obtain ⟨hflags, hout⟩ := hret hreturns
  exact ⟨hflags, hl'.ring.outside (some cp) (by simpa using hout)⟩

instance (s : Sys (Fin 2)) (op : Op (Fin 2)) : Decidable (op.Allowed s) := by
  cases op with
  | removeUpdates t cp =>
    exact decidable_of_iff (∀ th ∈ s.threads t, th.doing.target ≠ some cp) Iff.rfl
  | _ =>
    unfold Op.Allowed
    infer_instance

/-- The update thread works on a cache when another thread forks. -/
theorem updates_sound_example : ∃ s : Sys (Fin 2),
    Runs Sys.AllowedStep (Sys.init (some 1) 2) [.start 1, .loop 1, .enlist 0, .addUpdate 0 umuReap,
      .wake 1, .loop 1, .fork 2] s ∧ s.Sound ∧ s.uflags 0 = umuReap := by
  obtain ⟨s, hrun, hs⟩ := exists_runs (P := fun s op => Op.Allowed s op) (f := Sys.step)
    (Sys.init (some 1) 2 : Sys (Fin 2)) [.start 1, .loop 1, .enlist 0, .addUpdate 0 umuReap, .wake 1,
      .loop 1, .fork 2] (fun s => s.uflags 0) umuReap (by decide +kernel)
  exact ⟨s, hrun, (updates_sound (by decide) _ s hrun).1, hs⟩

/-- A step, whether the conditions of the theorem allow it or not. -/
def Sys.AnyStep (s : Sys α) (op : Op α) (s' : Sys α) : Prop := s.step op = some s'

/-- The update thread works on cache 0 when its callback forks, with cache 1 requested as well. The
child goes on with the work and then takes up cache 1. -/
def forkInCallback : List (Op (Fin 2)) :=
  [.start 1, .loop 1, .enlist 0, .enlist 1, .addUpdate 0 umuReap, .wake 1, .loop 1,
    .addUpdate 1 umuReap, .fork 1, .release 1 true, .work 1, .loop 1]

/-- The update thread reaps cache 0. -/
def reaping : List (Op (Fin 2)) :=
  [.start 1, .loop 1, .enlist 0, .addUpdate 0 umuReap, .wake 1, .loop 1]

/-- The process forks while the update thread reaps cache 0. The child gets an update thread that
does the reap once more, and calls `umem_reap`. -/
def reapingInChild : List (Op (Fin 2)) :=
  [.start 1, .loop 1, .enlist 0, .reap 2, .reapAdd 2, .reapRun 2 false, .wake 1, .loop 1, .fork 2,
    .release 2 true, .created 2 (some 3), .start 3, .loop 3, .reap 2]

/-- A thread forks while another one waits to destroy the cache that is worked on. -/
def forkInDestroy : List (Op (Fin 2)) :=
  [.start 1, .loop 1, .enlist 0, .addUpdate 0 umuReap, .wake 1, .loop 1, .spawn 2 3, .unlist 0,
    .removeUpdates 2 0, .remove 2, .fork 3, .release 3 true]

omit [DecidableEq α] in
theorem not_sound_of_linked {s : Sys α} {cp : α} (hflags : s.uflags cp = 0)
    (hnext : s.links.next (some cp) ≠ none) : ¬ s.Sound := by
  intro h
  rcases h.states cp with h | h | h
  · exact hnext h.2.1
  · exact h.1 hflags
  · exact h.1 (by rw [hflags]; rfl)

omit [DecidableEq α] in
theorem not_sound_of_no_worker {s : Sys α} (cp : α) (hflags : s.uflags cp &&& umuActive ≠ 0)
    (hthr : s.updateThr = none) (hst : s.stUpdateThr = none) : ¬ s.Sound := by
  intro h
  rcases h.states cp with h | h | h
  · exact hflags (by rw [h.1]; rfl)
  · exact hflags h.2.1
  · obtain ⟨-, -, -, t, th, -, -, hw⟩ := h
    simp [hthr, hst] at hw

theorem exists_anyRun {β : Type*} (ops : List (Op (Fin 2))) (g : Sys (Fin 2) → β) (b : β)
    (h : (replay (fun _ _ => True) Sys.step (Sys.init (some 1) 2) ops).map g = some b) :
    ∃ s, Runs Sys.AnyStep (Sys.init (some 1) 2) ops s ∧ g s = b := by
  obtain ⟨s, hrun, hs⟩ := exists_runs _ _ g b h
  exact ⟨s, hrun.mono fun _ _ _ h => h.2, hs⟩

/-- After a fork in a callback a cache is on the list without flags, and the next request for it
fails an assertion; after a fork during a destruction an active cache has no worker. -/
theorem updates_unsound :
    (∃ s, Runs Sys.AnyStep (Sys.init (some 1) 2) forkInCallback s ∧ s.lock = none ∧ ¬ s.Sound) ∧
    (∃ s, Runs Sys.AnyStep (Sys.init (some 1) 2) (forkInCallback ++ [.addUpdate 0 umuReap]) s ∧
      s.asserts = false) ∧
    (∃ s, Runs Sys.AnyStep (Sys.init (some 1) 2) forkInDestroy s ∧ s.lock = none ∧ ¬ s.Sound) := by
  refine ⟨?_, ?_, ?_⟩
  · obtain ⟨s, hrun, hs⟩ := exists_anyRun forkInCallback
      (fun s => (s.uflags 0, s.links.next (some 0), s.lock)) (0, some none, none) (by decide +kernel)
    simp only [Prod.mk.injEq] at hs
    obtain ⟨hflags, hnext, hlock⟩ := hs
    exact ⟨s, hrun, hlock, not_sound_of_linked hflags (by simp [hnext])⟩
  · obtain ⟨s, hrun, hs⟩ := exists_anyRun (forkInCallback ++ [.addUpdate 0 umuReap])
      (fun s => s.asserts) false (by decide +kernel)
    exact ⟨s, hrun, hs⟩
  · obtain ⟨s, hrun, hs⟩ := exists_anyRun forkInDestroy
      (fun s => (s.uflags 0, s.updateThr, s.stUpdateThr, s.lock))
      (umuActive ||| umuNotify ||| umuReap, none, none, none) (by decide +kernel)
    simp only [Prod.mk.injEq] at hs
    obtain ⟨hflags, hthr, hst, hlock⟩ := hs
    refine ⟨s, hrun, hlock, not_sound_of_no_worker 0 ?_ hthr hst⟩
    rw [hflags]
    decide

end Libumem.Update
