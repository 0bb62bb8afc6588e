import Libumem.Lib.Scan

/-!
# Unregistering one hook from several threads

One registered hook and the threads that have its pointer, at the granularity of `hook_list_lock`:
an event is one critical section, or the entry into a function that then waits for the lock. Once a
call of `umem_hook_unregister` has returned, the structure may be freed.
-/

namespace Libumem.Hooks
open List Lib

/-- The fields of `umem_hook_t` that decide who may use it. -/
structure Hook where
  active : Bool
  linked : Bool
  refcnt : BitVec 16
deriving DecidableEq

def hookHold (hook : Hook) : Bool × Hook :=
  if !hook.active then (false, hook)
  else if hook.refcnt = 65535 then (false, hook)
  else (true, { hook with refcnt := hook.refcnt + 1 })

def hookRele (hook : Hook) : Hook := { hook with refcnt := hook.refcnt - 1 }

/-- What `umem_hook_unregister` does to the hook. Both branches then wait for the references. -/
def umemHookUnregister (hook : Hook) : Hook :=
  if !hook.active then hook else { hook with active := false, linked := false }

inductive Call
  | track
  | unregister
deriving DecidableEq

inductive Event
  /-- A thread enters a function and has not taken the lock yet. -/
  | call (t : Nat) (c : Call)
  /-- The first section of a `umem_hook_track_*` call. -/
  | track (t : Nat)
  /-- A walk comes to the hook. -/
  | visit (t : Nat)
  /-- The section after a callback, of a track call or of a walk. -/
  | rele (t : Nat)
  | unregister (t : Nat)
  /-- A waiting unregister has the lock again and reads the count. -/
  | wake (t : Nat)
  /-- Another function goes through the list and passes the hook. -/
  | pass
deriving DecidableEq

/-- The hook, the threads that have entered a function with it, those with a reference, and those
that wait in `umem_hook_unregister`; whether one has returned from there, and whether the hook was
read or written after that. -/
structure Race where
  hook : Hook
  called : List (Nat × Call)
  inside : List Nat
  waiting : List Nat
  returned : Bool
  touched : Bool

namespace Race

/-- The hook has just been registered. -/
def registered : Race := ⟨⟨true, true, 0⟩, [], [], [], false, false⟩

def touch (s : Race) : Race := { s with touched := s.touched || s.returned }

def hold (s : Race) (t : Nat) : Race :=
  let r := hookHold s.hook
  { s with hook := r.2, inside := if r.1 then t :: s.inside else s.inside }

/-- The test of the loop that waits for the references. -/
def drain (s : Race) (t : Nat) : Race :=
  if 0 < s.hook.refcnt then { s with waiting := t :: s.waiting } else { s with returned := true }

/-- Nobody enters a function with a hook that may have been freed. -/
def step (s : Race) : Event → Option Race
  | .call t c => if s.returned then none else some { s with called := (t, c) :: s.called }
  | .track t =>
    if (t, .track) ∈ s.called then
      some ({ s.touch with called := s.called.erase (t, .track) }.hold t)
    else none
  | .visit t => if s.hook.linked then some (s.touch.hold t) else none
  | .rele t =>
    if t ∈ s.inside then
      some { s.touch with hook := hookRele s.hook, inside := s.inside.erase t }
    else none
  | .unregister t =>
    if (t, .unregister) ∈ s.called then
      some ({ s.touch with
        called := s.called.erase (t, .unregister), hook := umemHookUnregister s.hook }.drain t)
    else none
  | .wake t =>
    if t ∈ s.waiting then some ({ s.touch with waiting := s.waiting.erase t }.drain t) else none
  | .pass => if s.hook.linked then some s.touch else none

/-- When an unregister returns, no other thread has entered a function or waits in one. -/
def Alone (s : Race) : Event → Prop
  | .unregister t =>
    s.hook.refcnt = 0 → s.called.erase (t, .unregister) = [] ∧ s.waiting = []
  | .wake t => s.hook.refcnt = 0 → s.called = [] ∧ s.waiting.erase t = []
  | _ => True

instance (s : Race) (e : Event) : Decidable (s.Alone e) := by
  unfold Alone
  split <;> infer_instance

/-- The next section of a function that a thread has entered or waits in. -/
inductive Pending (s : Race) : Event → Prop
  | tracking {t : Nat} (h : (t, .track) ∈ s.called) : Pending s (.track t)
  | called {t : Nat} (h : (t, .unregister) ∈ s.called) : Pending s (.unregister t)
  | waiting {t : Nat} (h : t ∈ s.waiting) : Pending s (.wake t)

/-- What every section keeps. -/
structure Inv (s : Race) : Prop where
  linked : s.hook.linked = s.hook.active
  counted : s.hook.refcnt.toNat = s.inside.length
  closed : s.waiting ≠ [] → s.hook.active = false
  gone : s.returned = true →
    s.hook.active = false ∧ s.inside = [] ∧ s.waiting = [] ∧ s.called = []
  untouched : s.touched = false

variable {s t : Race} {e : Event}

theorem touch_eq (hret : s.returned = false) : s.touch = s := by
  rw [Race.touch, hret, Bool.or_false, ← hret]

theorem Inv.hold (hs : Inv s) (hret : s.returned = false) (thr : Nat) : Inv (s.hold thr) := by
  obtain ⟨hlinked, hcount, hclosed, -, htouched⟩ := hs
  unfold Race.hold hookHold
  split_ifs with hactive hfull
  · exact ⟨hlinked, hcount, hclosed, by simp [hret], htouched⟩
  · exact ⟨hlinked, hcount, hclosed, by simp [hret], htouched⟩
  · refine ⟨hlinked, ?_, hclosed, by simp [hret], htouched⟩
    simp only [if_true, length_cons, ← hcount]
    bv_omega

/-- The caller was the last one to have anything to do with the hook, or it waits. -/
theorem Inv.drain (hs : Inv s) (hret : s.returned = false) (hactive : s.hook.active = false)
    (halone : s.hook.refcnt = 0 → s.called = [] ∧ s.waiting = []) (thr : Nat) :
    Inv (s.drain thr) := by
  obtain ⟨hlinked, hcount, -, -, htouched⟩ := hs
  unfold Race.drain
  split
  · exact ⟨hlinked, hcount, fun _ => hactive, by simp [hret], htouched⟩
  case isFalse hrefs =>
    have hzero : s.hook.refcnt = 0 := by bv_omega
    obtain ⟨hcalled, hwaiting⟩ := halone hzero
    refine ⟨hlinked, hcount, fun _ => hactive, fun _ => ⟨hactive, ?_, hwaiting, hcalled⟩, htouched⟩
    rw [← length_eq_zero_iff, ← hcount, hzero]
    rfl

theorem Inv.step (hs : Inv s) (halone : s.Alone e) (hstep : s.step e = some t) : Inv t := by
  -- Once a call has returned, no section that reads the hook is left to be run.
  cases hret : s.returned with
  | true =>
    obtain ⟨hactive, hinside, hwaiting, hcalled⟩ := hs.gone hret
    have hlinked := hs.linked.trans hactive
    cases e <;> simp [Race.step, hret, hlinked, hinside, hwaiting, hcalled] at hstep
  | false =>
    have htouch := touch_eq hret
    have hs' := hs
    obtain ⟨hlinked, hcount, hclosed, -, htouched⟩ := hs'
    cases e <;> simp only [Race.step, htouch] at hstep <;> split at hstep <;>
      try contradiction
    all_goals obtain rfl := Option.some.inj hstep
    case false.call.isFalse => exact ⟨hlinked, hcount, hclosed, by simp [hret], htouched⟩
    case false.track.isTrue thr _ =>
      have hleft : Inv { s with called := s.called.erase (thr, .track) } :=
        ⟨hlinked, hcount, hclosed, by simp [hret], htouched⟩
      exact hleft.hold hret thr
    case false.visit.isTrue thr _ => exact hs.hold hret thr
    case false.rele.isTrue thr hmem =>
      have hpos := length_pos_of_mem hmem
      refine ⟨hlinked, ?_, hclosed, by simp [hret], htouched⟩
      simp only [hookRele, length_erase_of_mem hmem, ← hcount]
      bv_omega
    case false.unregister.isTrue thr _ =>
      have hleft : Inv { s with
          called := s.called.erase (thr, .unregister), hook := umemHookUnregister s.hook } := by
        unfold umemHookUnregister
        constructor <;> split <;> simp_all
      refine hleft.drain hret ?_ ?_ thr
      · unfold umemHookUnregister
        split <;> simp_all
      · unfold umemHookUnregister
        split <;> exact halone
    case false.wake.isTrue thr hmem =>
      have hactive := hclosed (ne_nil_of_mem hmem)
      have hleft : Inv { s with waiting := s.waiting.erase thr } :=
        ⟨hlinked, hcount, fun _ => hactive, by simp [hret], htouched⟩
      exact hleft.drain hret hactive halone thr
    case false.pass.isTrue => exact hs

theorem drain_touched (s : Race) (thr : Nat) : (s.drain thr).touched = s.touched := by
  unfold Race.drain
  split <;> rfl

/-- A call that is still in progress when an unregister has returned reads the hook. -/
theorem Pending.touched (h : s.Pending e) (hret : s.returned = true) :
    ∃ t, s.step e = some t ∧ t.touched = true := by
  cases h with
  | tracking hmem =>
    refine ⟨_, if_pos hmem, ?_⟩
    simp [Race.hold, touch, hret]
  | called hmem | waiting hmem =>
    refine ⟨_, if_pos hmem, ?_⟩
    rw [drain_touched]
    simp [touch, hret]

/-- Nothing touches the hook after a return as long as a return leaves nobody in a function of it, and
a call that a return leaves in progress does touch it. -/
theorem not_touched_after_return (events : List Event) (s : Race)
    (hrun : Runs (fun s e t => s.Alone e ∧ s.step e = some t) registered events s) :
    s.touched = false ∧
    ∀ e t, s.step e = some t → t.returned = true → ∀ e', t.Pending e' →
      ∃ u, t.step e' = some u ∧ u.touched = true := by
  have hinit : Inv registered := by constructor <;> simp [registered]
  have hinv : Inv s := hrun.invariant (fun _ _ _ hs hm => hs.step hm.1 hm.2) hinit
  exact ⟨hinv.untouched, fun _ _ _ hret _ hpending => hpending.touched hret⟩

theorem not_touched_after_return_one :
    ∃ s : Race, s.touched = false ∧ s.returned = true := by
  obtain ⟨s, hrun, hview⟩ := exists_runs (P := Alone) (f := step) registered
    [.call 1 .track, .track 1, .call 2 .unregister, .unregister 2, .rele 1, .wake 2]
    (fun s => s.returned) true (by decide +kernel)
  exact ⟨s, (not_touched_after_return _ s hrun).1, hview⟩

/-- Two threads wait in `umem_hook_unregister`. The one that wakes up first may free the hook, and
the other reads its count. -/
theorem touched_after_return :
    ∃ s, Runs (fun s e t => s.step e = some t) registered
      [.call 1 .track, .track 1, .call 2 .unregister, .unregister 2, .call 3 .unregister,
        .unregister 3, .rele 1, .wake 2, .wake 3] s ∧ ¬s.touched = false := by
  obtain ⟨s, hrun, hview⟩ := exists_runs (P := fun _ _ => True) (f := step) registered
    [.call 1 .track, .track 1, .call 2 .unregister, .unregister 2, .call 3 .unregister,
      .unregister 3, .rele 1, .wake 2, .wake 3] (fun s => s.touched) true (by decide +kernel)
  exact ⟨s, hrun.mono fun _ _ _ h => h.2, by simp [hview]⟩

end Race
end Libumem.Hooks
