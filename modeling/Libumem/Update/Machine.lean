import Libumem.Lib.Linked
import Libumem.Lib.Scan

/-!
# Updates of caches

Asynchronous requests for work on single caches. The caches with work requested are on a doubly
linked list rooted at `umem_null_cache`, and a worker, which is the update thread or a thread that
runs the update inline, takes them off one by one. A step is what one thread does between taking
`umem_update_lock` and dropping it, or one turn of the outer loop of `umem_process_updates`, with
the lock held from turn to turn.
-/

namespace Libumem.Update
open Function Lib

abbrev Uflags := BitVec 32

abbrev Tid := Nat

def umuReap : Uflags := 0x00000004

def umuNotify : Uflags := 0x08000000

def umuActive : Uflags := 0x80000000

inductive Reaping
  | done | adding | active
  deriving DecidableEq, Repr

/-- Where a thread is. A worker is in `inlining` to `working` when `inline` is set, and in
`starting` to `working` when it is the update thread. -/
inductive Doing (α : Type*)
  /-- Outside of the functions that are modelled here. -/
  | user
  /-- In `umem_reap`, which has locked out other reaps and has not yet added its updates. -/
  | adding
  | added
  /-- In `umem_create_update_thread`, called by `umem_reap`. -/
  | creating
  /-- In `umem_st_update`, before it processes the updates. -/
  | inlining
  /-- A new update thread, which has not yet taken the lock. -/
  | starting
  /-- The update thread between two rounds. -/
  | sleeping
  /-- At the head of the outer loop of `umem_process_updates`, with the lock held. -/
  | looping (inline : Bool)
  /-- In the unlocked part of `umem_process_updates`, where callbacks of the cache run. -/
  | working (inline : Bool) (cp : α) (uflags : Uflags) (notify : Bool)
  deriving DecidableEq, Repr

/-- A call that a thread has made from user code or from a callback, and has not returned from. -/
inductive Pending (α : Type*)
  | nothing
  /-- In `umem_remove_updates`, before it takes the lock for the first time or while it waits. -/
  | removing (cp : α)
  /-- The child side of `fork`, after the locks are released. -/
  | released (cleanupUpdate : Bool)
  /-- In `umem_create_update_thread`, called by `umem_do_release`. -/
  | recreating
  deriving DecidableEq, Repr

structure Thread (α : Type*) where
  doing : Doing α
  pending : Pending α
  deriving DecidableEq, Repr

/-- The update state of a process. `none` is `umem_null_cache` among the nodes of the list. -/
structure Sys (α : Type*) where
  uflags : α → Uflags
  links : Links (Option α)
  /-- The list of all caches, from `umem_null_cache.cache_next` on. -/
  caches : List α
  updateThr : Option Tid
  stUpdateThr : Option Tid
  reaping : Reaping
  /-- Who holds `umem_update_lock` between two steps. -/
  lock : Option Tid
  threads : Tid → Option (Thread α)
  /-- Whether every `ASSERT` held so far. -/
  asserts : Bool

/-- What a thread does next. -/
inductive Op (α : Type*)
  /-- `umem_cache_create` and `umem_cache_destroy` link the cache in and out. -/
  | enlist (cp : α)
  | unlist (cp : α)
  | spawn (t u : Tid)
  | exit (t : Tid)
  | addUpdate (cp : α) (flags : Uflags)
  | updateall (flags : Uflags)
  | removeUpdates (t : Tid) (cp : α)
  /-- One turn of `umem_remove_updates`, on the first lock or after a wake-up. -/
  | remove (t : Tid)
  | reap (t : Tid)
  | reapAdd (t : Tid)
  /-- The last part of `umem_reap`, with whether the process has a single thread. -/
  | reapRun (t : Tid) (single : Bool)
  /-- What `pthread_create` answered. -/
  | created (t : Tid) (new : Option Tid)
  | inlineRun (t : Tid)
  | start (t : Tid)
  | wake (t : Tid)
  | loop (t : Tid)
  /-- The work is done: the worker takes the lock again. -/
  | work (t : Tid)
  /-- The process becomes the child of a fork by thread `t`. -/
  | fork (t : Tid)
  /-- The end of `umem_do_release`, with whether the library is up. -/
  | release (t : Tid) (ready : Bool)
  deriving DecidableEq, Repr

variable {α : Type*} [DecidableEq α]
namespace Sys

def assert (s : Sys α) (p : Bool) : Sys α := { s with asserts := s.asserts && p }

def setThread (s : Sys α) (t : Tid) (th : Thread α) : Sys α :=
  { s with threads := update s.threads t (some th) }

def setUflags (s : Sys α) (cp : α) (flags : Uflags) : Sys α :=
  { s with uflags := update s.uflags cp flags }

def linked (s : Sys α) (cp : α) : Bool := (s.links.next (some cp)).isSome

/-- Link a cache in at the end of the list. -/
def enqueue (s : Sys α) (cp : α) : Sys α :=
  { s with links := s.links.pushBack none (some cp) }

def dequeue (s : Sys α) (cp : α) : Sys α := { s with links := s.links.unlink (some cp) }

def addUpdateUnlocked (s : Sys α) (cp : α) (flags : Uflags) : Sys α :=
  let flags := flags &&& ~~~umuActive
  if flags = 0 then s
  else if s.uflags cp &&& umuActive ≠ 0 then s.setUflags cp (s.uflags cp ||| flags)
  else if s.linked cp then
    (s.assert (s.uflags cp ≠ 0)).setUflags cp (s.uflags cp ||| flags)
  else ((s.assert (s.uflags cp = 0)).setUflags cp flags).enqueue cp

def updateall (s : Sys α) (flags : Uflags) : Sys α :=
  s.caches.foldl (fun s cp => s.addUpdateUnlocked cp flags) s

/-- One turn of `umem_remove_updates`: whether it returns. -/
def removeTurn (s : Sys α) (t : Tid) (cp : α) : Sys α × Bool :=
  if s.uflags cp &&& umuActive ≠ 0 then
    let s := (s.assert (!s.linked cp)).setUflags cp (s.uflags cp ||| umuNotify)
    let s := s.assert (s.updateThr ≠ none ∨ s.stUpdateThr ≠ none)
    (s.assert (s.updateThr ≠ some t ∧ s.stUpdateThr ≠ some t), false)
  else
    let s := if s.linked cp then (s.dequeue cp).setUflags cp 0 else s
    (s.assert (!s.linked cp ∧ s.uflags cp = 0), true)

/-- `umem_st_update` up to where it drops the lock. -/
def stUpdate (s : Sys α) (t : Tid) : Sys α :=
  let s := s.assert (s.updateThr = none ∧ s.stUpdateThr = none)
  { s with stUpdateThr := some t }.setThread t ⟨.inlining, .nothing⟩

/-- What follows the outer loop of `umem_process_updates`, in `umem_st_update` or in the update
thread. -/
def finish (s : Sys α) (t : Tid) (inline : Bool) : Sys α :=
  if inline then
    { s with reaping := .done, stUpdateThr := none, lock := none }.setThread t ⟨.user, .nothing⟩
  else
    let reaping := if s.reaping = .active then .done else s.reaping
    { s with reaping := reaping, lock := none }.setThread t ⟨.sleeping, .nothing⟩

/-- The head of the inner loop: start another round of work, or go to the head of the outer one. -/
def inner (s : Sys α) (t : Tid) (inline : Bool) (cp : α) (notify : Bool) : Sys α :=
  if s.uflags cp = 0 then
    { s with lock := some t }.setThread t ⟨.looping inline, .nothing⟩
  else
    let uflags := s.uflags cp ||| umuActive
    ({ s with lock := none }.setUflags cp uflags).setThread t
      ⟨.working inline cp uflags notify, .nothing⟩

/-- One turn of the outer loop. -/
def outer (s : Sys α) (t : Tid) (inline : Bool) : Sys α :=
  match s.links.next none with
  | some (some cp) =>
    let s := s.dequeue cp
    (s.assert (s.uflags cp &&& umuActive = 0)).inner t inline cp false
  | _ => s.finish t inline

/-- The end of the inner loop: clear what was worked on. -/
def worked (s : Sys α) (t : Tid) (inline : Bool) (cp : α) (uflags : Uflags) (notify : Bool) :
    Sys α :=
  let asked : Bool := s.uflags cp &&& umuNotify ≠ 0
  let uflags := if asked then uflags ||| umuNotify else uflags
  (s.setUflags cp (s.uflags cp &&& ~~~uflags)).inner t inline cp (notify || asked)

/-- `umem_do_release` for one cache, when the update state is cleaned up. -/
def releaseCache (s : Sys α) (cp : α) : Sys α :=
  let s :=
    if s.uflags cp &&& umuNotify ≠ 0 then s.setUflags cp (s.uflags cp &&& ~~~umuNotify) else s
  if s.uflags cp &&& umuActive ≠ 0 then
    let s := s.assert (s.links.next (some cp) = none ∧ s.links.prev (some cp) = none)
    (s.setUflags cp (s.uflags cp &&& ~~~umuActive)).enqueue cp
  else s

/-- The state of the child, where `t` is the thread that called `fork`. -/
def child (s : Sys α) (t : Tid) (th : Thread α) : Sys α :=
  let cleanupUpdate : Bool := s.updateThr ≠ some t ∨ s.stUpdateThr ≠ some t
  let s := { s with
    updateThr := if s.updateThr ≠ some t then none else s.updateThr
    stUpdateThr := if s.stUpdateThr ≠ some t then none else s.stUpdateThr
    -- no other thread is there in the child
    threads := fun u => if u = t then some { th with pending := .released cleanupUpdate } else none }
  if cleanupUpdate then s.caches.foldl releaseCache { s with reaping := .done } else s

end Sys

/-- Whether user code or a callback runs. -/
def Thread.callable : Thread α → Bool
  | ⟨.user, .nothing⟩ => true
  | ⟨.working .., .nothing⟩ => true
  | _ => false

namespace Sys

/-- What thread `t` does when it has the lock, or needs none; `none` when it is not there. -/
def threadStep (s : Sys α) (t : Tid) (th : Thread α) : Op α → Option (Sys α)
  | .spawn _ u =>
    if th.callable ∧ s.threads u = none then some (s.setThread u ⟨.user, .nothing⟩) else none
  | .exit _ =>
    if th.doing = .user ∧ th.pending = .nothing then
      some { s with threads := update s.threads t none }
    else none
  | .removeUpdates _ cp =>
    if th.callable then some (s.setThread t { th with pending := .removing cp }) else none
  | .remove _ =>
    match th.pending with
    | .removing cp =>
      let (s, returns) := s.removeTurn t cp
      some (if returns then s.setThread t { th with pending := .nothing } else s)
    | _ => none
  | .reap _ =>
    -- a worker returns before it takes the lock
    if th.doing = .user ∧ th.pending = .nothing ∧ s.reaping = .done then
      some ({ s with reaping := .adding }.setThread t ⟨.adding, .nothing⟩)
    else none
  | .reapAdd _ =>
    if th.doing = .adding then some ((s.updateall umuReap).setThread t ⟨.added, .nothing⟩) else none
  | .reapRun _ single =>
    if th.doing = .added then
      let s := { s with reaping := .active }
      if s.updateThr = none then
        let s := s.assert (s.stUpdateThr = none)
        some (if single then s.stUpdate t else s.setThread t ⟨.creating, .nothing⟩)
      else some (s.setThread t ⟨.user, .nothing⟩)
    else none
  | .created _ none =>
    if th.doing = .creating then some (s.stUpdate t)
    else if th.pending = .recreating then some (s.setThread t { th with pending := .nothing })
    else none
  | .created _ (some u) =>
    if (th.doing = .creating ∨ th.pending = .recreating) ∧ s.threads u = none then
      let s := s.assert (s.updateThr = none)
      let s := { s with updateThr := some u }.setThread u ⟨.starting, .nothing⟩
      some (s.setThread t
        ⟨if th.doing = .creating then .user else th.doing, .nothing⟩)
    else none
  | .inlineRun _ =>
    if th.doing = .inlining then
      some ({ s with lock := some t }.setThread t ⟨.looping true, .nothing⟩)
    else none
  | .start _ =>
    if th.doing = .starting then
      let s := s.assert (s.updateThr = some t ∧ s.stUpdateThr = none)
      some ({ s with lock := some t }.setThread t ⟨.looping false, .nothing⟩)
    else none
  | .wake _ =>
    if th.doing = .sleeping then
      some ({ s with lock := some t }.setThread t ⟨.looping false, .nothing⟩)
    else none
  | .work _ =>
    match th with
    | ⟨.working inline cp uflags notify, .nothing⟩ => some (s.worked t inline cp uflags notify)
    | _ => none
  | .fork _ => if th.callable then some (s.child t th) else none
  | .release _ ready =>
    match th.pending with
    | .released cleanupUpdate =>
      let recreate : Bool := ready && cleanupUpdate && s.updateThr.isNone
      some (s.setThread t { th with pending := if recreate then .recreating else .nothing })
    | _ => none
  | _ => none

end Sys

/-- The thread that does the operation, where it matters which one it is. -/
def Op.thread : Op α → Option Tid
  | .enlist _ | .unlist _ | .addUpdate .. | .updateall _ => none
  | .spawn t _ | .exit t | .removeUpdates t _ | .remove t | .reap t | .reapAdd t | .reapRun t _
  | .created t _ | .inlineRun t | .start t | .wake t | .loop t | .work t | .fork t
  | .release t _ => some t

namespace Sys

/-- The operations of one thread, outside of the loop that holds the lock. -/
def unlockedStep (s : Sys α) (op : Op α) : Option (Sys α) :=
  match op with
  | .enlist cp =>
    -- a new cache has its update fields cleared
    if cp ∉ s.caches ∧ s.uflags cp = 0 ∧ s.linked cp = false then
      some { s with caches := s.caches ++ [cp] }
    else none
  | .unlist cp => some { s with caches := s.caches.erase cp }
  | .addUpdate cp flags => some (s.addUpdateUnlocked cp flags)
  | .updateall flags => some (s.updateall flags)
  | op => op.thread.bind fun t => (s.threads t).bind fun th => s.threadStep t th op

def step (s : Sys α) : Op α → Option (Sys α)
  | .loop t =>
    match s.threads t with
    | some ⟨.looping inline, _⟩ => if s.lock = some t then some (s.outer t inline) else none
    | _ => none
  | op => if s.lock = none then s.unlockedStep op else none

/-- The library has come up, with an update thread or without one, and one thread runs user code. -/
def init (worker : Option Tid) (main : Tid) : Sys α where
  uflags _ := 0
  links :=
    { next := fun n => if n = none then some none else none
      prev := fun n => if n = none then some none else none }
  caches := []
  updateThr := worker
  stUpdateThr := none
  reaping := .done
  lock := none
  threads u := if u = main then some ⟨.user, .nothing⟩
    else if some u = worker then some ⟨.starting, .nothing⟩ else none
  asserts := true

end Sys
end Libumem.Update
