import Libumem.Update.Machine

/-!
# The throttle of reaps

The machine of the updates with a clock. A reap that is complete sets the time of the next one, and
`umem_reap` reads the clock twice, before it takes the lock and with the lock held. The time of the
clock is packed into one word, seconds above nanoseconds, and the interval is added to that word as
a number of nanoseconds.
-/

namespace Libumem.Update
open List Option BitVec Lib

abbrev Hrtime := BitVec 64

/-- A reading of `CLOCK_MONOTONIC`. -/
structure Timespec where
  tvSec : Int
  tvNsec : Nat
  nsec_lt : tvNsec < 1000000000
  deriving DecidableEq, Repr

def nanosec : Hrtime := 1000000000

def gethrtime (ts : Timespec) : Hrtime :=
  (BitVec.ofInt 64 ts.tvSec <<< 32) ||| BitVec.ofNat 64 ts.tvNsec

/-- The value of `umem_reap_next` when a reap is complete. -/
def reapNextAt (interval : BitVec 32) (now : Timespec) : Hrtime :=
  gethrtime now + interval.setWidth 64 * nanosec

/-- What happens to a reap. -/
inductive Mark
  | started (at_ : Timespec)
  | completed (at_ : Timespec)
  deriving DecidableEq, Repr

/-- The update state with the time of the next reap. The last reading of the clock and the log are
no part of the source. -/
structure Timed (α : Type*) where
  upd : Sys α
  reapNext : Hrtime
  /-- The threads in `umem_reap` that passed its first test and have not yet taken the lock. -/
  entering : List Tid
  clock : Timespec
  /-- The latest mark is the first one. -/
  log : List Mark

inductive TimedOp (α : Type*)
  /-- `umem_reap` up to where it takes the lock. -/
  | early (t : Tid)
  /-- The test of `umem_reap` with the lock held. -/
  | locked (t : Tid)
  | other (op : Op α)
  deriving DecidableEq, Repr

variable {α : Type*} [DecidableEq α]

/-- Whether an operation takes a worker past the end of `umem_process_updates` in a way that
resets the reap state. -/
def Sys.completes (s : Sys α) : Op α → Bool
  | .loop t =>
    match s.threads t, s.links.next none with
    | _, some (some _) => false
    | some ⟨.looping inline, _⟩, _ => inline || s.reaping = .active
    | _, _ => false
  | _ => false

def Op.isReap : Op α → Bool
  | .reap _ => true
  | _ => false

namespace Timed

/-- Both tests of `umem_reap`. -/
def refuses (s : Timed α) (now : Timespec) : Bool :=
  s.upd.reaping ≠ .done || gethrtime now < s.reapNext

def stepAt (interval : BitVec 32) (s : Timed α) (now : Timespec) : TimedOp α → Option (Timed α)
  | .early t =>
    -- a worker returns before it looks at the clock
    if s.upd.threads t = some ⟨.user, .nothing⟩ ∧ t ∉ s.entering then
      some (if s.refuses now then s else { s with entering := t :: s.entering })
    else none
  | .locked t =>
    if t ∈ s.entering ∧ s.upd.lock = none ∧ s.upd.threads t = some ⟨.user, .nothing⟩ then
      let left := s.entering.erase t
      if s.refuses now then some { s with entering := left }
      else
        (s.upd.step (.reap t)).map fun upd =>
          { s with upd := upd, entering := left, log := .started now :: s.log }
    else none
  | .other op =>
    if op.isReap ∨ ∃ t ∈ s.entering, op.thread = some t then none
    else
      (s.upd.step op).map fun upd =>
        if s.upd.completes op then
          { s with upd := upd, reapNext := reapNextAt interval now, log := .completed now :: s.log }
        else { s with upd := upd }

def step (interval : BitVec 32) (s : Timed α) (e : Timespec × TimedOp α) : Option (Timed α) :=
  (s.stepAt interval e.1 e.2).map fun s => { s with clock := e.1 }

/-- The library has come up, and a second has to pass before the first reap. -/
def init (worker : Option Tid) (main : Tid) (now : Timespec) : Timed α where
  upd := Sys.init worker main
  reapNext := gethrtime now + nanosec
  entering := []
  clock := now
  log := []

end Timed

/-! ### The clock as a number -/

namespace Timespec

def ns (ts : Timespec) : Int := ts.tvSec * 1000000000 + ts.tvNsec

/-- The word of `gethrtime` as a number: a second counts as `2 ^ 32` units of it. -/
def packed (ts : Timespec) : Int := ts.tvSec * 2 ^ 32 + ts.tvNsec

/-- The time of a next reap, set at this reading, fits into its word. -/
def Fits (interval : BitVec 32) (ts : Timespec) : Prop :=
  0 ≤ ts.tvSec ∧ ts.packed + interval.toNat * 1000000000 < 2 ^ 64

instance (interval : BitVec 32) (ts : Timespec) : Decidable (ts.Fits interval) :=
  inferInstanceAs (Decidable (_ ∧ _))

end Timespec

section

variable {interval : BitVec 32} {ts : Timespec} (h : ts.Fits interval)

include h

theorem Timespec.Fits.toNat_gethrtime : ((gethrtime ts).toNat : Int) = ts.packed := by
  obtain ⟨hsec, hfit⟩ := h
  have hnsec := ts.nsec_lt
  simp only [Timespec.packed] at hfit ⊢
  obtain ⟨sec, hs⟩ := Int.eq_ofNat_of_zero_le hsec
  have hlt : sec < 2^32 := by omega
  have hword : BitVec.ofInt 64 ts.tvSec = BitVec.ofNat 64 sec := by
    rw [hs]
    exact ofInt_natCast 64 sec
  have hshift : (BitVec.ofNat 64 sec <<< 32).toNat = sec <<< 32 := by
    rw [toNat_shiftLeft, toNat_ofNat, Nat.mod_eq_of_lt (a := sec) (by omega)]
    exact Nat.mod_eq_of_lt (by rw [Nat.shiftLeft_eq]; omega)
  have hlow : (BitVec.ofNat 64 ts.tvNsec).toNat = ts.tvNsec := by
    rw [toNat_ofNat, Nat.mod_eq_of_lt (by omega)]
  have hor : sec <<< 32 ||| ts.tvNsec = sec <<< 32+ts.tvNsec :=
    (Nat.shiftLeft_add_eq_or_of_lt (by omega) sec).symm
  rw [gethrtime, hword, toNat_or, hshift, hlow, hor, Nat.shiftLeft_eq, hs]
  push_cast
  ring

theorem Timespec.Fits.toNat_reapNextAt :
    ((reapNextAt interval ts).toNat : Int) = ts.packed+interval.toNat * 1000000000 := by
  have hnow := h.toNat_gethrtime
  have hmul : (interval.setWidth 64 * nanosec).toNat = interval.toNat * 1000000000 := by
    have hlt := interval.isLt
    have hnano : nanosec.toNat = 1000000000 := rfl
    rw [toNat_mul, toNat_setWidth, hnano, Nat.mod_eq_of_lt (a := interval.toNat)
      (by omega)]
    exact Nat.mod_eq_of_lt (by omega)
  have hfit := h.2
  rw [reapNextAt, toNat_add, hmul, Nat.mod_eq_of_lt (by omega)]
  push_cast
  rw [hnow]

end

theorem Timespec.Fits.lt_reapNextAt_iff {interval : BitVec 32} {now c : Timespec}
    (hnow : now.Fits interval) (hc : c.Fits interval) :
    gethrtime now < reapNextAt interval c ↔ now.packed < c.packed+interval.toNat * 1000000000 := by
  rw [lt_def, ← Int.ofNat_lt, hnow.toNat_gethrtime, hc.toNat_reapNextAt]

theorem Timespec.ns_sub_le {c now : Timespec} (h : c.ns ≤ now.ns) :
    now.ns-c.ns ≤ now.packed-c.packed := by
  have hc := c.nsec_lt
  have hnow := now.nsec_lt
  simp only [Timespec.ns, Timespec.packed] at h ⊢
  have hsec : c.tvSec ≤ now.tvSec := by omega
  omega

/-! ### What the marks of a run say -/

def Mark.time : Mark → Timespec
  | .started ts => ts
  | .completed ts => ts

/-- Two reaps with a completion between them start an interval apart. -/
def Spaced (interval : BitVec 32) (log : List Mark) : Prop :=
  ∀ a₁ c a₂ : Timespec, [.started a₂, .completed c, .started a₁].Sublist log →
    a₁.ns + interval.toNat * 1000000000 ≤ a₂.ns

def lastCompletion (log : List Mark) : Option Timespec :=
  log.findSome? fun
    | .completed ts => some ts
    | .started _ => none

@[simp] theorem lastCompletion_started (ts : Timespec) (log : List Mark) :
    lastCompletion (.started ts :: log) = lastCompletion log := rfl

@[simp] theorem lastCompletion_completed (ts : Timespec) (log : List Mark) :
    lastCompletion (.completed ts :: log) = some ts := rfl

theorem completed_mem_of_lastCompletion {log : List Mark} {c : Timespec}
    (h : c ∈ lastCompletion log) : .completed c ∈ log := by
  induction log with
  | nil => simp [lastCompletion] at h
  | cons m log ih =>
    cases m with
    | completed ts =>
      obtain rfl : ts = c := some.inj h
      exact mem_cons_self
    | started ts => exact mem_cons_of_mem _ (ih h)

namespace Timed
variable {interval : BitVec 32} {s s' : Timed α} {now : Timespec} {op : TimedOp α} {t : Tid}

/-- What a step does to the time of the next reap and to the marks. -/
inductive Marks (interval : BitVec 32) (s : Timed α) (now : Timespec) (s' : Timed α) :
    TimedOp α → Prop
  | quiet {op : TimedOp α} (next : s'.reapNext = s.reapNext) (log : s'.log = s.log) :
      Marks interval s now s' op
  | started {t : Tid} (done : s.upd.reaping = .done) (due : ¬ gethrtime now < s.reapNext)
      (next : s'.reapNext = s.reapNext) (log : s'.log = .started now :: s.log) :
      Marks interval s now s' (.locked t)
  | completed {op : Op α} (next : s'.reapNext = reapNextAt interval now)
      (log : s'.log = .completed now :: s.log) : Marks interval s now s' (.other op)

omit [DecidableEq α] in
theorem refuses_eq_false_iff :
    s.refuses now = false ↔ s.upd.reaping = .done ∧ ¬ gethrtime now < s.reapNext := by
  simp [refuses]

theorem stepAt_marks (h : s.stepAt interval now op = some s') : Marks interval s now s' op := by
  cases op with
  | early t =>
    simp only [stepAt, ite_none_right_eq_some, some.injEq] at h
    obtain ⟨-, rfl⟩ := h
    split
    · exact .quiet rfl rfl
    · exact .quiet rfl rfl
  | locked t =>
    simp only [stepAt, ite_none_right_eq_some] at h
    obtain ⟨-, h⟩ := h
    cases hr : s.refuses now with
    | true =>
      rw [if_pos hr] at h
      cases h
      exact .quiet rfl rfl
    | false =>
      rw [if_neg (by simp [hr])] at h
      obtain ⟨upd, -, rfl⟩ := map_eq_some_iff.mp h
      obtain ⟨hdone, hdue⟩ := refuses_eq_false_iff.mp hr
      exact .started hdone hdue rfl rfl
  | other op =>
    simp only [stepAt, ite_none_left_eq_some] at h
    obtain ⟨-, h⟩ := h
    obtain ⟨upd, -, rfl⟩ := map_eq_some_iff.mp h
    split
    · exact .completed rfl rfl
    · exact .quiet rfl rfl

theorem step_marks (h : s.step interval (now, op) = some s') :
    s'.clock = now ∧ Marks interval s now s' op := by
  obtain ⟨m, hm, rfl⟩ := map_eq_some_iff.mp h
  refine ⟨rfl, ?_⟩
  cases stepAt_marks hm with
  | quiet next log => exact .quiet next log
  | started done due next log => exact .started done due next log
  | completed next log => exact .completed next log

/-- A step at a time that the clock can show and that a next reap can be computed from. -/
def TimelyStep (interval : BitVec 32) (s : Timed α) (e : Timespec × TimedOp α) (s' : Timed α) :
    Prop :=
  s.clock.ns ≤ e.1.ns ∧ e.1.Fits interval ∧ s.step interval e = some s'

/-- What the marks of a run have to do with the time of the next reap. -/
structure Ticking (interval : BitVec 32) (s : Timed α) : Prop where
  next : ∀ c ∈ lastCompletion s.log, s.reapNext = reapNextAt interval c
  fits : ∀ m ∈ s.log, m.time.Fits interval
  past : ∀ m ∈ s.log, m.time.ns ≤ s.clock.ns

theorem Ticking.step {e : Timespec × TimedOp α} (h : s.Ticking interval)
    (hs : s.TimelyStep interval e s') : s'.Ticking interval := by
  obtain ⟨now, op⟩ := e
  obtain ⟨hclock, hfits, hs⟩ := hs
  obtain ⟨rfl, hmarks⟩ := step_marks hs
  have hpast : ∀ m ∈ s.log, m.time.ns ≤ s'.clock.ns := fun m hm => (h.past m hm).trans hclock
  cases hmarks with
  | quiet next log =>
    constructor
    · simpa only [log, next] using h.next
    · simpa only [log] using h.fits
    · simpa only [log] using hpast
  | started done due next log =>
    constructor
    · simpa only [log, next, lastCompletion_started] using h.next
    · simpa only [log, forall_mem_cons] using ⟨hfits, h.fits⟩
    · simpa only [log, forall_mem_cons] using ⟨le_refl s'.clock.ns, hpast⟩
  | completed next log =>
    constructor
    · simp [log, next]
    · simpa only [log, forall_mem_cons] using ⟨hfits, h.fits⟩
    · simpa only [log, forall_mem_cons] using ⟨le_refl s'.clock.ns, hpast⟩

omit [DecidableEq α] in
theorem Ticking.due_iff {c : Timespec} (h : s.Ticking interval) (hc : c ∈ lastCompletion s.log)
    (hnow : now.Fits interval) :
    ¬ gethrtime now < s.reapNext ↔ c.packed+interval.toNat * 1000000000 ≤ now.packed := by
  have hfits : c.Fits interval := h.fits _ (completed_mem_of_lastCompletion hc)
  rw [h.next c hc, hnow.lt_reapNextAt_iff hfits, not_lt]

/-- Without an interval, the order of the clock is enough. -/
theorem Ticking.spaced_zero {e : Timespec × TimedOp α} (h : s.Ticking 0)
    (hs : s.TimelyStep 0 e s') (hlog : Spaced 0 s.log) : Spaced 0 s'.log := by
  obtain ⟨now, op⟩ := e
  obtain ⟨hclock, -, hs⟩ := hs
  intro a₁ c a₂ hsub
  cases (step_marks hs).2 with
  | quiet next log => exact hlog a₁ c a₂ (log ▸ hsub)
  | started done due next log =>
    rw [log] at hsub
    rcases sublist_cons_iff.mp hsub with hsub | ⟨l, hl, hsub⟩
    · exact hlog a₁ c a₂ hsub
    · simp only [cons.injEq, Mark.started.injEq] at hl
      obtain ⟨rfl, rfl⟩ := hl
      have hpast : a₁.ns ≤ s.clock.ns := h.past _ (hsub.subset (mem_cons_of_mem _ mem_cons_self))
      simpa using hpast.trans hclock
  | completed next log =>
    rw [log] at hsub
    rcases sublist_cons_iff.mp hsub with hsub | ⟨l, hl, -⟩
    · exact hlog a₁ c a₂ hsub
    · simp at hl

/-- With no reap in progress, the two tests of `umem_reap` let a call pass. -/
def Accepts (interval : BitVec 32) (s : Timed α) (now : Timespec) : Prop :=
  ∀ t, s.upd.threads t = some ⟨.user, .nothing⟩ →
    (t ∉ s.entering → ∃ s', s.step interval (now, .early t) = some s' ∧ t ∈ s'.entering) ∧
    (t ∈ s.entering → s.upd.lock = none →
      ∃ s', s.step interval (now, .locked t) = some s' ∧ s'.log = .started now :: s.log)

theorem step_early (hdone : s.upd.reaping = .done) (hdue : ¬ gethrtime now < s.reapNext)
    (ht : s.upd.threads t = some ⟨.user, .nothing⟩) (hout : t ∉ s.entering) :
    s.step interval (now, .early t) =
      some { s with entering := t :: s.entering, clock := now } := by
  have hr : s.refuses now = false := refuses_eq_false_iff.mpr ⟨hdone, hdue⟩
  simp [step, stepAt, ht, hout, hr]

theorem step_locked (hdone : s.upd.reaping = .done) (hdue : ¬ gethrtime now < s.reapNext)
    (ht : s.upd.threads t = some ⟨.user, .nothing⟩) (hin : t ∈ s.entering)
    (hlock : s.upd.lock = none) :
    ∃ s', s.step interval (now, .locked t) = some s' ∧ s'.log = .started now :: s.log := by
  have hr : s.refuses now = false := refuses_eq_false_iff.mpr ⟨hdone, hdue⟩
  have hreap : s.upd.step (.reap t) =
      some ({ s.upd with reaping := .adding }.setThread t ⟨.adding, .nothing⟩) := by
    simp [Sys.step, Sys.unlockedStep, Op.thread, Sys.threadStep, hlock, ht, hdone]
  have hstep : s.stepAt interval now (.locked t) = some { s with
      upd := { s.upd with reaping := .adding }.setThread t ⟨.adding, .nothing⟩
      entering := s.entering.erase t
      log := .started now :: s.log } := by
    simp [stepAt, ht, hin, hlock, hr, hreap]
  exact ⟨_, by rw [step, hstep]; rfl, rfl⟩

theorem accepts_of_due (hdone : s.upd.reaping = .done) (hdue : ¬ gethrtime now < s.reapNext) :
    s.Accepts interval now := by
  intro t ht
  constructor
  · intro hout
    exact ⟨_, step_early hdone hdue ht hout, mem_cons_self⟩
  · exact step_locked hdone hdue ht

/-- A call is not refused for longer than the interval after a reap is complete. -/
def Prompt (interval : BitVec 32) (s : Timed α) : Prop :=
  ∀ c now, c ∈ lastCompletion s.log → s.clock.ns ≤ now.ns → now.Fits interval →
    s.upd.reaping = .done → c.ns + interval.toNat * 1000000000 < now.ns → s.Accepts interval now

theorem Ticking.prompt (h : s.Ticking interval) : s.Prompt interval := by
  intro c now hc hclock hfits hdone hlate
  have hpast := h.past _ (completed_mem_of_lastCompletion hc)
  have hgap := Timespec.ns_sub_le (hpast.trans hclock)
  apply accepts_of_due hdone
  rw [h.due_iff hc hfits]
  simp only [Mark.time] at hgap
  omega

omit [DecidableEq α] in
theorem Ticking.init {worker : Option Tid} {main : Tid} {start : Timespec} :
    (Timed.init worker main start : Timed α).Ticking interval := by
  constructor <;> simp [Timed.init, lastCompletion]

end Timed

/-- The update thread 1 comes up, finds no work and goes to sleep. -/
def comeUp (now : Timespec) : List (Timespec × TimedOp α) :=
  [(now, .other (.start 1)), (now, .other (.loop 1))]

/-- User thread 2 reaps, and the update thread completes the reap. -/
def reapAt (now : Timespec) : List (Timespec × TimedOp α) :=
  [(now, .early 2), (now, .locked 2), (now, .other (.reapAdd 2)), (now, .other (.reapRun 2 false)),
    (now, .other (.wake 1)), (now, .other (.loop 1))]

theorem Timespec.fits_of_le (interval : BitVec 32) {ts : Timespec} (hzero : 0 ≤ ts.tvSec)
    (hle : ts.tvSec ≤ 2 ^ 31 + 1) : ts.Fits interval := by
  have hlt := interval.isLt
  have hnsec := ts.nsec_lt
  refine ⟨hzero, ?_⟩
  rw [Timespec.packed]
  omega

theorem Timed.exists_oneReap {interval : BitVec 32} {start c : Timespec}
    (hstart : start.Fits interval) (hc : c.Fits interval) (hclock : start.ns ≤ c.ns)
    (hdue : ¬ gethrtime c < gethrtime start + nanosec) : ∃ s : Timed α,
    Runs (Timed.TimelyStep interval) (Timed.init (some 1) 2 start) (comeUp start ++ reapAt c) s ∧
      s.upd.reaping = .done ∧ s.upd.threads 2 = some ⟨.user, .nothing⟩ ∧ s.upd.lock = none ∧
      s.entering = [] ∧ s.clock = c ∧ s.log = [.completed c, .started c] := by
  simp [Runs, TimelyStep, hstart, hc, hclock, hdue, comeUp, reapAt, Timed.step, stepAt, refuses,
    Timed.init, Sys.init, Sys.step, Sys.unlockedStep, Op.thread, Op.isReap, Sys.threadStep,
    Sys.setThread, Sys.outer, Sys.finish, Sys.completes, Sys.updateall, Sys.assert]

/-- A reap is complete at the end of a second, and a call comes half an interval after it, when the
packed clock has passed the whole of it. -/
theorem Timed.exists_unspaced {interval : BitVec 32} (hpos : 0 < interval.toNat) :
    ∃ start es, ∃ s : Timed α,
      Runs (TimelyStep interval) (Timed.init (some 1) 2 start) es s ∧ ¬ Spaced interval s.log := by
  let c : Timespec := ⟨1, 999999999, by decide⟩
  let now : Timespec := ⟨1+(interval.toNat+1)/2, 0, by decide⟩
  have hlt := interval.isLt
  have hcfits : c.Fits interval := Timespec.fits_of_le interval (by decide) (by decide)
  have hfits : now.Fits interval :=
    Timespec.fits_of_le interval (by simp only [now]; omega) (by simp only [now]; omega)
  have hclock : c.ns ≤ now.ns := by
    simp only [Timespec.ns, c, now]
    omega
  let start : Timespec := ⟨0, 0, by decide⟩
  have hstart : start.Fits interval := Timespec.fits_of_le interval (by decide) (by decide)
  obtain ⟨s, hrun, hdone, hthread, hlock, hentering, hsclock, hlog⟩ :=
    Timed.exists_oneReap (α := α) hstart hcfits (by decide) (by decide)
  have htick : s.Ticking interval := Runs.invariant (fun _ _ _ h hs => h.step hs) hrun .init
  have hdue : ¬ gethrtime now < s.reapNext := by
    rw [htick.due_iff (c := c) (by rw [hlog]; rfl) hfits]
    simp only [Timespec.packed, c, now]
    omega
  have hearly : s.step interval (now, .early 2) = _ :=
    step_early hdone hdue hthread (by simp [hentering])
  obtain ⟨s', hlocked, hlog'⟩ := @step_locked α _ interval
    { s with entering := 2 :: s.entering, clock := now } now 2 hdone hdue hthread mem_cons_self hlock
  have hcalls : Runs (TimelyStep interval) s [(now, .early 2), (now, .locked 2)] s' :=
    ⟨_, ⟨hsclock ▸ hclock, hfits, hearly⟩, s', ⟨le_refl _, hfits, hlocked⟩, rfl⟩
  refine ⟨_, _, s', Runs.append.mpr ⟨s, hrun, hcalls⟩, ?_⟩
  intro hspaced
  have hgap := hspaced c c now (by rw [hlog', hlog])
  simp only [Timespec.ns, c, now] at hgap
  omega

/-- The reaps of all runs are an interval apart exactly when the interval is nought; and for every
interval, a call that comes more than it after the last completion is accepted. -/
theorem reaps_throttled (interval : BitVec 32) :
    ((∀ worker main start es, ∀ s : Timed α,
        Runs (Timed.TimelyStep interval) (Timed.init worker main start) es s →
        Spaced interval s.log) ↔ interval = 0) ∧
      ∀ worker main start es, ∀ s : Timed α,
        Runs (Timed.TimelyStep interval) (Timed.init worker main start) es s →
        s.Prompt interval := by
  refine ⟨⟨?_, ?_⟩, ?_⟩
  · intro hspaced
    by_contra hne
    have hpos : 0 < interval.toNat := Nat.pos_of_ne_zero fun h => hne (BitVec.eq_of_toNat_eq h)
    obtain ⟨start, es, s, hrun, hnot⟩ := Timed.exists_unspaced (α := α) hpos
    exact hnot (hspaced _ _ start es s hrun)
  · rintro rfl worker main start es s hrun
    have h : s.Ticking 0 ∧ Spaced 0 s.log := by
      apply Runs.invariant _ hrun
      · exact ⟨.init, by intro a₁ c a₂ hsub; simp [Timed.init] at hsub⟩
      · rintro s e s' ⟨h, hlog⟩ hs
        exact ⟨h.step hs, h.spaced_zero hs hlog⟩
    exact h.2
  · intro worker main start es s hrun
    have htick : s.Ticking interval := Runs.invariant (fun _ _ _ h hs => h.step hs) hrun .init
    exact htick.prompt

/-- One reap after another: the first one at 98 seconds, the second one at `later`. -/
def twoReaps (later : Timespec) : List (Timespec × TimedOp (Fin 1)) :=
  comeUp ⟨97, 0, by decide⟩ ++ reapAt ⟨98, 0, by decide⟩ ++ reapAt later

/-- With an interval of ten seconds, a reap starts three seconds after another one is complete. -/
theorem reaps_not_throttled : ∃ s : Timed (Fin 1),
    Runs (Timed.TimelyStep 10) (Timed.init (some 1) 2 ⟨97, 0, by decide⟩)
      (twoReaps ⟨101, 0, by decide⟩) s ∧ ¬ Spaced 10 s.log := by
  obtain ⟨s, hrun, hs⟩ := exists_runs
    (P := fun s e => s.clock.ns ≤ e.1.ns ∧ e.1.Fits 10) (f := Timed.step 10)
    (Timed.init (some 1) 2 ⟨97, 0, by decide⟩) (twoReaps ⟨101, 0, by decide⟩) Timed.log
    [.completed ⟨101, 0, by decide⟩, .started ⟨101, 0, by decide⟩, .completed ⟨98, 0, by decide⟩,
      .started ⟨98, 0, by decide⟩] (by decide +kernel)
  refine ⟨s, hrun.mono fun _ _ _ h => ⟨h.1.1, h.1.2, h.2⟩, ?_⟩
  intro hspaced
  rw [hs] at hspaced
  have hgap := hspaced ⟨98, 0, by decide⟩ ⟨98, 0, by decide⟩ ⟨101, 0, by decide⟩
    (sublist_cons_self ..)
  exact absurd hgap (by decide)

end Libumem.Update
