import Libumem.Update.Sound

/-!
# Requests for an active cache

The comment in `umem.c` says that the worker will notice an update that is added to an active cache
and act on it before the cache becomes inactive. It does so for work that is not in the flags the
worker took with it: these are cleared when the worker is done, and a request for one of them that
came in the meantime is gone with them.
-/

namespace Libumem.Update
open Option Lib
open Function (update update_self update_of_ne)
variable {α : Type*}

def umuMagazineResize : Uflags := 0x00000001

def umuHashRescale : Uflags := 0x00000002

/-- What a worker can do for a cache. -/
inductive Work
  | magazineResize | hashRescale | reap
  deriving DecidableEq, Repr

def Work.flag : Work → Uflags
  | .magazineResize => umuMagazineResize
  | .hashRescale => umuHashRescale
  | .reap => umuReap

def Work.In (f : Work) (flags : Uflags) : Prop := flags &&& f.flag ≠ 0

instance (f : Work) (flags : Uflags) : Decidable (f.In flags) := inferInstanceAs (Decidable (_ ≠ _))

namespace Work
variable {f : Work} {flags flags' : Uflags}

def bit : Work → Nat
  | .magazineResize => 0
  | .hashRescale => 1
  | .reap => 2

theorem in_iff : f.In flags ↔ flags.getLsbD f.bit = true := by
  have hflag : f.flag = BitVec.twoPow 32 f.bit := by cases f <;> rfl
  have hbit : f.bit<32 := by cases f <;> decide
  rw [In, hflag, BitVec.and_twoPow]
  split
  · rename_i h
    simp only [h, iff_true]
    cases f <;> decide
  · rename_i h
    simp [h]

theorem in_or : f.In (flags ||| flags') ↔ f.In flags ∨ f.In flags' := by
  simp only [in_iff, BitVec.getLsbD_or, Bool.or_eq_true]

theorem in_clear : f.In (flags &&& ~~~flags') ↔ f.In flags ∧ ¬ f.In flags' := by
  have hbit : f.bit<32 := by cases f <;> decide
  simp only [in_iff, getLsbD_clear hbit, Bool.and_eq_true, Bool.not_eq_true', Bool.not_eq_true]

@[simp] theorem not_in_zero : ¬ f.In 0 := by
  cases f <;> decide

@[simp] theorem not_in_active : ¬ f.In umuActive := by
  cases f <;> decide

@[simp] theorem not_in_notify : ¬ f.In umuNotify := by
  cases f <;> decide

theorem In.ne_zero (h : f.In flags) : flags ≠ 0 := by
  rintro rfl
  exact not_in_zero h

end Work

namespace Sys

/-- Thread `t` is in a round of work on the cache, for the flags that it took with it. -/
def Round (s : Sys α) (t : Tid) (cp : α) (uflags : Uflags) : Prop :=
  ∃ th inline notify, s.threads t = some th ∧ th.doing = .working inline cp uflags notify

/-- A step to `s'` starts a round in which the work is done. -/
def Starts (f : Work) (cp : α) (op : Op α) (s' : Sys α) : Prop :=
  ∃ t uflags, (op = .loop t ∨ op = .work t) ∧ s'.Round t cp uflags ∧ f.In uflags

variable [DecidableEq α]

/-- A step in which `umem_remove_updates` returns. -/
def Removes (s : Sys α) (op : Op α) (cp : α) : Prop :=
  ∃ t th, op = .remove t ∧ s.threads t = some th ∧ th.pending = .removing cp ∧
    (s.removeTurn t cp).2 = true

/-- A step that neither starts the work nor takes the cache away. -/
def QuietStep (f : Work) (cp : α) (s : Sys α) (op : Op α) (s' : Sys α) : Prop :=
  s.AllowedStep op s' ∧ ¬ s.Removes op cp ∧ ¬ Starts f cp op s'

/-- The cache does not become inactive before the work on it has started. -/
def WillServe (f : Work) (cp : α) (s : Sys α) : Prop :=
  ∀ ops s', Runs (QuietStep f cp) s ops s' → ¬ s'.Inactive cp

omit [DecidableEq α] in
/-- The work is asked for, and is in no round that is under way. -/
def Owed (f : Work) (cp : α) (s : Sys α) : Prop :=
  f.In (s.uflags cp) ∧ ∀ t uflags, s.Round t cp uflags → ¬ f.In uflags

end Sys

/-- The rounds of `s'` are under way in `s`. -/
def OldRounds (s s' : Sys α) : Prop :=
  ∀ u th', s'.threads u = some th' →
    th'.doing.target = none ∨ ∃ th, s.threads u = some th ∧ th.doing = th'.doing

section
variable {s s' : Sys α} {t : Tid} {th th' : Thread α} {f : Work} {cp : α}

theorem OldRounds.of_eq (h : s'.threads = s.threads) : OldRounds s s' := by
  intro u thu hu
  rw [h] at hu
  exact .inr ⟨thu, hu, rfl⟩

theorem OldRounds.setThread (h : OldRounds s s')
    (ht : th'.doing.target = none ∨ ∃ th, s.threads t = some th ∧ th.doing = th'.doing) :
    OldRounds s (s'.setThread t th') := by
  intro u thu hu
  by_cases hut : u = t
  · subst hut
    simp only [Sys.setThread, update_self, some.injEq] at hu
    subst hu
    exact ht
  · simp only [Sys.setThread, update_of_ne hut] at hu
    exact h u thu hu

theorem OldRounds.round {uflags : Uflags} (h : OldRounds s s') (hr : s'.Round t cp uflags) :
    s.Round t cp uflags := by
  obtain ⟨th', inline, notify, ht, hd⟩ := hr
  rcases h t th' ht with hnone | ⟨th, hth, hdoing⟩
  · simp [hd, Doing.target] at hnone
  · exact ⟨th, inline, notify, hth, hdoing.trans hd⟩

theorem Sys.Owed.keep (ho : s.Owed f cp) (hrounds : OldRounds s s')
    (hflags : f.In (s.uflags cp) → f.In (s'.uflags cp)) : s'.Owed f cp :=
  ⟨hflags ho.1, fun t uflags hr => ho.2 t uflags (hrounds.round hr)⟩

end

/-! ### What keeps a request -/

section
variable [DecidableEq α] {s : Sys α} {f : Work} {cp c : α} {l : List α} {W : α → Prop}

theorem in_setUflags {flags : Uflags} (h : f.In (s.uflags cp))
    (hflags : c = cp → f.In flags) : f.In ((s.setUflags c flags).uflags cp) := by
  by_cases hc : c = cp
  · subst hc
    simpa using hflags rfl
  · simpa [Sys.setUflags, update_of_ne (Ne.symm hc)] using h

theorem Listed.in_addUpdateUnlocked (h : Listed s W l) {flags : Uflags}
    (hf : f.In (s.uflags cp)) : f.In ((s.addUpdateUnlocked c flags).uflags cp) := by
  have hor : ∀ g, c = cp → f.In (s.uflags c ||| g) := by
    rintro g rfl
    exact Work.in_or.mpr (.inl hf)
  unfold Sys.addUpdateUnlocked
  dsimp only
  split
  · exact hf
  split
  · exact in_setUflags hf (hor _)
  rename_i hinactive
  split
  · exact in_setUflags hf (hor _)
  · rename_i hunlinked
    apply in_setUflags hf
    rintro rfl
    -- a cache off the list that is not active has no flags
    exfalso
    cases h.state c with
    | inactive flags off idle =>
      rw [flags] at hf
      exact Work.not_in_zero hf
    | requested asks unmarked quiet on idle => exact hunlinked (h.linked_iff.mpr on)
    | active asks marked off busy => exact hinactive (Update.active_iff.mpr marked)

theorem in_addUpdateUnlocked_self {flags : Uflags} (hf : f.In flags) :
    f.In ((s.addUpdateUnlocked cp flags).uflags cp) := by
  have hclear : f.In (flags &&& ~~~umuActive) := Work.in_clear.mpr ⟨hf, Work.not_in_active⟩
  have hor : ∀ g, f.In (g ||| flags &&& ~~~umuActive) := fun g => Work.in_or.mpr (.inr hclear)
  unfold Sys.addUpdateUnlocked
  dsimp only
  rw [if_neg hclear.ne_zero]
  split
  · simpa using hor _
  split
  · simpa using hor _
  · simpa [Sys.enqueue] using hclear

theorem Listed.in_addAll (h : Listed s W l) {flags : Uflags} (hflags : flags &&& umuNotify = 0)
    (cs : List α) (hf : f.In (s.uflags cp) ∨ f.In flags ∧ cp ∈ cs) :
    f.In ((cs.foldl (fun s c => s.addUpdateUnlocked c flags) s).uflags cp) := by
  induction cs generalizing s l with
  | nil => simpa using hf
  | cons c cs ih =>
    obtain ⟨⟨l', h'⟩, -⟩ := h.addUpdateUnlocked c hflags
    apply ih h'
    rcases hf with hf | ⟨hf, hcp⟩
    · exact .inl (h.in_addUpdateUnlocked hf)
    · rcases List.mem_cons.mp hcp with rfl | hcp
      · exact .inl (in_addUpdateUnlocked_self hf)
      · exact .inr ⟨hf, hcp⟩

theorem in_releaseCache (hf : f.In (s.uflags cp)) : f.In ((s.releaseCache c).uflags cp) := by
  have hclear : ∀ s : Sys α, f.In (s.uflags cp) → ∀ g, ¬ f.In g →
      f.In ((s.setUflags c (s.uflags c &&& ~~~g)).uflags cp) := by
    intro s hf g hg
    apply in_setUflags hf
    rintro rfl
    exact Work.in_clear.mpr ⟨hf, hg⟩
  unfold Sys.releaseCache
  dsimp only
  split_ifs
  · exact hclear _ (hclear _ hf _ Work.not_in_notify) _ Work.not_in_active
  · exact hclear _ hf _ Work.not_in_notify
  · exact hclear _ hf _ Work.not_in_active
  · exact hf

theorem in_releaseCaches (cs : List α) (hf : f.In (s.uflags cp)) :
    f.In ((cs.foldl Sys.releaseCache s).uflags cp) := by
  induction cs generalizing s with
  | nil => exact hf
  | cons c cs ih => exact ih (in_releaseCache hf)

theorem threads_releaseCaches (cs : List α) (s : Sys α) :
    (cs.foldl Sys.releaseCache s).threads = s.threads := by
  induction cs generalizing s with
  | nil => rfl
  | cons c cs ih =>
    rw [List.foldl_cons, ih, Sys.releaseCache]
    dsimp only
    split_ifs <;> rfl

theorem in_removeTurn {t : Tid} (hf : f.In (s.uflags cp))
    (hc : c = cp → (s.removeTurn t c).2 = false) : f.In ((s.removeTurn t c).1.uflags cp) := by
  unfold Sys.removeTurn at hc ⊢
  dsimp only at hc ⊢
  split
  · rename_i hact
    apply in_setUflags hf
    rintro rfl
    exact Work.in_or.mpr (.inl hf)
  · rename_i hact
    rw [if_neg hact] at hc
    split
    · apply in_setUflags hf
      intro hcp
      exact absurd (hc hcp) (by simp)
    · exact hf

end

/-! ### A request that is owed -/

section
variable [DecidableEq α] {s s' : Sys α} {f : Work} {cp : α} {t : Tid} {th : Thread α} {op : Op α}

theorem inner_starts {inline notify : Bool} (hf : f.In (s.uflags cp)) :
    ∃ uflags, (s.inner t inline cp notify).Round t cp uflags ∧ f.In uflags := by
  refine ⟨s.uflags cp ||| umuActive, ?_, Work.in_or.mpr (.inl hf)⟩
  rw [Sys.inner, if_neg hf.ne_zero]
  exact ⟨_, inline, notify, update_self .., rfl⟩

theorem Sys.Owed.inner {c : α} {inline notify : Bool} (ho : s.Owed f cp) (hc : c ≠ cp) :
    (s.inner t inline c notify).Owed f cp := by
  unfold Sys.inner
  split
  · exact ho.keep ((OldRounds.of_eq rfl).setThread (.inl rfl)) id
  · refine ⟨in_setUflags ho.1 (fun h => absurd h hc), ?_⟩
    rintro u uflags ⟨thu, inline', notify', hu, hd⟩
    by_cases hut : u = t
    · subst hut
      simp only [Sys.setThread, update_self, some.injEq] at hu
      subst hu
      simp only [Doing.working.injEq] at hd
      exact absurd hd.2.1 hc
    · simp only [Sys.setThread, update_of_ne hut] at hu
      exact ho.2 u uflags ⟨thu, inline', notify', hu, hd⟩

theorem Sys.Owed.outer {inline : Bool} (ho : s.Owed f cp) :
    (s.outer t inline).Owed f cp ∨ ∃ uflags, (s.outer t inline).Round t cp uflags ∧ f.In uflags := by
  have hfinish : (s.finish t inline).Owed f cp := by
    unfold Sys.finish
    split
    · exact ho.keep ((OldRounds.of_eq rfl).setThread (.inl rfl)) id
    · exact ho.keep ((OldRounds.of_eq rfl).setThread (.inl rfl)) id
  unfold Sys.outer
  split
  · rename_i c hnext
    by_cases hc : c = cp
    · subst hc
      exact .inr (inner_starts ho.1)
    · left
      apply Sys.Owed.inner _ hc
      exact ho.keep (OldRounds.of_eq rfl) id
  · exact .inl hfinish

theorem Sys.Owed.worked {c : α} {inline notify : Bool} {uflags : Uflags} (ho : s.Owed f cp)
    (hr : s.Round t c uflags) :
    (s.worked t inline c uflags notify).Owed f cp ∨
      ∃ uflags', (s.worked t inline c uflags notify).Round t cp uflags' ∧ f.In uflags' := by
  unfold Sys.worked
  dsimp only
  by_cases hc : c = cp
  · subst hc
    right
    apply inner_starts
    have hnot := ho.2 t uflags hr
    rw [uflags_setUflags_self, Work.in_clear]
    refine ⟨ho.1, ?_⟩
    split
    · rw [Work.in_or]
      simpa using hnot
    · exact hnot
  · left
    apply Sys.Owed.inner _ hc
    exact ho.keep (OldRounds.of_eq rfl) fun hf => in_setUflags hf (fun h => absurd h hc)

section

variable (h : Invariant s) (ho : s.Owed f cp)

include h ho

theorem Sys.Owed.threadStep (ht : s.threads t = some th) (hop : op.thread = some t)
    (hs : s.threadStep t th op = some s') (hkeep : ¬ s.Removes op cp) :
    s'.Owed f cp ∨ Sys.Starts f cp op s' := by
  have hsame : ∃ th', s.threads t = some th' ∧ th'.doing = th.doing := ⟨th, ht, rfl⟩
  cases op with
  | enlist c | unlist c | addUpdate c flags | updateall flags | loop v =>
    simp [Sys.threadStep] at hs
  | spawn v u | reap v | inlineRun v | start v | wake v =>
    simp only [Sys.threadStep, ite_none_right_eq_some, some.injEq] at hs
    obtain ⟨-, rfl⟩ := hs
    exact .inl (ho.keep ((OldRounds.of_eq rfl).setThread (.inl rfl)) id)
  | exit v =>
    simp only [Sys.threadStep, ite_none_right_eq_some, some.injEq] at hs
    obtain ⟨-, rfl⟩ := hs
    refine .inl (ho.keep ?_ id)
    intro u thu hu
    by_cases hut : u = t
    · simp [hut] at hu
    · exact .inr ⟨thu, by simpa [hut] using hu, rfl⟩
  | removeUpdates v c =>
    simp only [Sys.threadStep, ite_none_right_eq_some, some.injEq] at hs
    obtain ⟨-, rfl⟩ := hs
    exact .inl (ho.keep ((OldRounds.of_eq rfl).setThread (.inr hsame)) id)
  | remove v =>
    obtain rfl : v = t := some.inj hop
    cases hp : th.pending with
    | removing c =>
      simp only [Sys.threadStep, hp, some.injEq] at hs
      subst hs
      have hf : f.In (s.uflags cp) → f.In ((s.removeTurn v c).1.uflags cp) := by
        intro hf
        apply in_removeTurn hf
        rintro rfl
        exact Bool.eq_false_of_not_eq_true fun hret => hkeep ⟨v, th, rfl, ht, hp, hret⟩
      have hthreads : (s.removeTurn v c).1.threads = s.threads := by
        unfold Sys.removeTurn
        dsimp only
        split
        · rfl
        · split <;> rfl
      left
      split
      · exact ho.keep ((OldRounds.of_eq hthreads).setThread (.inr hsame)) hf
      · exact ho.keep (OldRounds.of_eq hthreads) hf
    | nothing | released c | recreating => simp [Sys.threadStep, hp] at hs
  | reapAdd v =>
    simp only [Sys.threadStep, ite_none_right_eq_some, some.injEq] at hs
    obtain ⟨-, rfl⟩ := hs
    obtain ⟨l, hl⟩ := h.listed
    have hthreads := (hl.updateall (show umuReap &&& umuNotify = 0 by decide)).2.threads
    refine .inl (ho.keep ((OldRounds.of_eq hthreads).setThread (.inl rfl)) fun hf => ?_)
    exact hl.in_addAll (by decide) s.caches (.inl hf)
  | reapRun v single =>
    simp only [Sys.threadStep] at hs
    split_ifs at hs <;> obtain rfl := some.inj hs
    · exact .inl (ho.keep ((OldRounds.of_eq rfl).setThread (.inl rfl)) id)
    · exact .inl (ho.keep ((OldRounds.of_eq rfl).setThread (.inl rfl)) id)
    · exact .inl (ho.keep ((OldRounds.of_eq rfl).setThread (.inl rfl)) id)
  | created v new =>
    cases new with
    | none =>
      simp only [Sys.threadStep] at hs
      split_ifs at hs <;> obtain rfl := some.inj hs
      · exact .inl (ho.keep ((OldRounds.of_eq rfl).setThread (.inl rfl)) id)
      · exact .inl (ho.keep ((OldRounds.of_eq rfl).setThread (.inr hsame)) id)
    | some u =>
      simp only [Sys.threadStep, ite_none_right_eq_some, some.injEq] at hs
      obtain ⟨-, rfl⟩ := hs
      refine .inl (ho.keep (((OldRounds.of_eq rfl).setThread (.inl rfl)).setThread ?_) id)
      split
      · exact .inl rfl
      · exact .inr hsame
  | work v =>
    obtain rfl : v = t := some.inj hop
    simp only [Sys.threadStep] at hs
    split at hs
    · rename_i inline c uflags notify
      cases hs
      rcases ho.worked ⟨_, inline, notify, ht, rfl⟩ with ho' | ⟨uflags', hr, hf⟩
      · exact .inl ho'
      · exact .inr ⟨v, uflags', .inr rfl, hr, hf⟩
    · simp at hs
  | fork v =>
    simp only [Sys.threadStep, ite_none_right_eq_some, some.injEq] at hs
    obtain ⟨-, rfl⟩ := hs
    -- only the thread that forks is there in the child, where it was
    have hold : ∀ p u thu, (if u = t then some ({ th with pending := p } : Thread α) else none) =
        some thu →
        thu.doing.target = none ∨ ∃ th, s.threads u = some th ∧ th.doing = thu.doing := by
      intro p u thu hu
      simp only [ite_none_right_eq_some, some.injEq] at hu
      obtain ⟨rfl, rfl⟩ := hu
      exact .inr hsame
    obtain rfl : v = t := some.inj hop
    left
    unfold Sys.child
    dsimp only
    split
    · refine ho.keep ?_ fun hf => in_releaseCaches _ hf
      intro u thu hu
      rw [threads_releaseCaches] at hu
      exact hold _ u thu hu
    · exact ho.keep (hold _) id
  | release v ready =>
    cases hp : th.pending with
    | released c =>
      simp only [Sys.threadStep, hp, some.injEq] at hs
      subst hs
      exact .inl (ho.keep ((OldRounds.of_eq rfl).setThread (.inr hsame)) id)
    | nothing | removing c | recreating => simp [Sys.threadStep, hp] at hs

theorem Sys.Owed.step (hs : Sys.QuietStep f cp s op s') : s'.Owed f cp := by
  obtain ⟨⟨ha, hs⟩, hkeep, hstart⟩ := hs
  by_cases hloop : ∃ t, op = .loop t
  · obtain ⟨t, rfl⟩ := hloop
    simp only [Sys.step] at hs
    split at hs
    · simp only [ite_none_right_eq_some, some.injEq] at hs
      obtain ⟨-, rfl⟩ := hs
      rcases ho.outer with ho' | ⟨uflags, hr, hf⟩
      · exact ho'
      · exact absurd ⟨t, uflags, .inl rfl, hr, hf⟩ hstart
    · simp at hs
  · have hun : s.unlockedStep op = some s' := by
      cases op <;> simp_all [Sys.step]
    obtain ⟨l, hl⟩ := h.listed
    cases hop : op.thread with
    | none =>
      cases op with
      | enlist c =>
        simp only [Sys.unlockedStep, ite_none_right_eq_some, some.injEq] at hun
        obtain ⟨-, rfl⟩ := hun
        exact ho.keep (OldRounds.of_eq rfl) id
      | unlist c =>
        cases hun
        exact ho.keep (OldRounds.of_eq rfl) id
      | addUpdate c flags =>
        cases hun
        exact ho.keep (OldRounds.of_eq (hl.addUpdateUnlocked c ha).2.threads)
          hl.in_addUpdateUnlocked
      | updateall flags =>
        cases hun
        exact ho.keep (OldRounds.of_eq (hl.updateall ha).2.threads)
          fun hf => hl.in_addAll ha s.caches (.inl hf)
      | _ => simp [Op.thread] at hop
    | some t =>
      have hthread : ∃ th, s.threads t = some th ∧ s.threadStep t th op = some s' := by
        cases op <;> simp_all [Sys.unlockedStep, Op.thread, bind_eq_some_iff]
      obtain ⟨th, ht, hs'⟩ := hthread
      rcases ho.threadStep h ht hop hs' hkeep with ho' | hstarts
      · exact ho'
      · exact absurd hstarts hstart

theorem Sys.Owed.willServe : s.WillServe f cp := by
  intro ops s' hrun hinactive
  have hend : Invariant s' ∧ s'.Owed f cp := by
    apply Runs.invariant _ hrun ⟨h, ho⟩
    rintro s op s' ⟨h, ho⟩ hs
    exact ⟨h.step hs.1.1 hs.1.2, ho.step h hs⟩
  exact hend.2.1.ne_zero hinactive.1

end

/-! ### A request that is lost -/

/-- What is left of the flags of a cache after a round. -/
def Sys.left (s : Sys α) (cp : α) (uflags : Uflags) : Uflags :=
  s.uflags cp &&& ~~~(if s.uflags cp &&& umuNotify ≠ 0 then uflags ||| umuNotify else uflags)

omit [DecidableEq α] in
theorem not_in_left {uflags : Uflags} (hf : f.In uflags) : ¬ f.In (s.left cp uflags) := by
  rw [Sys.left, Work.in_clear]
  rintro ⟨-, hnot⟩
  apply hnot
  split
  · exact Work.in_or.mpr (.inl hf)
  · exact hf

omit [DecidableEq α] in
theorem left_self : s.left cp (s.uflags cp) = 0 := by
  rw [Sys.left]
  split
  · rw [BitVec.not_or, ← BitVec.and_assoc, BitVec.and_not_self]
    exact BitVec.zero_and
  · exact BitVec.and_not_self _

section
variable {inline notify : Bool} {uflags : Uflags}

theorem worked_eq (s : Sys α) (t : Tid) (inline : Bool) (cp : α) (uflags : Uflags) (notify : Bool) :
    s.worked t inline cp uflags notify = (s.setUflags cp (s.left cp uflags)).inner t inline cp
      (notify || decide (s.uflags cp &&& umuNotify ≠ 0)) := by
  unfold Sys.worked Sys.left
  simp only [decide_eq_true_eq]

section
variable (hlock : s.lock = none)
  (ht : s.threads t = some ⟨.working inline cp uflags notify, .nothing⟩)
include hlock ht

theorem work_step : s.AllowedStep (.work t) (s.worked t inline cp uflags notify) := by
  refine ⟨trivial, ?_⟩
  simp [Sys.step, Sys.unlockedStep, Op.thread, Sys.threadStep, hlock, ht]

theorem work_ends (hleft : s.left cp uflags = 0) :
    ∃ s', Sys.QuietStep f cp s (.work t) s' ∧ s'.uflags cp = 0 := by
  have hstep := work_step hlock ht
  rw [worked_eq, Sys.inner, uflags_setUflags_self, if_pos hleft, hleft] at hstep
  refine ⟨_, ⟨hstep, ?_, ?_⟩, by simp [Sys.setThread]⟩
  · rintro ⟨u, th, hop, -⟩
    simp at hop
  · rintro ⟨u, w, hop, ⟨th, i, n, hu, hd⟩, -⟩
    simp only [reduceCtorEq, Op.work.injEq, false_or] at hop
    subst hop
    simp only [Sys.setThread, update_self, some.injEq] at hu
    subst hu
    simp at hd

theorem round_ends (hf : f.In uflags) :
    ∃ ops s', Runs (Sys.QuietStep f cp) s ops s' ∧ s'.uflags cp = 0 := by
  by_cases hleft : s.left cp uflags = 0
  · obtain ⟨s', hs, hflags⟩ := work_ends hlock ht hleft
    exact ⟨[.work t], s', Runs.singleton.mpr hs, hflags⟩
  · have hstep := work_step hlock ht
    rw [worked_eq, Sys.inner, uflags_setUflags_self, if_neg hleft] at hstep
    generalize hs₁ : Sys.setThread _ t _ = s₁ at hstep
    have ht₁ : ∃ n, s₁.threads t =
        some ⟨.working inline cp (s.left cp uflags ||| umuActive) n, .nothing⟩ := by
      subst hs₁
      exact ⟨_, update_self ..⟩
    have hflags₁ : s₁.uflags cp = s.left cp uflags ||| umuActive := by
      subst hs₁
      simp [Sys.setThread, Sys.setUflags]
    have hlock₁ : s₁.lock = none := by
      subst hs₁
      rfl
    obtain ⟨n, ht₁⟩ := ht₁
    have hquiet : Sys.QuietStep f cp s (.work t) s₁ := by
      refine ⟨hstep, ?_, ?_⟩
      · rintro ⟨u, th, hop, -⟩
        simp at hop
      · rintro ⟨u, w, hop, ⟨th, i, n', hu, hd⟩, hw⟩
        simp only [reduceCtorEq, Op.work.injEq, false_or] at hop
        subst hop
        obtain rfl := some.inj (ht₁.symm.trans hu)
        simp only [Doing.working.injEq] at hd
        rw [← hd.2.2.1, Work.in_or] at hw
        rcases hw with hw | hw
        · exact not_in_left hf hw
        · exact Work.not_in_active hw
    have hleft₁ : s₁.left cp (s.left cp uflags ||| umuActive) = 0 := by
      rw [← hflags₁]
      exact left_self
    obtain ⟨s', hs, hflags⟩ := work_ends hlock₁ ht₁ hleft₁
    exact ⟨[.work t, .work t], s', ⟨s₁, hquiet, Runs.singleton.mpr hs⟩, hflags⟩

end

theorem remove_ends (h : Invariant s) (hlock : s.lock = none) {c : α}
    (ht : s.threads t = some ⟨.working inline cp uflags notify, .removing c⟩) :
    ∃ s', Sys.QuietStep f cp s (.remove t) s' ∧ s'.lock = none ∧
      s'.threads t = some ⟨.working inline cp uflags notify, .nothing⟩ := by
  have hne : cp ≠ c := by
    simpa [Doing.target] using (h.kept t _ ht).removing c rfl
  have hinactive : ¬ s.uflags c &&& umuActive ≠ 0 := by
    obtain ⟨l, hl⟩ := h.listed
    rw [hl.active_iff]
    intro hc
    have hother := (h.other_worker ht rfl hc).2
    rcases h.worker ht rfl with hw | hw
    · exact hother.1 hw
    · exact hother.2 hw
  have hreturns : (s.removeTurn t c).2 = true := by
    rw [Sys.removeTurn, if_neg hinactive]
  have hlock' : (s.removeTurn t c).1.lock = none := by
    rw [Sys.removeTurn, if_neg hinactive]
    dsimp only
    split <;> exact hlock
  refine ⟨(s.removeTurn t c).1.setThread t ⟨.working inline cp uflags notify, .nothing⟩,
    ⟨⟨trivial, ?_⟩, ?_, ?_⟩, hlock', update_self ..⟩
  · simp [Sys.step, Sys.unlockedStep, Op.thread, Sys.threadStep, hlock, ht, hreturns]
  · rintro ⟨u, th, hop, hu, hp, -⟩
    obtain rfl := Op.remove.inj hop
    obtain rfl := some.inj (ht.symm.trans hu)
    exact hne (Pending.removing.inj hp).symm
  · rintro ⟨u, w, hop, -⟩
    simp at hop

end

theorem not_willServe {uflags : Uflags} (h : Invariant s) (hlock : s.lock = none)
    (hr : s.Round t cp uflags) (hf : f.In uflags) : ¬ s.WillServe f cp := by
  obtain ⟨⟨doing, pending⟩, inline, notify, ht, rfl⟩ := hr
  have hrun : ∃ ops s', Runs (Sys.QuietStep f cp) s ops s' ∧ s'.uflags cp = 0 := by
    cases pending with
    | nothing => exact round_ends hlock ht hf
    | removing c =>
      obtain ⟨s₁, hs₁, hlock₁, ht₁⟩ := remove_ends h hlock ht
      obtain ⟨ops, s', hrun, hflags⟩ := round_ends hlock₁ ht₁ hf
      exact ⟨.remove t :: ops, s', ⟨s₁, hs₁, hrun⟩, hflags⟩
    | released c =>
      have := ((h.kept t _ ht).alone (.inl ⟨c, rfl⟩)).1
      simp at this
    | recreating =>
      have := ((h.kept t _ ht).alone (.inr rfl)).1
      simp at this
  obtain ⟨ops, s', hrun, hflags⟩ := hrun
  intro hserve
  apply hserve ops s' hrun
  have h' : Invariant s' := by
    apply Runs.invariant _ hrun h
    intro s op s' h hs
    exact h.step hs.1.1 hs.1.2
  rcases h'.sound.states cp with hstate | hstate | hstate
  · exact hstate
  · exact absurd hflags hstate.1
  · exact absurd (by rw [hflags]; rfl) hstate.1

end

/-- A request for work on a cache, by `umem_add_update`, by `umem_updateall` or by `umem_reap`. -/
def Op.Requests (s : Sys α) (f : Work) (cp : α) : Op α → Prop
  | .addUpdate c flags => c = cp ∧ f.In flags
  | .updateall flags => cp ∈ s.caches ∧ f.In flags
  | .reapAdd _ => cp ∈ s.caches ∧ f = .reap
  | _ => False

section
variable [DecidableEq α] {s s' : Sys α} {f : Work} {cp : α} {op : Op α}

theorem Op.Requests.step (h : Invariant s) (hreq : op.Requests s f cp) (hs : s.AllowedStep op s') :
    s'.lock = none ∧ f.In (s'.uflags cp) ∧
      ∀ t uflags, s'.Round t cp uflags ↔ s.Round t cp uflags := by
  obtain ⟨ha, hs⟩ := hs
  obtain ⟨l, hl⟩ := h.listed
  have hrounds : ∀ {s₁ : Sys α}, s₁.threads = s.threads →
      ∀ t uflags, s₁.Round t cp uflags ↔ s.Round t cp uflags := by
    intro s₁ hthreads t uflags
    rw [Sys.Round, Sys.Round, hthreads]
  cases op with
  | addUpdate c flags =>
    obtain ⟨rfl, hf⟩ := hreq
    simp only [Sys.step, Sys.unlockedStep, ite_none_right_eq_some, some.injEq] at hs
    obtain ⟨hlock, rfl⟩ := hs
    have hsame := (hl.addUpdateUnlocked c ha).2
    exact ⟨hsame.lock.trans hlock, in_addUpdateUnlocked_self hf, hrounds hsame.threads⟩
  | updateall flags =>
    obtain ⟨hmem, hf⟩ := hreq
    simp only [Sys.step, Sys.unlockedStep, ite_none_right_eq_some, some.injEq] at hs
    obtain ⟨hlock, rfl⟩ := hs
    have hsame := (hl.updateall ha).2
    exact ⟨hsame.lock.trans hlock, hl.in_addAll ha s.caches (.inr ⟨hf, hmem⟩),
      hrounds hsame.threads⟩
  | reapAdd u =>
    obtain ⟨hmem, rfl⟩ := hreq
    simp only [Sys.step, Sys.unlockedStep, Op.thread, bind_some, ite_none_right_eq_some,
      bind_eq_some_iff, Sys.threadStep, some.injEq] at hs
    obtain ⟨hlock, th, hu, hd, rfl⟩ := hs
    have hflags : umuReap &&& umuNotify = 0 := by decide
    have hsame := (hl.updateall hflags).2
    refine ⟨hsame.lock.trans hlock, hl.in_addAll hflags s.caches (.inr ⟨by decide, hmem⟩), ?_⟩
    intro t uflags
    rw [← hrounds hsame.threads]
    by_cases htu : t = u
    · subst htu
      constructor
      · rintro ⟨th', i, n, ht, hd'⟩
        simp only [Sys.setThread, update_self, some.injEq] at ht
        subst ht
        simp at hd'
      · rintro ⟨th', i, n, ht, hd'⟩
        rw [hsame.threads, hu] at ht
        cases ht
        simp [hd] at hd'
    · simp [Sys.Round, Sys.setThread, update_of_ne htu]
  | _ => exact absurd hreq id

/-- A request for some work is served after it was made exactly when no round with that work in it
is under way. -/
theorem request_served_iff {worker : Option Tid} {main : Tid} (hmain : worker ≠ some main)
    (ops : List (Op α)) (s s' : Sys α) (op : Op α) (f : Work) (cp : α)
    (hrun : Runs Sys.AllowedStep (Sys.init worker main) ops s) (hreq : op.Requests s f cp)
    (hs : s.AllowedStep op s') :
    s'.WillServe f cp ↔ ∀ t uflags, s.Round t cp uflags → ¬ f.In uflags := by
  have h := Invariant.run hmain hrun
  have h' : Invariant s' := h.step hs.1 hs.2
  obtain ⟨hlock, hf, hrounds⟩ := hreq.step h hs
  constructor
  · intro hserve t uflags hr hin
    exact not_willServe h' hlock ((hrounds t uflags).mpr hr) hin hserve
  · intro hnone
    apply Sys.Owed.willServe h'
    exact ⟨hf, fun t uflags hr => hnone t uflags ((hrounds t uflags).mp hr)⟩

end

/-- What there is to see of a state: a worker and the user thread are shown with what they do. -/
structure View where
  caches : List (Fin 2)
  updateThr : Option Tid
  stUpdateThr : Option Tid
  lock : Option Tid
  worker : Option (Thread (Fin 2))
  user : Option (Thread (Fin 2))
  deriving DecidableEq

def Sys.view (t : Tid) (s : Sys (Fin 2)) : View :=
  ⟨s.caches, s.updateThr, s.stUpdateThr, s.lock, s.threads t, s.threads 2⟩

/-- While cache 0 is reaped, a request to rescale its hash table will be served. -/
theorem request_served_at : ∃ s s' : Sys (Fin 2),
    Runs Sys.AllowedStep (Sys.init (some 1) 2) reaping s ∧
    s.AllowedStep (.addUpdate 0 umuHashRescale) s' ∧ s'.WillServe .hashRescale 0 := by
  obtain ⟨s, hrun, hs⟩ := exists_runs (P := fun s op => Op.Allowed s op) (f := Sys.step)
    (Sys.init (some 1) 2 : Sys (Fin 2)) reaping (Sys.view 1)
    ⟨[0], some 1, none, none, some ⟨.working false 0 (umuReap ||| umuActive) false, .nothing⟩,
      some ⟨.user, .nothing⟩⟩
    (by decide +kernel)
  simp only [Sys.view, View.mk.injEq] at hs
  obtain ⟨-, hthr, hst, hlock, ht, -⟩ := hs
  have h := Invariant.run (by decide) hrun
  have hstep : s.AllowedStep (.addUpdate 0 umuHashRescale) (s.addUpdateUnlocked 0 umuHashRescale) :=
    ⟨show umuHashRescale &&& umuNotify = 0 by decide, by simp [Sys.step, Sys.unlockedStep, hlock]⟩
  have hreq : (Op.addUpdate 0 umuHashRescale).Requests s .hashRescale 0 := ⟨rfl, by decide⟩
  refine ⟨s, _, hrun, hstep, ?_⟩
  rw [request_served_iff (by decide) reaping s _ _ .hashRescale 0 hrun hreq hstep]
  rintro t uflags ⟨th, inline, notify, hth, hd⟩
  have hworker := h.worker hth (by rw [hd]; rfl)
  rw [hthr, hst] at hworker
  obtain rfl : 1 = t := by simpa using hworker
  obtain rfl := some.inj (ht.symm.trans hth)
  simp only [Doing.working.injEq] at hd
  rw [← hd.2.2.1]
  decide

/-- A request of `umem_reap` can be lost: cache 0 becomes inactive with no reap after it. -/
theorem request_lost : ∃ s s' : Sys (Fin 2),
    Runs Sys.AllowedStep (Sys.init (some 1) 2) reapingInChild s ∧
    (Op.reapAdd 2).Requests s .reap 0 ∧ s.AllowedStep (.reapAdd 2) s' ∧ ¬ s'.WillServe .reap 0 := by
  obtain ⟨s, hrun, hs⟩ := exists_runs (P := fun s op => Op.Allowed s op) (f := Sys.step)
    (Sys.init (some 1) 2 : Sys (Fin 2)) reapingInChild (Sys.view 3)
    ⟨[0], some 3, none, none, some ⟨.working false 0 (umuReap ||| umuActive) false, .nothing⟩,
      some ⟨.adding, .nothing⟩⟩
    (by decide +kernel)
  simp only [Sys.view, View.mk.injEq] at hs
  obtain ⟨hcaches, -, -, hlock, ht, huser⟩ := hs
  have h := Invariant.run (by decide) hrun
  have hreq : (Op.reapAdd 2).Requests s .reap 0 := ⟨by simp [hcaches], rfl⟩
  have hstep : s.AllowedStep (.reapAdd 2)
      ((s.updateall umuReap).setThread 2 ⟨.added, .nothing⟩) := by
    refine ⟨trivial, ?_⟩
    simp [Sys.step, Sys.unlockedStep, Op.thread, Sys.threadStep, hlock, huser]
  obtain ⟨hlock', -, hrounds⟩ := hreq.step h hstep
  refine ⟨s, _, hrun, hreq, hstep, ?_⟩
  apply not_willServe (h.step hstep.1 hstep.2) hlock'
  · exact (hrounds 3 _).mpr ⟨_, false, false, ht, rfl⟩
  · decide

end Libumem.Update
