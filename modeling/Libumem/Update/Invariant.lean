import Libumem.Update.Lists

/-!
# The update state machine

In every run in which nobody forks from inside an update, and nobody forks while a cache that is
being destroyed is active, every cache is inactive, has work requested or is active with a worker
that is there.
-/

namespace Libumem.Update
open Function Option Lib

/-- What a thread has to do with the updates: nothing, or it reaps, or it creates the update thread
for a reap, or it is a worker of one of the two kinds. -/
inductive Role
  | plain | adding | creating | inliner | updater
  deriving DecidableEq, Repr

/-- How the roles of the threads go with the variables that they share. -/
structure Roles (role : Tid → Option Role) (updateThr stUpdateThr : Option Tid)
    (reaping : Reaping) : Prop where
  updater : ∀ t, role t = some .updater ↔ updateThr = some t
  inliner : ∀ t, role t = some .inliner ↔ stUpdateThr = some t
  exclusive : ∀ t, stUpdateThr = some t → updateThr = none ∧ reaping = .active
  adding : ∀ t, role t = some .adding → reaping = .adding
  creating : ∀ t, role t = some .creating →
    reaping = .active ∧ updateThr = none ∧ stUpdateThr = none
  single : ∀ t t', role t = some .adding ∨ role t = some .creating → role t' = role t → t' = t

namespace Roles
variable {role : Tid → Option Role} {updateThr stUpdateThr : Option Tid} {reaping : Reaping}
  {t u : Tid}

theorem stUpdateThr_eq_none (h : Roles role updateThr stUpdateThr reaping)
    (ht : role t = some .adding ∨ role t = some .creating) : stUpdateThr = none := by
  rcases ht with ht | ht
  · cases hst : stUpdateThr with
    | none => rfl
    | some u =>
      have := (h.exclusive u hst).2
      rw [h.adding t ht] at this
      simp at this
  · exact (h.creating t ht).2.2

theorem reap (h : Roles role updateThr stUpdateThr .done) (ht : role t = some .plain) :
    Roles (update role t (some .adding)) updateThr stUpdateThr .adding := by
  obtain ⟨h1, h2, h3, h4, h5, h6⟩ := h
  constructor <;> grind

theorem reap_wakes (h : Roles role updateThr stUpdateThr reaping) (ht : role t = some .adding)
    (hthr : updateThr ≠ none) :
    Roles (update role t (some .plain)) updateThr stUpdateThr .active := by
  obtain ⟨h1, h2, h3, h4, h5, h6⟩ := h
  constructor <;> grind

theorem reap_creates (h : Roles role none stUpdateThr reaping) (ht : role t = some .adding) :
    Roles (update role t (some .creating)) none stUpdateThr .active := by
  have hst := h.stUpdateThr_eq_none (.inl ht)
  obtain ⟨h1, h2, h3, h4, h5, h6⟩ := h
  constructor <;> grind

theorem stUpdate (h : Roles role none stUpdateThr reaping)
    (ht : role t = some .adding ∨ role t = some .creating) :
    Roles (update role t (some .inliner)) none (some t) .active := by
  obtain ⟨h1, h2, h3, h4, h5, h6⟩ := h
  constructor <;> grind

theorem created (h : Roles role updateThr stUpdateThr reaping) (ht : role t = some .creating)
    (hu : role u = none) :
    Roles (update (update role u (some .updater)) t (some .plain)) (some u)
      stUpdateThr reaping := by
  obtain ⟨h1, h2, h3, h4, h5, h6⟩ := h
  constructor <;> grind

theorem finish_inline (h : Roles role updateThr stUpdateThr reaping) (ht : role t = some .inliner) :
    Roles (update role t (some .plain)) updateThr none .done := by
  obtain ⟨h1, h2, h3, h4, h5, h6⟩ := h
  constructor <;> grind

theorem finish_updater (h : Roles role updateThr stUpdateThr .active)
    (ht : role t = some .updater) : Roles role updateThr stUpdateThr .done := by
  obtain ⟨h1, h2, h3, h4, h5, h6⟩ := h
  constructor <;> grind

theorem spawn (h : Roles role updateThr stUpdateThr reaping) (hu : role u = none) :
    Roles (update role u (some .plain)) updateThr stUpdateThr reaping := by
  obtain ⟨h1, h2, h3, h4, h5, h6⟩ := h
  constructor <;> grind

theorem exit (h : Roles role updateThr stUpdateThr reaping) (ht : role t = some .plain) :
    Roles (update role t none) updateThr stUpdateThr reaping := by
  obtain ⟨h1, h2, h3, h4, h5, h6⟩ := h
  constructor <;> grind

theorem alone : Roles (update (fun _ => none) t (some .plain)) none none .done := by
  constructor <;> grind

theorem alone_created (hu : u ≠ t) :
    Roles (update (update (update (fun _ => none) t (some .plain)) u
      (some .updater)) t (some .plain)) (some u) none .done := by
  constructor <;> grind

end Roles

variable {α : Type*}

def Doing.role : Doing α → Role
  | .user => .plain
  | .adding | .added => .adding
  | .creating => .creating
  | .inlining | .looping true | .working true .. => .inliner
  | .starting | .sleeping | .looping false | .working false .. => .updater

/-- The cache that a thread works on, in the unlocked part of `umem_process_updates`. -/
def Doing.target : Doing α → Option α
  | .working _ cp _ _ => some cp
  | _ => none

def Sys.role (s : Sys α) (t : Tid) : Option Role := (s.threads t).map fun th => th.doing.role

def Sys.target (s : Sys α) (t : Tid) : Option α := (s.threads t).bind fun th => th.doing.target

def Sys.WorkedOn (s : Sys α) (cp : α) : Prop := ∃ t, s.target t = some cp

/-- What a thread keeps for itself. -/
structure Kept (s : Sys α) (t : Tid) (th : Thread α) : Prop where
  looping : ∀ inline, th.doing = .looping inline → s.lock = some t
  marked : ∀ inline cp uf notify, th.doing = .working inline cp uf notify →
    uf.getLsbD 31 = true
  removing : ∀ cp, th.pending = .removing cp → th.doing.target ≠ some cp
  alone : (∃ c, th.pending = .released c) ∨ th.pending = .recreating →
    th.doing = .user ∧ s.updateThr = none ∧ s.stUpdateThr = none ∧ s.reaping = .done ∧
      ∀ u, u ≠ t → s.threads u = none

structure Invariant (s : Sys α) : Prop where
  roles : Roles s.role s.updateThr s.stUpdateThr s.reaping
  kept : ∀ t th, s.threads t = some th → Kept s t th
  listed : ∃ l, Listed s s.WorkedOn l

/-- What the theorem asks of an operation. A fork is not made by a worker, nor while a cache that
is off the list of caches is active; nobody destroys the cache whose callback it runs in; and the
flags that are added ask for work. -/
def Op.Allowed (s : Sys α) : Op α → Prop
  | .addUpdate _ flags | .updateall flags => flags &&& umuNotify = 0
  | .removeUpdates t cp => ∀ th, s.threads t = some th → th.doing.target ≠ some cp
  | .fork t => s.updateThr ≠ some t ∧ s.stUpdateThr ≠ some t ∧
      ∀ cp, cp ∉ s.caches → s.uflags cp &&& umuActive = 0
  | _ => True

variable {s s' : Sys α} {t u : Tid} {th th' : Thread α}

theorem role_eq (ht : s.threads t = some th) : s.role t = some th.doing.role := by
  rw [Sys.role, ht]
  rfl

theorem role_update (h : s'.threads = update s.threads t (some th)) :
    s'.role = update s.role t (some th.doing.role) := by
  funext u
  by_cases hu : u = t
  · subst hu
    simp [Sys.role, h]
  · simp [Sys.role, h, hu]

theorem role_congr (h : s'.threads = s.threads) : s'.role = s.role := by
  funext u
  rw [Sys.role, Sys.role, h]

theorem target_eq (ht : s.threads t = some th) : s.target t = th.doing.target := by
  rw [Sys.target, ht]
  rfl

theorem target_update (h : s'.threads = update s.threads t (some th)) :
    s'.target = update s.target t th.doing.target := by
  funext u
  by_cases hu : u = t
  · subst hu
    simp [Sys.target, h]
  · simp [Sys.target, h, hu]

theorem workedOn_congr (h : s'.target = s.target) : s'.WorkedOn = s.WorkedOn := by
  funext cp
  rw [Sys.WorkedOn, Sys.WorkedOn, h]

theorem workedOn_update (h : s'.threads = update s.threads t (some th))
    (hd : th.doing.target = s.target t) : s'.WorkedOn = s.WorkedOn := by
  apply workedOn_congr
  rw [target_update h, hd, update_eq_self]

theorem workedOn_iff_update (h : s'.threads = update s.threads t (some th)) (cp : α) :
    s'.WorkedOn cp ↔ (∃ u, u ≠ t ∧ s.target u = some cp) ∨ th.doing.target = some cp := by
  rw [Sys.WorkedOn, target_update h]
  constructor
  · rintro ⟨u, hu⟩
    by_cases hut : u = t
    · subst hut
      rw [update_self] at hu
      exact .inr hu
    · rw [update_of_ne hut] at hu
      exact .inl ⟨u, hut, hu⟩
  · rintro (⟨u, hut, hu⟩ | hc)
    · exact ⟨u, by rwa [update_of_ne hut]⟩
    · exact ⟨t, by rwa [update_self]⟩

theorem Kept.other (h : Kept s u th') (ht : s.threads t = some th) (hut : u ≠ t)
    (hlock : s.lock = none ∨ s.lock = some t) (s' : Sys α) : Kept s' u th' where
  looping inline hl := by
    have := h.looping inline hl
    rcases hlock with hlock | hlock
    · simp [hlock] at this
    · rw [hlock] at this
      exact absurd (some.inj this).symm hut
  marked := h.marked
  removing := h.removing
  alone hp := by
    have := (h.alone hp).2.2.2.2 t (Ne.symm hut)
    simp [ht] at this

namespace Invariant

theorem move (h : Invariant s) (ht : s.threads t = some th)
    (hlock : s.lock = none ∨ s.lock = some t)
    (hthreads : s'.threads = update s.threads t (some th'))
    (hroles : Roles (update s.role t (some th'.doing.role)) s'.updateThr s'.stUpdateThr
      s'.reaping)
    (hkept : Kept s' t th') (hlisted : ∃ l, Listed s' s'.WorkedOn l) : Invariant s' where
  roles := by
    rw [role_update hthreads]
    exact hroles
  kept u thu hu := by
    rw [hthreads] at hu
    by_cases hut : u = t
    · subst hut
      rw [update_self] at hu
      cases hu
      exact hkept
    · rw [update_of_ne hut] at hu
      exact (h.kept u thu hu).other ht hut hlock s'
  listed := hlisted

theorem sameThreads (h : Invariant s) (hsame : SameThreads s s')
    (hlisted : ∃ l, Listed s' s.WorkedOn l) : Invariant s' where
  roles := by
    rw [role_congr hsame.threads, hsame.updateThr, hsame.stUpdateThr, hsame.reaping]
    exact h.roles
  kept u thu hu := by
    rw [hsame.threads] at hu
    obtain ⟨h1, h2, h3, h4⟩ := h.kept u thu hu
    refine ⟨?_, h2, h3, ?_⟩
    · rw [hsame.lock]
      exact h1
    · rw [hsame.updateThr, hsame.stUpdateThr, hsame.reaping, hsame.threads]
      exact h4
  listed := by
    have htarget : s'.target = s.target := by
      funext u
      rw [Sys.target, Sys.target, hsame.threads]
    rw [workedOn_congr htarget]
    exact hlisted

section

variable (h : Invariant s) (ht : s.threads t = some th)

include h ht

/-- A thread that keeps its role goes on with the same variables. -/
theorem same_role {d : Doing α} (hrole : d.role = th.doing.role) (s₁ : Sys α)
    (hsame : SameThreads s s₁) :
    Roles (update s.role t (some d.role)) s₁.updateThr s₁.stUpdateThr s₁.reaping := by
  rw [hrole, ← role_eq ht, update_eq_self, hsame.updateThr, hsame.stUpdateThr, hsame.reaping]
  exact h.roles

theorem move_role (hlock : s.lock = none ∨ s.lock = some t) (th' : Thread α)
    (hrole : th'.doing.role = th.doing.role) (htarget : th'.doing.target = th.doing.target)
    (s₁ : Sys α) (hsame : SameThreads s s₁) (k : Option Tid) {l : List α}
    (hlisted : Listed s₁ s.WorkedOn l)
    (hkept : Kept ({ s₁ with lock := k }.setThread t th') t th') :
    Invariant ({ s₁ with lock := k }.setThread t th') := by
  have hthreads : ({ s₁ with lock := k }.setThread t th').threads =
      update s.threads t (some th') := by
    rw [← hsame.threads]
    rfl
  refine h.move ht hlock hthreads ?_ hkept ⟨l, ?_⟩
  · exact h.same_role ht hrole s₁ hsame
  · rw [workedOn_update hthreads (htarget.trans (target_eq ht).symm)]
    exact ⟨hlisted.ring, hlisted.state, hlisted.asserts⟩

theorem worker {cp : α} (hcp : th.doing.target = some cp) :
    s.updateThr = some t ∨ s.stUpdateThr = some t := by
  have hrole := role_eq ht
  cases hd : th.doing with
  | working inline c uf notify =>
    rw [hd] at hrole
    cases inline with
    | false => exact .inl ((h.roles.updater t).mp hrole)
    | true => exact .inr ((h.roles.inliner t).mp hrole)
  | _ => simp [hd, Doing.target] at hcp

end

theorem worker_unique (h : Invariant s) (ht : s.updateThr = some t ∨ s.stUpdateThr = some t)
    (hu : s.updateThr = some u ∨ s.stUpdateThr = some u) : u = t := by
  rcases ht with ht | ht <;> rcases hu with hu | hu
  · exact some.inj (hu.symm.trans ht)
  · have := (h.roles.exclusive u hu).1
    simp [ht] at this
  · have := (h.roles.exclusive t ht).1
    simp [hu] at this
  · exact some.inj (hu.symm.trans ht)

end Invariant

theorem kept_nothing {d : Doing α} (hl : ∀ inline, d = .looping inline → s.lock = some t)
    (hm : ∀ inline cp uf notify, d = .working inline cp uf notify → uf.getLsbD 31 = true) :
    Kept s t ⟨d, .nothing⟩ where
  looping := hl
  marked := hm
  removing cp hp := by simp at hp
  alone hp := by simp at hp

namespace Invariant

theorem change_role (h : Invariant s) (ht : s.threads t = some th)
    (hlock : s.lock = none ∨ s.lock = some t) (hidle : th.doing.target = none) {d : Doing α}
    (hidle' : d.target = none) (hloop : ∀ inline, d ≠ .looping inline) {s' : Sys α}
    (hthreads : s'.threads = update s.threads t (some ⟨d, .nothing⟩))
    (hroles : Roles (update s.role t (some d.role)) s'.updateThr s'.stUpdateThr s'.reaping)
    (hlinks : s'.links = s.links) (huflags : s'.uflags = s.uflags) (hasserts : s'.asserts = true) :
    Invariant s' := by
  obtain ⟨l, hl⟩ := h.listed
  refine h.move ht hlock hthreads hroles (kept_nothing ?_ ?_) ⟨l, ?_⟩
  · intro inline hd
    exact absurd hd (hloop inline)
  · rintro inline cp uf notify rfl
    simp [Doing.target] at hidle'
  · rw [workedOn_update hthreads (by rw [target_eq ht, hidle]; exact hidle')]
    refine ⟨?_, ?_, hasserts⟩
    · rw [hlinks]
      exact hl.ring
    · rw [huflags]
      exact hl.state

theorem asserts (h : Invariant s) : s.asserts = true := by
  obtain ⟨l, hl⟩ := h.listed
  exact hl.asserts

section
variable {cp : α}

theorem callable_cases (h : th.callable = true) :
    th.pending = .nothing ∧ (th.doing = .user ∨ ∃ inline cp uf notify,
      th.doing = .working inline cp uf notify) := by
  obtain ⟨d, p⟩ := th
  cases d <;> cases p <;> simp [Thread.callable] at h ⊢

theorem setCaches (h : Invariant s) (cs : List α) : Invariant { s with caches := cs } := by
  obtain ⟨l, hl⟩ := h.listed
  refine ⟨h.roles, fun v thv hv => ?_, l, hl.ring, hl.state, hl.asserts⟩
  obtain ⟨h1, h2, h3, h4⟩ := h.kept v thv hv
  exact ⟨h1, h2, h3, h4⟩

section
variable (h : Invariant s) (ht : s.threads t = some th)
include h ht

theorem spawn (hp : th.pending = .nothing)
    (hu : s.threads u = none) : Invariant (s.setThread u ⟨.user, .nothing⟩) where
  roles := by
    rw [role_update (s := s) (t := u) rfl]
    apply h.roles.spawn
    rw [Sys.role, hu]
    rfl
  kept v thv hv := by
    by_cases hvu : v = u
    · subst hvu
      simp only [Sys.setThread, update_self, some.injEq] at hv
      subst hv
      exact kept_nothing (by simp) (by simp)
    · simp only [Sys.setThread, update_of_ne hvu] at hv
      obtain ⟨h1, h2, h3, h4⟩ := h.kept v thv hv
      refine ⟨h1, h2, h3, fun hcall => ?_⟩
      -- a thread that is alone is not the one that creates another
      by_cases hvt : v = t
      · subst hvt
        rw [ht] at hv
        cases hv
        simp [hp] at hcall
      · have := (h4 hcall).2.2.2.2 t (Ne.symm hvt)
        simp [ht] at this
  listed := by
    obtain ⟨l, hl⟩ := h.listed
    have hW : (s.setThread u ⟨.user, .nothing⟩).WorkedOn = s.WorkedOn := by
      apply workedOn_update rfl
      rw [Sys.target, hu]
      rfl
    rw [hW]
    exact ⟨l, hl.ring, hl.state, hl.asserts⟩

theorem exit (hd : th.doing = .user) : Invariant { s with threads := update s.threads t none } where
  roles := by
    have hrole : ({ s with threads := update s.threads t none } : Sys α).role =
        update s.role t none := by
      funext u
      by_cases hu : u = t
      · subst hu
        simp [Sys.role]
      · simp [Sys.role, hu]
    rw [hrole]
    apply h.roles.exit
    rw [role_eq ht, hd]
    rfl
  kept v thv hv := by
    have hvt : v ≠ t := by
      rintro rfl
      simp at hv
    simp only [update_of_ne hvt] at hv
    obtain ⟨h1, h2, h3, h4⟩ := h.kept v thv hv
    refine ⟨h1, h2, h3, fun hcall => ?_⟩
    have := (h4 hcall).2.2.2.2 t (Ne.symm hvt)
    simp [ht] at this
  listed := by
    obtain ⟨l, hl⟩ := h.listed
    have htarget : ({ s with threads := update s.threads t none } : Sys α).target =
        s.target := by
      funext u
      by_cases hu : u = t
      · subst hu
        rw [target_eq ht, hd]
        simp [Sys.target, Doing.target]
      · simp [Sys.target, hu]
    rw [workedOn_congr htarget]
    exact ⟨l, hl.ring, hl.state, hl.asserts⟩

theorem other_worker (hp : th.pending = .removing cp)
    (hcp : s.WorkedOn cp) : (s.updateThr ≠ none ∨ s.stUpdateThr ≠ none) ∧
      s.updateThr ≠ some t ∧ s.stUpdateThr ≠ some t := by
  obtain ⟨u, hu⟩ := hcp
  obtain ⟨thu, hthu, hcp⟩ := bind_eq_some_iff.mp hu
  have hw := h.worker hthu hcp
  have hne : u ≠ t := by
    rintro rfl
    rw [ht] at hthu
    cases hthu
    exact (h.kept u th ht).removing cp hp hcp
  refine ⟨?_, ?_, ?_⟩
  · rcases hw with hw | hw
    · exact .inl (by simp [hw])
    · exact .inr (by simp [hw])
  · exact fun ht' => hne (h.worker_unique (.inl ht') hw)
  · exact fun ht' => hne (h.worker_unique (.inr ht') hw)

theorem workedOn_iff (hd : th.doing.target = some cp) (c : α) : s.WorkedOn c ↔ c = cp := by
  constructor
  · rintro ⟨u, hu⟩
    obtain ⟨thu, hthu, hc⟩ := bind_eq_some_iff.mp hu
    obtain rfl := h.worker_unique (h.worker ht hd) (h.worker hthu hc)
    rw [ht] at hthu
    cases hthu
    exact some.inj (hc.symm.trans hd)
  · rintro rfl
    exact ⟨t, (target_eq ht).trans hd⟩

section
variable (hlock : s.lock = none)
include hlock

theorem removeUpdates (hcp : th.doing.target ≠ some cp) :
    Invariant (s.setThread t { th with pending := .removing cp }) := by
  obtain ⟨l, hl⟩ := h.listed
  have hk := h.kept t th ht
  refine h.move_role ht (.inl hlock) { th with pending := .removing cp } rfl rfl s (.refl s) s.lock
    hl ⟨hk.looping, hk.marked, ?_, ?_⟩
  · intro c hc
    obtain rfl := Pending.removing.inj hc
    exact hcp
  · intro hp
    simp at hp

theorem reap (hd : th.doing = .user) (hr : s.reaping = .done) :
    Invariant ({ s with reaping := .adding }.setThread t ⟨.adding, .nothing⟩) := by
  have hrole : s.role t = some .plain := by rw [role_eq ht, hd]; rfl
  have hroles := h.roles
  rw [hr] at hroles
  exact h.change_role ht (.inl hlock) (by rw [hd]; rfl) rfl (by simp) rfl (hroles.reap hrole) rfl rfl
    h.asserts

theorem stUpdate (hd : th.doing = .added ∨ th.doing = .creating) (hthr : s.updateThr = none)
    (s₁ : Sys α) (hr : s₁ = { s with reaping := .active, asserts := true }) :
    Invariant (s₁.stUpdate t) := by
  have hrole : s.role t = some .adding ∨ s.role t = some .creating := by
    rw [role_eq ht]
    rcases hd with hd | hd
    · exact .inl (by rw [hd]; rfl)
    · exact .inr (by rw [hd]; rfl)
  have hst := h.roles.stUpdateThr_eq_none hrole
  have hroles := h.roles
  rw [hthr] at hroles
  subst hr
  refine h.change_role ht (.inl hlock) ?_ (d := .inlining) rfl (by simp) rfl ?_ rfl rfl ?_
  · rcases hd with hd | hd <;> rw [hd] <;> rfl
  · exact hthr ▸ hroles.stUpdate hrole
  · simp [Sys.stUpdate, Sys.assert, Sys.setThread, hthr, hst]

theorem startLoop {inline : Bool} (hrole : th.doing.role = (Doing.looping inline : Doing α).role)
    (htarget : th.doing.target = none) (s₁ : Sys α) (hsame : SameThreads s s₁)
    (hlinks : s₁.links = s.links) (huflags : s₁.uflags = s.uflags) (hasserts : s₁.asserts = true) :
    Invariant ({ s₁ with lock := some t }.setThread t ⟨.looping inline, .nothing⟩) := by
  obtain ⟨l, hl⟩ := h.listed
  refine h.move_role ht (.inl hlock) ⟨.looping inline, .nothing⟩ hrole.symm htarget.symm s₁ hsame
    (some t) (l := l) ?_ (kept_nothing (fun _ _ => rfl) (by simp))
  refine ⟨?_, ?_, hasserts⟩
  · rw [hlinks]
    exact hl.ring
  · rw [huflags]
    exact hl.state

theorem release {c : Bool} (hp : th.pending = .released c) {p : Pending α}
    (hp' : p = .recreating ∨ p = .nothing) :
    Invariant (s.setThread t { th with pending := p }) := by
  obtain ⟨l, hl⟩ := h.listed
  have hk := h.kept t th ht
  refine h.move_role ht (.inl hlock) { th with pending := p } rfl rfl s (.refl s) s.lock hl
    ⟨hk.looping, hk.marked, ?_, ?_⟩
  · rcases hp' with rfl | rfl <;> simp
  · intro _
    obtain ⟨h1, h2, h3, h4, h5⟩ := hk.alone (.inl ⟨c, hp⟩)
    refine ⟨h1, h2, h3, h4, ?_⟩
    intro u hu
    simpa [Sys.setThread, hu] using h5 u hu

end

section
variable (hlock : s.lock = some t) {inline : Bool} (hd : th.doing = .looping inline)
include hlock hd

theorem finish : Invariant (s.finish t inline) := by
  unfold Sys.finish
  cases inline with
  | true =>
    have hrole : s.role t = some .inliner := by rw [role_eq ht, hd]; rfl
    exact h.change_role ht (.inr hlock) (by rw [hd]; rfl) rfl (by simp) rfl
      (h.roles.finish_inline hrole) rfl rfl h.asserts
  | false =>
    have hrole : s.role t = some .updater := by rw [role_eq ht, hd]; rfl
    refine h.change_role ht (.inr hlock) (by rw [hd]; rfl) (d := .sleeping) rfl (by simp) rfl ?_
      rfl rfl h.asserts
    have hself : update s.role t (some (Doing.sleeping : Doing α).role) = s.role := by
      rw [update_eq_self_iff, hrole]
      rfl
    rw [hself]
    change Roles s.role s.updateThr s.stUpdateThr
      (if s.reaping = .active then .done else s.reaping)
    split
    · rename_i hr
      have hroles := h.roles
      rw [hr] at hroles
      exact hroles.finish_updater hrole
    · exact h.roles

theorem takes {uf : Uflags} (huf : uf.getLsbD 31 = true) (s₁ : Sys α) (hsame : SameThreads s s₁)
    {l : List α} (hl : Listed s₁ (fun c => s.WorkedOn c ∨ c = cp) l) :
    Invariant ({ s₁ with lock := none }.setThread t ⟨.working inline cp uf false, .nothing⟩) := by
  have hthreads : ({ s₁ with lock := none }.setThread t
      ⟨.working inline cp uf false, .nothing⟩).threads =
      update s.threads t (some ⟨.working inline cp uf false, .nothing⟩) := by
    rw [← hsame.threads]
    rfl
  refine h.move ht (.inr hlock) hthreads ?_ (kept_nothing (by simp) ?_) ⟨l, ?_⟩
  · exact h.same_role ht (by rw [hd]; cases inline <;> rfl) s₁ hsame
  · intro i c uf' n heq
    obtain ⟨-, -, rfl, -⟩ := Doing.working.inj heq
    exact huf
  · have hW : ({ s₁ with lock := none }.setThread t
        ⟨.working inline cp uf false, .nothing⟩).WorkedOn = fun c => s.WorkedOn c ∨ c = cp := by
      have hnone : s.target t = none := by rw [target_eq ht, hd]; rfl
      funext c
      apply propext
      rw [workedOn_iff_update hthreads]
      constructor
      · rintro (⟨u, -, hu⟩ | hc)
        · exact .inl ⟨u, hu⟩
        · exact .inr (some.inj hc).symm
      · rintro (⟨u, hu⟩ | rfl)
        · refine .inl ⟨u, ?_, hu⟩
          rintro rfl
          simp [hnone] at hu
        · exact .inr rfl
    rw [hW]
    exact ⟨hl.ring, hl.state, hl.asserts⟩

end
end

variable [DecidableEq α]

theorem addUpdateUnlocked (h : Invariant s) {flags : Uflags} (hflags : flags &&& umuNotify = 0) :
    Invariant (s.addUpdateUnlocked cp flags) := by
  obtain ⟨l, hl⟩ := h.listed
  obtain ⟨hlisted, hsame⟩ := hl.addUpdateUnlocked cp hflags
  exact h.sameThreads hsame hlisted

theorem updateall (h : Invariant s) {flags : Uflags} (hflags : flags &&& umuNotify = 0) :
    Invariant (s.updateall flags) ∧ SameThreads s (s.updateall flags) := by
  obtain ⟨l, hl⟩ := h.listed
  obtain ⟨hlisted, hsame⟩ := hl.updateall hflags
  exact ⟨h.sameThreads hsame hlisted, hsame⟩

section
variable (h : Invariant s) (ht : s.threads t = some th)
include h ht

theorem fork (hcall : th.callable = true)
    (ha : (Op.fork t : Op α).Allowed s) : Invariant (s.child t th) := by
  obtain ⟨hupd, hst, hout⟩ := ha
  obtain ⟨l, hl⟩ := h.listed
  -- the thread runs user code: a callback runs in a worker
  have huser : th.doing = .user := by
    rcases (callable_cases hcall).2 with hd | ⟨i, c, uf, n, hd⟩
    · exact hd
    · have hc : th.doing.target = some c := by rw [hd]; rfl
      rcases h.worker ht hc with hw | hw
      · exact absurd hw hupd
      · exact absurd hw hst
  have hclean : decide (s.updateThr ≠ some t ∨ s.stUpdateThr ≠ some t) = true :=
    decide_eq_true (.inl hupd)
  unfold Sys.child
  dsimp only
  rw [hclean, if_pos rfl, if_pos hupd, if_pos hst]
  generalize hs₁ : ({ s with
    updateThr := none
    stUpdateThr := none
    threads := fun u => if u = t then some { th with pending := .released true } else none
    reaping := .done } : Sys α) = s₁
  have hl₁ : Listed s₁ s.WorkedOn l := by
    subst hs₁
    exact ⟨hl.ring, hl.state, hl.asserts⟩
  obtain ⟨⟨l', hl'⟩, hsame⟩ := hl₁.releaseCaches s.caches
  have hthreads : (s.caches.foldl Sys.releaseCache s₁).threads =
      fun u => if u = t then some { th with pending := .released true } else none := by
    rw [hsame.threads, ← hs₁]
  have hrole : (s.caches.foldl Sys.releaseCache s₁).role =
      update (fun _ => none) t (some .plain) := by
    funext v
    rw [Sys.role, hthreads]
    by_cases hv : v = t
    · subst hv
      simp [huser, Doing.role]
    · simp [hv]
  have hglobals : s₁.updateThr = none ∧ s₁.stUpdateThr = none ∧ s₁.reaping = .done := by
    subst hs₁
    exact ⟨rfl, rfl, rfl⟩
  obtain ⟨g1, g2, g3⟩ := hglobals
  rw [← hsame.updateThr] at g1
  rw [← hsame.stUpdateThr] at g2
  rw [← hsame.reaping] at g3
  refine ⟨?_, ?_, l', ?_⟩
  · rw [hrole, g1, g2, g3]
    exact Roles.alone
  · intro v thv hv
    rw [hthreads] at hv
    by_cases hvt : v = t
    · subst hvt
      simp only [if_true, some.injEq] at hv
      subst hv
      refine ⟨by simp [huser], by simp [huser], by simp, fun _ => ⟨huser, g1, g2, g3, ?_⟩⟩
      intro w hw
      simp [hthreads, hw]
    · simp [hvt] at hv
  · -- whatever was worked on was on the list of caches, and is requested again
    have hW : (s.caches.foldl Sys.releaseCache s₁).WorkedOn =
        fun c => s.WorkedOn c ∧ c ∉ s.caches := by
      funext c
      apply propext
      constructor
      · rintro ⟨v, hv⟩
        rw [Sys.target, hthreads] at hv
        by_cases hvt : v = t
        · subst hvt
          simp [huser, Doing.target] at hv
        · simp [hvt] at hv
      · rintro ⟨hw, hc⟩
        exact absurd (hout c hc) (hl.active_iff.mpr hw)
    rw [hW]
    exact hl'

theorem loop (hlock : s.lock = some t) {inline : Bool} (hd : th.doing = .looping inline) :
    Invariant (s.outer t inline) := by
  obtain ⟨l, hl⟩ := h.listed
  rcases hl.outer t inline with ⟨-, heq⟩ | ⟨c, uf, s₁, l', -, huf, hsame, hl', heq⟩
  · rw [heq]
    exact h.finish ht hlock hd
  · rw [heq]
    exact h.takes ht hlock hd huf s₁ hsame hl'

variable (hlock : s.lock = none)
include hlock

theorem remove (hp : th.pending = .removing cp) :
    Invariant (if (s.removeTurn t cp).2 then
      (s.removeTurn t cp).1.setThread t { th with pending := .nothing }
      else (s.removeTurn t cp).1) := by
  obtain ⟨l, hl⟩ := h.listed
  have hk := h.kept t th ht
  obtain ⟨l', hl', hsame, -⟩ := hl.removeTurn (h.other_worker ht hp)
  split
  · exact h.move_role ht (.inl hlock) { th with pending := .nothing } rfl rfl _ hsame
      (s.removeTurn t cp).1.lock hl'
      (kept_nothing (fun i hi => hsame.lock.trans (hk.looping i hi)) hk.marked)
  · exact h.sameThreads hsame ⟨l', hl'⟩

theorem reapAdd (hd : th.doing = .adding) :
    Invariant ((s.updateall umuReap).setThread t ⟨.added, .nothing⟩) := by
  obtain ⟨l, hl⟩ := h.listed
  obtain ⟨⟨l', hl'⟩, hsame⟩ := hl.updateall (by decide : umuReap &&& umuNotify = 0)
  refine h.move_role ht (.inl hlock) ⟨.added, .nothing⟩ ?_ ?_ _ hsame (s.updateall umuReap).lock hl'
    (kept_nothing (by simp) (by simp))
  · rw [hd]
    rfl
  · rw [hd]
    rfl

theorem reapRun (hd : th.doing = .added) (single : Bool)
    (hs : s.threadStep t th (.reapRun t single) = some s') : Invariant s' := by
  have hrole : s.role t = some .adding := by rw [role_eq ht, hd]; rfl
  have hst := h.roles.stUpdateThr_eq_none (.inl hrole)
  simp only [Sys.threadStep, hd, if_true] at hs
  by_cases hthr : s.updateThr = none
  · rw [if_pos hthr] at hs
    cases hs
    have hasserts : ({ s with reaping := .active } : Sys α).assert (decide (s.stUpdateThr = none)) =
        { s with reaping := .active, asserts := true } := by
      simp [Sys.assert, h.asserts, hst]
    rw [hasserts]
    cases single with
    | true => exact h.stUpdate ht hlock (.inl hd) hthr _ rfl
    | false =>
      have hroles := h.roles
      rw [hthr] at hroles
      exact h.change_role ht (.inl hlock) (by rw [hd]; rfl) rfl (by simp) rfl
        (hthr ▸ hroles.reap_creates hrole) rfl rfl rfl
  · rw [if_neg hthr] at hs
    cases hs
    exact h.change_role ht (.inl hlock) (by rw [hd]; rfl) rfl (by simp) rfl
      (h.roles.reap_wakes hrole hthr) rfl rfl h.asserts

/-- What a thread does after `pthread_create`: the new thread is told its role. -/
theorem created (hd : th.doing = .creating ∨ th.pending = .recreating) (hu : s.threads u = none) :
    Invariant (({ s.assert (decide (s.updateThr = none)) with updateThr := some u }.setThread u
      ⟨.starting, .nothing⟩).setThread t
        ⟨if th.doing = Doing.creating then .user else th.doing, .nothing⟩) := by
  obtain ⟨l, hl⟩ := h.listed
  have hk := h.kept t th ht
  have hut : u ≠ t := by
    rintro rfl
    simp [ht] at hu
  -- the creator is a plain thread afterwards, and there was no update thread before
  have hthr : s.updateThr = none := by
    rcases hd with hd | hd
    · exact (h.roles.creating t (by rw [role_eq ht, hd]; rfl)).2.1
    · exact (hk.alone (.inr hd)).2.1
  have huser : (if th.doing = Doing.creating then .user else th.doing) = (Doing.user : Doing α) := by
    rcases hd with hd | hd
    · rw [if_pos hd]
    · rw [(hk.alone (.inr hd)).1]
      rfl
  have hidle : th.doing.target = none := by
    rcases hd with hd | hd
    · rw [hd]
      rfl
    · rw [(hk.alone (.inr hd)).1]
      rfl
  rw [huser]
  generalize hs₁ : ({ s.assert (decide (s.updateThr = none)) with updateThr := some u } : Sys α) = s₁
  have hsame : s₁.threads = s.threads := by rw [← hs₁]; rfl
  refine ⟨?_, ?_, l, ?_⟩
  · rw [role_update (s := s₁.setThread u ⟨.starting, .nothing⟩) (t := t) rfl,
      role_update (s := s₁) (t := u) rfl, role_congr hsame]
    subst hs₁
    rcases hd with hd | hd
    · apply h.roles.created (by rw [role_eq ht, hd]; rfl)
      rw [Sys.role, hu]
      rfl
    · obtain ⟨hplain, -, hst, hr, hothers⟩ := hk.alone (.inr hd)
      have hrole : s.role = update (fun _ => none) t (some .plain) := by
        funext v
        by_cases hv : v = t
        · subst hv
          rw [role_eq ht, hplain, update_self]
          rfl
        · rw [update_of_ne hv, Sys.role, hothers v hv]
          rfl
      rw [hrole]
      change Roles _ (some u) s.stUpdateThr s.reaping
      rw [hst, hr]
      exact Roles.alone_created hut
  · intro v thv hv
    by_cases hvt : v = t
    · subst hvt
      simp only [Sys.setThread, update_self, some.injEq] at hv
      subst hv
      exact kept_nothing (by simp) (by simp)
    by_cases hvu : v = u
    · subst hvu
      simp only [Sys.setThread, update_of_ne hvt, update_self, some.injEq] at hv
      subst hv
      exact kept_nothing (by simp) (by simp)
    · simp only [Sys.setThread, update_of_ne hvt, update_of_ne hvu, hsame] at hv
      exact (h.kept v thv hv).other ht hvt (.inl hlock) _
  · have hW : ((s₁.setThread u ⟨.starting, .nothing⟩).setThread t
        ⟨.user, .nothing⟩).WorkedOn = s.WorkedOn := by
      apply workedOn_congr
      rw [target_update (s := s₁.setThread u ⟨.starting, .nothing⟩) (t := t) rfl,
        target_update (s := s₁) (t := u) rfl]
      funext v
      by_cases hvt : v = t
      · subst hvt
        rw [update_self, target_eq ht, hidle]
        rfl
      · rw [update_of_ne hvt]
        by_cases hvu : v = u
        · subst hvu
          rw [update_self, Sys.target, hu]
          rfl
        · rw [update_of_ne hvu, Sys.target, Sys.target, hsame]
    rw [hW]
    subst hs₁
    refine ⟨hl.ring, hl.state, ?_⟩
    simp [Sys.setThread, Sys.assert, hl.asserts, hthr]

end

theorem work (h : Invariant s) {inline notify : Bool} {uf : Uflags}
    (ht : s.threads t = some ⟨.working inline cp uf notify, .nothing⟩) (hlock : s.lock = none) :
    Invariant (s.worked t inline cp uf notify) := by
  obtain ⟨l, hl⟩ := h.listed
  have hW := h.workedOn_iff ht rfl
  have huf := (h.kept t _ ht).marked _ _ _ _ rfl
  obtain ⟨s₁, hsame, hcases⟩ := hl.worked ((hW cp).mpr rfl) t inline notify huf
  rcases hcases with ⟨hl', heq⟩ | ⟨uf', notify', huf', hl', heq⟩
  · -- the cache becomes inactive, and nobody works on any cache
    rw [heq]
    have hthreads : ({ s₁ with lock := some t }.setThread t ⟨.looping inline, .nothing⟩).threads =
        update s.threads t (some ⟨.looping inline, .nothing⟩) := by
      rw [← hsame.threads]
      rfl
    refine h.move ht (.inl hlock) hthreads ?_ (kept_nothing (fun _ _ => rfl) (by simp)) ⟨l, ?_⟩
    · exact h.same_role ht (by cases inline <;> rfl) s₁ hsame
    · have hW' : ({ s₁ with lock := some t }.setThread t ⟨.looping inline, .nothing⟩).WorkedOn =
          fun c => s.WorkedOn c ∧ c ≠ cp := by
        funext c
        apply propext
        rw [workedOn_iff_update hthreads, hW c]
        constructor
        · rintro (⟨u, hut, hu⟩ | hc)
          · obtain ⟨thu, hthu, hc⟩ := bind_eq_some_iff.mp hu
            exact absurd (h.worker_unique (h.worker ht rfl) (h.worker hthu hc)) hut
          · cases hc
        · rintro ⟨hc, hne⟩
          exact absurd hc hne
      rw [hW']
      exact ⟨hl'.ring, hl'.state, hl'.asserts⟩
  · rw [heq]
    refine h.move_role ht (.inl hlock)
      ⟨.working inline cp uf' notify', .nothing⟩ ?_ rfl s₁ hsame none
      hl' (kept_nothing (by simp) ?_)
    · cases inline <;> rfl
    · intro i c f n heq
      obtain ⟨-, -, rfl, -⟩ := Doing.working.inj heq
      exact huf'

/-- What a thread does without holding the lock from one step to the next. -/
theorem threadStep (h : Invariant s) (hlock : s.lock = none) (ht : s.threads t = some th)
    {op : Op α} (ha : op.Allowed s) (hop : op.thread = some t)
    (hs : s.threadStep t th op = some s') : Invariant s' := by
  cases op with
  | enlist c | unlist c | addUpdate c flags | updateall flags | loop v =>
    simp [Sys.threadStep] at hs
  | spawn v u =>
    simp only [Sys.threadStep, ite_none_right_eq_some, some.injEq] at hs
    obtain ⟨⟨hcall, hu⟩, rfl⟩ := hs
    exact h.spawn ht (callable_cases hcall).1 hu
  | exit v =>
    simp only [Sys.threadStep, ite_none_right_eq_some, some.injEq] at hs
    obtain ⟨⟨hd, -⟩, rfl⟩ := hs
    exact h.exit ht hd
  | removeUpdates v c =>
    simp only [Sys.threadStep, ite_none_right_eq_some, some.injEq] at hs
    obtain ⟨-, rfl⟩ := hs
    cases hop
    exact h.removeUpdates ht hlock (ha th ht)
  | remove v =>
    cases hp : th.pending with
    | removing c =>
      simp only [Sys.threadStep, hp, some.injEq] at hs
      subst hs
      exact h.remove ht hlock hp
    | nothing | released c | recreating => simp [Sys.threadStep, hp] at hs
  | reap v =>
    simp only [Sys.threadStep, ite_none_right_eq_some, some.injEq] at hs
    obtain ⟨⟨hd, -, hr⟩, rfl⟩ := hs
    exact h.reap ht hlock hd hr
  | reapAdd v =>
    simp only [Sys.threadStep, ite_none_right_eq_some, some.injEq] at hs
    obtain ⟨hd, rfl⟩ := hs
    exact h.reapAdd ht hlock hd
  | reapRun v single =>
    have hd : th.doing = .added := by
      by_contra hd
      simp [Sys.threadStep, hd] at hs
    exact h.reapRun ht hlock hd single hs
  | created v new =>
    cases new with
    | none =>
      simp only [Sys.threadStep] at hs
      split at hs
      · rename_i hd
        cases hs
        have hc := h.roles.creating t (by rw [role_eq ht, hd]; rfl)
        apply h.stUpdate ht hlock (.inr hd) hc.2.1
        rw [← hc.1, ← h.asserts]
      · simp only [ite_none_right_eq_some, some.injEq] at hs
        obtain ⟨hp, rfl⟩ := hs
        obtain ⟨l, hl⟩ := h.listed
        have hk := h.kept t th ht
        exact h.move_role ht (.inl hlock) { th with pending := .nothing } rfl rfl s (.refl s) s.lock
          hl (kept_nothing hk.looping hk.marked)
    | some u =>
      simp only [Sys.threadStep, ite_none_right_eq_some, some.injEq] at hs
      obtain ⟨⟨hd, hu⟩, rfl⟩ := hs
      exact h.created ht hlock hd hu
  | inlineRun v | wake v =>
    simp only [Sys.threadStep, ite_none_right_eq_some, some.injEq] at hs
    obtain ⟨hd, rfl⟩ := hs
    exact h.startLoop ht hlock (by rw [hd]; rfl) (by rw [hd]; rfl) s (.refl s) rfl rfl h.asserts
  | start v =>
    simp only [Sys.threadStep, ite_none_right_eq_some, some.injEq] at hs
    obtain ⟨hd, rfl⟩ := hs
    have hthr : s.updateThr = some t := (h.roles.updater t).mp (by rw [role_eq ht, hd]; rfl)
    have hst : s.stUpdateThr = none := by
      cases hst : s.stUpdateThr with
      | none => rfl
      | some u =>
        have := (h.roles.exclusive u hst).1
        simp [hthr] at this
    refine h.startLoop ht hlock (by rw [hd]; rfl) (by rw [hd]; rfl)
      (s.assert (decide (s.updateThr = some t ∧ s.stUpdateThr = none)))
      ⟨rfl, rfl, rfl, rfl, rfl, rfl⟩ rfl rfl ?_
    simp [Sys.assert, h.asserts, hthr, hst]
  | work v =>
    simp only [Sys.threadStep] at hs
    split at hs
    · cases hs
      exact h.work ht hlock
    · simp at hs
  | fork v =>
    simp only [Sys.threadStep, ite_none_right_eq_some, some.injEq] at hs
    obtain ⟨hcall, rfl⟩ := hs
    cases hop
    exact h.fork ht hcall ha
  | release v ready =>
    cases hp : th.pending with
    | released c =>
      simp only [Sys.threadStep, hp, some.injEq] at hs
      subst hs
      apply h.release ht hlock hp
      split
      · exact .inl rfl
      · exact .inr rfl
    | nothing | removing c | recreating => simp [Sys.threadStep, hp] at hs

theorem step (h : Invariant s) {op : Op α} (ha : op.Allowed s) (hs : s.step op = some s') :
    Invariant s' := by
  by_cases hloop : ∃ t, op = .loop t
  · obtain ⟨t, rfl⟩ := hloop
    simp only [Sys.step] at hs
    split at hs
    · rename_i inline p ht
      simp only [ite_none_right_eq_some, some.injEq] at hs
      obtain ⟨hlock, rfl⟩ := hs
      exact h.loop ht hlock rfl
    · simp at hs
  · have hun : s.lock = none ∧ s.unlockedStep op = some s' := by
      cases op <;> simp_all [Sys.step]
    obtain ⟨hlock, hun⟩ := hun
    cases hop : op.thread with
    | none =>
      cases op with
      | enlist c =>
        simp only [Sys.unlockedStep, ite_none_right_eq_some, some.injEq] at hun
        obtain ⟨-, rfl⟩ := hun
        exact h.setCaches _
      | unlist c =>
        cases hun
        exact h.setCaches _
      | addUpdate c flags =>
        cases hun
        exact h.addUpdateUnlocked ha
      | updateall flags =>
        cases hun
        exact (h.updateall ha).1
      | _ => simp [Op.thread] at hop
    | some t =>
      have hthread : ∃ th, s.threads t = some th ∧ s.threadStep t th op = some s' := by
        cases op <;> simp_all [Sys.unlockedStep, Op.thread, bind_eq_some_iff]
      obtain ⟨th, ht, hs'⟩ := hthread
      exact h.threadStep hlock ht ha hop hs'

end
end Invariant
end Libumem.Update
