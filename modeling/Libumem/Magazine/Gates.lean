import Libumem.Magazine.Machine

/-!
# Caches without magazines

The flag `UMF_NOMAGAZINE` keeps `cc_magsize` at zero. Then no magazine is ever allocated, and with
it the depot and the slots of the restartable sequences stay empty. The per-thread cache does not
look at the flag: `umem_ptc_init` leaves out a size class only for its debug flags.
-/

namespace Libumem.Magazine
open Lib SizeClass
open Function (update update_self update_of_ne)

/-- No object is held between the client and the slab layer. -/
structure Barren (s : State) : Prop where
  hold : ∀ p, s.layer.hold p = none
  depot : ∀ full j, s.layer.depot full j = []
  bin : ∀ t, s.flow.bin t = []
  magsize : ∀ cpu, s.layer.ccMagsize cpu = 0

theorem Barren.pushRound_eq_none {s : State} (hs : Barren s) {k : Hand} {p : Place}
    {limit : Layer → Mag → Nat} : (takeHand k >>= fun b => pushRound p limit b) s = none := by
  cases hb : s.flow.hand k <;>
    simp [bind, StateT.bind, orFail, takeHand, pushRound, getMag, alterFlow, alter, pure,
      StateT.pure, hs.hold, hb]

/-- What the moves of objects leave true, for the objects in the hands that `kept` says. -/
structure Stable (kept : Hand → Prop) (Q : Flow → Prop) : Prop where
  put : ∀ fl k b, Q fl → fl.hand k = none → Q { fl with hand := update fl.hand k (some b) }
  take : ∀ fl k, Q fl → ¬ kept k → Q { fl with hand := update fl.hand k none }
  client : ∀ fl l, Q fl → Q { fl with client := l }
  slabAlloc : ∀ fl b, Q fl → b ∉ fl.allocated → Q { fl with allocated := b :: fl.allocated }
  slabFree : ∀ fl b, Q fl → Q { fl with allocated := fl.allocated.erase b }

theorem stable_nodup : Stable (fun _ => False) fun fl => fl.allocated.Nodup where
  put _ _ _ h _ := h
  take _ _ h _ := h
  client _ _ h := h
  slabAlloc _ _ h hnot := List.nodup_cons.mpr ⟨hnot, h⟩
  slabFree _ b h := h.erase b

theorem stable_hand (k : Hand) (b : Buf) : Stable (· = k) fun fl => fl.hand k = some b where
  put fl k' b' h hnone := by
    rw [← h]
    apply update_of_ne
    rintro rfl
    exact absurd (h.symm.trans hnone) (by simp)
  take fl k' h hne := (update_of_ne (Ne.symm hne) _ _).trans h
  client _ _ h := h
  slabAlloc _ _ h _ := h
  slabFree _ _ h := h

/-- A program that leaves the cache without magazines and `Q` true of the objects. -/
def KeepsBarren {α : Type} (Q : Flow → Prop) (f : M α) : Prop :=
  Triple (fun s (_ : Unit) => Barren s ∧ Q s.flow) f fun _ s _ => Barren s ∧ Q s.flow

namespace KeepsBarren
variable {Q : Flow → Prop} {kept : Hand → Prop} {α β : Type} {f f' : M α} {k : α → M β} {p : Prop}

theorem bind (hf : KeepsBarren Q f) (hk : ∀ a, KeepsBarren Q (k a)) : KeepsBarren Q (f >>= k) :=
  Triple.bind hf hk

theorem pure (a : α) : KeepsBarren Q (Pure.pure a : M α) := Triple.pure fun _ _ h => ⟨(), h⟩

theorem ite [Decidable p] (hf : KeepsBarren Q f) (hf' : KeepsBarren Q f') :
    KeepsBarren Q (if p then f else f') := Triple.ite (fun _ => hf) fun _ => hf'

theorem only {c : Bool} {f : M Unit} (hf : KeepsBarren Q f) : KeepsBarren Q (only c f) :=
  ite hf (pure _)

theorem checkIf {c : Bool} {f : M Bool} (hf : KeepsBarren Q f) : KeepsBarren Q (checkIf c f) :=
  ite hf (pure _)

theorem reads_bind {r : State → α} (h : ∀ x, KeepsBarren Q (k x)) :
    KeepsBarren Q (reads r >>= k) :=
  Triple.reads_bind fun x s _ b t hs hrun => h x s () b t hs.2 hrun

theorem require_bind [Decidable p] {f : Unit → M α} (h : p → KeepsBarren Q (f ())) :
    KeepsBarren Q (require p >>= f) := Triple.require_bind h

section
variable {b : Buf} {id : Nat} {h : Hand} {cfg : Config}

theorem alterMemory (g : Memory → Memory) : KeepsBarren Q (alterMemory g) :=
  Triple.alter fun _ _ hs => ⟨(), ⟨hs.1.hold, hs.1.depot, hs.1.bin, hs.1.magsize⟩, hs.2⟩

theorem alterLog (g : Log → Log) : KeepsBarren Q (alterLog g) :=
  Triple.alter fun _ _ hs => ⟨(), ⟨hs.1.hold, hs.1.depot, hs.1.bin, hs.1.magsize⟩, hs.2⟩

theorem alterFlow {g : Flow → Flow} (hbin : ∀ fl, (g fl).bin = fl.bin)
    (hQ : ∀ fl, Q fl → Q (g fl)) : KeepsBarren Q (alterFlow g) := by
  refine Triple.alter fun s _ hs => ⟨(), ⟨hs.1.hold, hs.1.depot, fun t => ?_, hs.1.magsize⟩,
    hQ _ hs.2⟩
  exact (congrFun (hbin s.flow) t).trans (hs.1.bin t)

theorem newMagtype : KeepsBarren Q (alterLayer fun ly => { ly with magtype := ly.magtype+1 }) :=
  Triple.alter fun _ _ hs => ⟨(), ⟨hs.1.hold, hs.1.depot, hs.1.bin, hs.1.magsize⟩, hs.2⟩

theorem purge (cpu id id' : Nat) : KeepsBarren Q (step cfg (.purge cpu id id')) := by
  intro s _ a t hs hrun
  obtain ⟨⟨hhold, hdepot, hbin, hmagsize⟩, hQ⟩ := hs
  simp [step, Bind.bind, StateT.bind, reads, setMag, alterLayer, alter, putMagOf, Layer.setHold,
    Pure.pure, StateT.pure, hhold] at hrun
  subst hrun
  exact ⟨(), ⟨fun q => by simp [update, hhold], hdepot, hbin, fun i => by simp [update, hmagsize]⟩,
    hQ⟩

theorem record (a : Act) : KeepsBarren Q (record b a) := alterMemory _

theorem setTag (t : Tag) : KeepsBarren Q (setTag b t) := alterMemory _

theorem umemError (e : Umerr) : KeepsBarren Q (umemError e b) := alterLog _

variable (hQ : Stable kept Q)
include hQ

theorem takeHand (hh : ¬ kept h) : KeepsBarren Q (takeHand h) := by
  refine bind ?_ fun _ => bind (alterFlow (fun _ => rfl) fun fl hfl => hQ.take fl h hfl hh)
    fun _ => pure _
  intro s _ a t hs hrun
  obtain ⟨x, -, heq⟩ := Option.map_eq_some_iff.mp hrun
  cases heq
  exact ⟨(), hs⟩

theorem putHand : KeepsBarren Q (putHand h b) := by
  refine Triple.reads_bind fun old => Triple.require_bind fun hnone => Triple.alter fun s _ hs => ?_
  obtain ⟨hold, hbarren, hs⟩ := hs
  exact ⟨(), ⟨hbarren.hold, hbarren.depot, hbarren.bin, hbarren.magsize⟩,
    hQ.put s.flow h b hs (hold.trans hnone)⟩

theorem takeClient : KeepsBarren Q (takeClient b) :=
  reads_bind fun _ => require_bind fun _ => alterFlow (fun _ => rfl) fun fl => hQ.client fl _

theorem putClient : KeepsBarren Q (putClient b) := alterFlow (fun _ => rfl) fun fl => hQ.client fl _

theorem umemSlabAlloc : KeepsBarren Q (umemSlabAlloc b) := by
  refine Triple.reads_bind fun _ => Triple.require_bind fun hnot =>
    Triple.bind (Triple.alter fun s _ hs => ?_) fun _ => record (Q := Q) _
  obtain ⟨rfl, hbarren, hs⟩ := hs
  exact ⟨(), ⟨hbarren.hold, hbarren.depot, hbarren.bin, hbarren.magsize⟩,
    hQ.slabAlloc s.flow b hs hnot⟩

theorem umemSlabFree : KeepsBarren Q (umemSlabFree b) :=
  reads_bind fun _ => ite
    (bind (alterFlow (fun _ => rfl) fun fl => hQ.slabFree fl b) fun _ => record _) (umemError _)

theorem umemCacheAllocDebug {made : Made} : KeepsBarren Q (umemCacheAllocDebug cfg b made) := by
  refine reads_bind fun t => ite ((umemError _).bind fun _ => pure _)
    (ite ((setTag _).bind fun _ => (umemError _).bind fun _ => pure _)
      ((setTag _).bind fun _ => ?_))
  have hfree := umemSlabFree (b := b) hQ
  cases made with
  | ok => exact (record _).bind fun _ => pure _
  | fails => exact (record _).bind fun _ => (setTag _).bind fun _ => hfree.bind fun _ => pure _
  | mtbf => exact (setTag _).bind fun _ => hfree.bind fun _ => pure _

theorem clientAlloc {size : Nat} : KeepsBarren Q (clientAlloc cfg b size) :=
  (record _).bind fun _ => (alterMemory _).bind fun _ => reads_bind fun _ =>
    (only (alterLog _)).bind fun _ => reads_bind fun _ => (only (setTag _)).bind fun _ =>
      (only (alterLog _)).bind fun _ => putClient hQ

theorem clientFree : KeepsBarren Q (clientFree cfg id b) := by
  refine (takeClient hQ).bind fun _ => (record _).bind fun _ => reads_bind fun _ =>
    reads_bind fun _ => (checkIf ?_).bind fun _ => only ((only (alterLog _)).bind fun _ =>
      (checkIf ?_).bind fun _ => reads_bind fun _ =>
        only ((only (alterLog _)).bind fun _ => putHand hQ))
  · exact reads_bind fun _ => ite ((umemError _).bind fun _ => pure _)
      ((setTag _).bind fun _ => pure _)
  · exact reads_bind fun _ => ite ((umemError _).bind fun _ => pure _)
      (ite ((setTag _).bind fun _ => (umemError _).bind fun _ => pure _)
        ((record _).bind fun _ => (setTag _).bind fun _ => pure _))

theorem makeObject {batch : Bool} {made : Made} : KeepsBarren Q (makeObject cfg id batch made b) :=
  ite ((umemCacheAllocDebug hQ).bind fun _ => only (putHand hQ))
    (ite ((record _).bind fun _ => putHand hQ) ((record _).bind fun _ => umemSlabFree hQ))

end
end KeepsBarren

variable {cfg : Config} {s t : State} {e : Event}

/-- The table that is published while the hooks are on has no bins. -/
theorem not_binned_hooked (idx : Nat) : ¬ cfg.Binned true idx := by
  intro h
  have hbin := h.2.2.2
  simp [umemPtcBinTable] at hbin

section
variable (hmag : cfg.noMagazine = true) (hptc : ∀ idx, ¬cfg.Binned false idx)
include hmag hptc

/-- Without a per-thread cache, every event leaves the cache without magazines, and only
`umem_slab_free` takes an object out of the hands of a thread that frees it. -/
theorem step_keepsBarren {kept : Hand → Prop} {Q : Flow → Prop} (hQ : Stable kept Q)
    (hkept : ∀ k, kept k → ∃ id batch, k = ⟨id, .freeing batch⟩ ∧ e ≠ .toSlab id batch) :
    KeepsBarren Q (step cfg e) := by
  have htask : ∀ id task, (∀ batch, task ≠ .freeing batch) → ¬ kept ⟨id, task⟩ := by
    intro id task hne hk
    obtain ⟨_, batch, heq, -⟩ := hkept _ hk
    exact hne batch (congrArg Hand.task heq)
  -- most events start with a magazine or an object of a bin
  have hstuck : (∀ s, Barren s → step cfg e s = none) → KeepsBarren Q (step cfg e) :=
    fun hnone s _ a t hs hrun => by rw [hnone s hs.1] at hrun; cases hrun
  have hoff : ∀ hooked idx, ¬ cfg.Binned hooked idx := by
    intro hooked idx
    cases hooked with
    | false => exact hptc idx
    | true => exact not_binned_hooked idx
  cases e with
  | slabAlloc id b batch =>
    exact .require_bind fun _ => (KeepsBarren.umemSlabAlloc hQ).bind fun _ => .putHand hQ
  | construct id batch made =>
    exact (KeepsBarren.takeHand hQ (htask _ _ (by simp))).bind fun _ => .makeObject hQ
  | check id made =>
    exact (KeepsBarren.takeHand hQ (htask _ _ (by simp))).bind fun _ => .ite
      ((KeepsBarren.umemCacheAllocDebug hQ).bind fun _ => .only (.putHand hQ)) (.putHand hQ)
  | handOut id batch size =>
    exact (KeepsBarren.takeHand hQ (htask _ _ (by simp))).bind fun _ => .clientAlloc hQ
  | free id b => exact .clientFree hQ
  | freeBatch id b =>
    exact .require_bind fun _ => (KeepsBarren.takeClient hQ).bind fun _ =>
      (KeepsBarren.record _).bind fun _ => .reads_bind fun _ =>
        (KeepsBarren.only (.alterLog _)).bind fun _ => .putHand hQ
  | toSlab id batch =>
    refine (KeepsBarren.takeHand hQ fun hk => ?_).bind fun _ =>
      (KeepsBarren.only (.record _)).bind fun _ => .umemSlabFree hQ
    obtain ⟨_, _, heq, hne⟩ := hkept _ hk
    cases heq
    exact hne rfl
  | purge cpu id id' => exact .purge cpu id id'
  | bump => exact .reads_bind fun _ => .require_bind fun _ => .newMagtype
  | hooks on => exact .alterLog fun l => { l with hooked := on }
  | rseqPush id cpu => exact hstuck fun s hs => hs.pushRound_eq_none
  | cpuPush id batch cpu => exact hstuck fun s hs => hs.pushRound_eq_none
  | _ =>
    refine hstuck fun s hs => ?_
    simp [step, bind, StateT.bind, reads, require, orFail, takeMag, getMag, popRound, nextRound,
      popBin, umemDepotPop, ptcOn, rounds, hs.hold, hs.depot, hs.bin, hs.magsize, hmag, hoff]

end

/-- An error for the object is reported, after the errors `es`. -/
def Told (es : List (Umerr × Buf)) (b : Buf) (s : State) : Prop :=
  ∃ err, s.log.errors = (err, b) :: es

section
variable {id : Nat} {batch : Bool} {b : Buf} {es : List (Umerr × Buf)}

/-- The thread frees the object, unless a check of a debugged cache reports it. -/
def Freeing (cfg : Config) (es : List (Umerr × Buf)) (b : Buf) (k : Hand) (s : State) : Prop :=
  s.flow.hand k = some b ∨ cfg.buftag = true ∧ Told es b s

/-- A program that starts with the errors `es`. -/
def Checks {α : Type} (es : List (Umerr × Buf)) (f : M α) (R : α → State → Prop) : Prop :=
  Triple (fun s (_ : Unit) => s.log.errors = es) f fun a s _ => R a s

/-- A check that succeeds reports nothing. -/
def Checked (cfg : Config) (es : List (Umerr × Buf)) (b : Buf) (ok : Bool) (s : State) : Prop :=
  if ok then s.log.errors = es else cfg.buftag = true ∧ Told es b s

namespace Checks
variable {α : Type} {R : α → State → Prop} {c : Bool}

theorem memory_bind {g : Memory → Memory} {k : Unit → M α} (hk : Checks es (k ()) R) :
    Checks es (alterMemory g >>= k) R :=
  Triple.bind (Triple.alter fun _ _ hs => ⟨(), hs⟩) fun _ => hk

theorem noted_bind {g : Log → Log} {k : Unit → M α} (hg : ∀ l, (g l).errors = l.errors)
    (hk : Checks es (k ()) R) : Checks es (only c (alterLog g) >>= k) R := by
  refine Triple.bind (Q := fun _ (s : State) _ => s.log.errors = es)
    (Triple.ite (fun _ => ?_) fun _ => ?_) fun _ => hk
  · exact Triple.alter fun s _ hs => ⟨(), (hg s.log).trans hs⟩
  · exact Triple.pure fun _ _ hs => ⟨(), hs⟩

theorem reads_bind {β : Type} {r : State → β} {k : β → M α} (hk : ∀ x, Checks es (k x) R) :
    Checks es (reads r >>= k) R := fun s u a t hs hrun => hk (r s) s u a t hs hrun

theorem ok : Checks es (Pure.pure true : M Bool) (Checked cfg es b) :=
  Triple.pure fun _ _ hs => ⟨(), hs⟩

theorem umemError (htag : cfg.buftag = true) {err : Umerr} :
    Checks es (Magazine.umemError err b >>= fun _ => Pure.pure false) (Checked cfg es b) := by
  refine Triple.bind (Q := fun _ s _ => Told es b s) (Triple.alter fun _ _ hs => ?_) fun _ => ?_
  · exact ⟨(), err, congrArg _ hs⟩
  · exact Triple.pure fun _ _ hs => ⟨(), htag, hs⟩

theorem umemCacheFreeDebug (htag : cfg.buftag = true) :
    Checks es (umemCacheFreeDebug cfg b) (Checked cfg es b) :=
  reads_bind fun _ => Triple.ite (fun _ => umemError htag) fun _ => Triple.ite
    (fun _ => memory_bind (umemError htag)) fun _ => memory_bind (memory_bind ok)

theorem umemFreeRedzoneOk (htag : cfg.buftag = true) {size : Nat} :
    Checks es (umemFreeRedzoneOk b size) (Checked cfg es b) :=
  reads_bind fun _ => Triple.ite (fun _ => umemError htag) fun _ => memory_bind ok

/-- What comes after a check. -/
theorem checkIf_bind {f : M Bool} {k : Hand} {g : Bool → M Unit}
    (hf : c = true → Checks es f (Checked cfg es b))
    (hg : Checks es (g true) fun _ => Freeing cfg es b k)
    (hno : ∀ s, g false s = some ((), s)) : Checks es (checkIf c f >>= g)
      fun _ => Freeing cfg es b k := by
  refine Triple.bind (Q := fun ok s _ => Checked cfg es b ok s) (Triple.ite hf fun _ => ok)
    fun ok => ?_
  cases ok with
  | true => exact hg
  | false =>
    intro s u a t hs hrun
    obtain ⟨-, rfl⟩ := Prod.mk.inj (Option.some.inj ((hno s).symm.trans hrun))
    exact ⟨u, .inr hs⟩

theorem putHand {k : Hand} {R : Unit → State → Prop} (hR : ∀ s, s.flow.hand k = some b → R () s) :
    Checks es (putHand k b) R :=
  Triple.reads_bind fun _ => Triple.require_bind fun _ => Triple.alter fun _ _ _ =>
    ⟨(), hR _ (update_self _ _ _)⟩

theorem takeClient_bind {k : Unit → M α} (hk : Checks es (k ()) R) :
    Checks es (takeClient b >>= k) R := by
  refine Triple.bind (Q := fun _ (s : State) _ => s.log.errors = es) ?_ fun _ => hk
  exact Triple.reads_bind fun _ => Triple.require_bind fun _ =>
    Triple.alter fun _ _ hs => ⟨(), hs.2⟩

theorem umemCacheFree : Checks es (umemCacheFree cfg id b)
    fun _ => Freeing cfg es b ⟨id, .freeing false⟩ :=
  checkIf_bind umemCacheFreeDebug
    (reads_bind fun _ => noted_bind (fun _ => rfl) (putHand fun _ => .inl)) fun _ => rfl

theorem clientFree : Checks es (clientFree cfg id b)
    fun _ => Freeing cfg es b ⟨id, .freeing false⟩ :=
  takeClient_bind <| memory_bind <| reads_bind fun _ => reads_bind fun _ =>
    checkIf_bind (fun h => umemFreeRedzoneOk (Bool.and_elim_right h))
      (noted_bind (fun _ => rfl) umemCacheFree) fun _ => rfl

theorem freeBatch : Checks es (step cfg (.freeBatch id b)) fun _ s =>
    s.flow.hand ⟨id, .freeing true⟩ = some b :=
  Triple.require_bind fun _ => takeClient_bind <| memory_bind <| reads_bind fun _ =>
    noted_bind (fun _ => rfl) <| putHand fun _ h => h

end Checks

theorem step_toSlab (hb : s.flow.hand ⟨id, .freeing batch⟩ = some b) :
    ∃ t, Step cfg s (.toSlab id batch) t ∧ t.flow.allocated = s.flow.allocated.erase b := by
  by_cases hmem : b ∈ s.flow.allocated <;> cases hdebug : (!cfg.buftag || batch) <;>
    simp [Step, next, step, takeHand, orFail, alterFlow, alter, only, record, alterMemory,
      umemSlabFree, umemError, alterLog, reads, hb, hmem, hdebug, bind, StateT.bind, pure,
      StateT.pure, List.erase_of_not_mem]

end

/-- The run gives the object back to the slab layer, out of the hands that free it. -/
def Returned (cfg : Config) (s : State) (l : List Event) (id : Nat) (batch : Bool) (b : Buf) :
    Prop :=
  ∃ l₁ l₂ u v, l = l₁ ++ .toSlab id batch :: l₂ ∧ Runs (Step cfg) s l₁ u ∧
    Step cfg u (.toSlab id batch) v ∧ b ∉ v.flow.allocated

section
variable (hmag : cfg.noMagazine = true) (hptc : ∀ idx, ¬cfg.Binned false idx)
include hmag hptc

theorem Step.barren (hs : Barren s ∧ s.flow.allocated.Nodup) (h : Step cfg s e t) :
    Barren t ∧ t.flow.allocated.Nodup := by
  obtain ⟨-, ht⟩ := step_keepsBarren hmag hptc stable_nodup nofun s () () t hs h.run
  exact ht

/-- The thread has the object until it calls `umem_slab_free`. -/
theorem freeing_returned {id : Nat} {batch : Bool} {b : Buf} {l : List Event}
    (hs : Barren s ∧ s.flow.allocated.Nodup) (hb : s.flow.hand ⟨id, .freeing batch⟩ = some b)
    (h : Runs (Step cfg) s l t) :
    t.flow.hand ⟨id, .freeing batch⟩ = some b ∨ Returned cfg s l id batch b := by
  induction l generalizing s with
  | nil =>
    cases h
    exact .inl hb
  | cons e l ih =>
    obtain ⟨m, hstep, hrest⟩ := h
    by_cases he : e = .toSlab id batch
    · subst he
      obtain ⟨m', hm', hallocated⟩ := step_toSlab hb
      obtain rfl := Option.some.inj (hstep.symm.trans hm')
      refine .inr ⟨[], l, s, m, rfl, rfl, hstep, ?_⟩
      rw [hallocated]
      exact hs.2.not_mem_erase
    · obtain ⟨-, -, hb'⟩ := step_keepsBarren hmag hptc (stable_hand ⟨id, .freeing batch⟩ b)
        (fun k hk => ⟨id, batch, hk, he⟩) s () () m ⟨hs.1, hb⟩ hstep.run
      obtain ht | ⟨l₁, l₂, u, v, rfl, hbefore, hback⟩ := ih (hstep.barren hmag hptc hs) hb' hrest
      · exact .inl ht
      · exact .inr ⟨e :: l₁, l₂, u, v, rfl, ⟨m, hstep, hbefore⟩, hback⟩

end

theorem initial_barren (magtype : Nat) : Barren (initial magtype) :=
  ⟨fun _ => rfl, fun _ _ => rfl, fun _ => rfl, fun _ => rfl⟩

/-- In a cache without magazines that has no bin in the per-thread caches either, no object is ever
held between the client and the slab layer. An object that is freed is reported or in the hands of
the thread, which can go on, and it leaves them for the slab layer only. -/
theorem no_magazine_no_caching {magtype : Nat} {l : List Event} (hmag : cfg.noMagazine = true)
    (hptc : ∀ idx, ¬ cfg.Binned false idx) (h : Runs (Step cfg) (initial magtype) l s) :
    Barren s ∧
    (∀ id b t, Step cfg s (.free id b) t → Freeing cfg s.log.errors b ⟨id, .freeing false⟩ t) ∧
    (∀ id b t, Step cfg s (.freeBatch id b) t → t.flow.hand ⟨id, .freeing true⟩ = some b) ∧
    ∀ id batch b, s.flow.hand ⟨id, .freeing batch⟩ = some b →
      (∃ t, Step cfg s (.toSlab id batch) t) ∧ ∀ l t, Runs (Step cfg) s l t →
        t.flow.hand ⟨id, .freeing batch⟩ = some b ∨ Returned cfg s l id batch b := by
  have hs : Barren s ∧ s.flow.allocated.Nodup :=
    h.invariant (P := fun s => Barren s ∧ s.flow.allocated.Nodup)
      (fun _ _ _ hs hstep => hstep.barren hmag hptc hs) ⟨initial_barren magtype, List.nodup_nil⟩
  refine ⟨hs.1, ?_, ?_, ?_⟩
  · intro id b t hstep
    exact (Checks.clientFree s () () t rfl hstep.run).choose_spec
  · intro id b t hstep
    exact (Checks.freeBatch s () () t rfl hstep.run).choose_spec
  · intro id batch b hb
    obtain ⟨t, ht, -⟩ := step_toSlab hb
    exact ⟨⟨t, ht⟩, fun l t hrun => freeing_returned hmag hptc hs hb hrun⟩

/-- A size class of the sized functions under the option `nomagazines`. -/
def nomagazines (ptcEnabled : Bool) : Config where
  ncpus := 1
  magsize t := 2 * t + 1
  cacheFlags := 0x20
  slot := some 0
  umemAllocTable := (umemCacheInit umemAllocSizes fun _ => true).getD fun _ => none
  caches := ⟨umemAllocSizes, fun _ => 0x20⟩
  umemPtcMaxsize := 8192
  ptcEnabled := ptcEnabled
  magsize_pos _ := Nat.succ_pos _
  cacheFlags_slot _ _ := rfl

theorem no_magazine_roundTrip : ∃ t, Runs (Step (nomagazines false)) (initial 0)
    [.slabAlloc 0 1 false, .construct 0 false .ok, .handOut 0 false 8, .free 0 1] t ∧
    Returned (nomagazines false) t [.toSlab 0 false] 0 false 1 := by
  have hptc : ∀ idx, ¬(nomagazines false).Binned false idx := by
    intro idx h
    have hbin : (0 : Int) ≤ -1 := h.2.2.2
    exact absurd hbin (by decide)
  obtain ⟨u, hu, hnone⟩ := exists_run (nomagazines false) (initial 0) ([.slabAlloc 0 1 false,
    .construct 0 false .ok, .handOut 0 false 8] ++ [.free 0 1] ++ [.toSlab 0 false])
    (fun u => u.flow.hand ⟨0, .freeing false⟩) none (by decide +kernel)
  obtain ⟨t, ht, htu⟩ := Runs.append.mp hu
  obtain ⟨s, hs, hst⟩ := Runs.append.mp ht
  obtain ⟨-, hfree, -⟩ := no_magazine_no_caching (by decide) hptc hs
  have hhand := (hfree 0 1 t (Runs.singleton.mp hst)).resolve_right fun h => absurd h.1 (by decide)
  obtain ⟨-, -, -, hback⟩ := no_magazine_no_caching (by decide) hptc ht
  refine ⟨t, ht, ((hback 0 false 1 hhand).2 _ u htu).resolve_left fun hsome => ?_⟩
  rw [hnone] at hsome
  cases hsome

/-- The requests of up to eight bytes have a bin, whatever `UMF_NOMAGAZINE` says. -/
theorem binned_nomagazines : (nomagazines true).Binned false 0 := by
  obtain ⟨table, hinit, htable⟩ := exists_defaultTable
  have hentry : table 0 = some 0 := htable 0 (by decide) 0 ⟨by decide, by simp⟩
  have htable : (nomagazines true).umemAllocTable = table := by simp [nomagazines, hinit]
  have hbin : umemPtcBinTable true false table ⟨umemAllocSizes, fun _ => 0x20⟩ 8192 0 = 0 := by
    refine (umemPtcBinTable_of_plain (fun _ => ?_) hentry rfl ?_ ?_).trans ?_ <;> decide
  refine ⟨by decide, by decide, by rw [htable, hentry]; rfl, ?_⟩
  rw [htable]
  exact hbin.ge

/-- The bin of a thread keeps a freed object, whatever the flag of the cache says. -/
theorem no_magazine_ptc_cached : (nomagazines true).noMagazine = true ∧
    ∃ t, Runs (Step (nomagazines true)) (initial 0)
      [.slabAlloc 0 1 false, .construct 0 false .ok, .handOut 0 false 8, .binPush 0 1] t ∧
    t.flow.bin 0 = [1] ∧ ¬ Barren t := by
  obtain ⟨s, hs, hview⟩ := exists_run (nomagazines true) (initial 0) [.slabAlloc 0 1 false,
    .construct 0 false .ok, .handOut 0 false 8]
    (fun s => (s.flow.client, s.flow.bin 0, s.memory.asked 1, s.log.hooked)) ([1], [], 8, false)
    (by decide +kernel)
  simp only [Prod.mk.injEq] at hview
  obtain ⟨hclient, hempty, hasked, hhooked⟩ := hview
  obtain ⟨t, ht, hbin⟩ : ∃ t, Step (nomagazines true) s (.binPush 0 1) t ∧ t.flow.bin 0 = [1] := by
    simp [Step, next, step, ptcOn, ptcFree, takeClient, record, pushBin, alterFlow, alterMemory,
      alter, reads, require, bind, StateT.bind, hclient, hempty, hasked, hhooked,
      binned_nomagazines, umemAlign]
  refine ⟨by decide, t, Runs.append.mpr ⟨s, hs, Runs.singleton.mpr ht⟩, hbin, fun hbarren => ?_⟩
  rw [hbarren.bin 0] at hbin
  cases hbin

end Libumem.Magazine
