import Libumem.Lib.Scan

/-!
# The working set of the depot

Each list of a depot has a count `ml_total`, the least count since the last update `ml_min`, and
`ml_reaplimit`, which an update sets to the least count of the interval that ends. A reap takes
`MIN (ml_reaplimit, ml_min)` magazines, but unlike the other ways to take one it lowers neither of
the two. So `ml_min` can end up above `ml_total`, and a second reap before the next update takes as
many magazines again.
-/

namespace Libumem.Depot
open Function List Lib

abbrev Mag := Nat

/-- `umem_maglist_t`. -/
structure Maglist where
  mlList : List Mag
  mlTotal : Int
  mlMin : Int
  mlReaplimit : Int
  mlAlloc : Nat

/-! ## The critical sections of `ml_lock` -/

/-- `umem_depot_pop`, and `umem_depot_pop_trylock` when it gets the lock. -/
def umemDepotPop (mlp : Maglist) : Option Mag × Maglist :=
  match mlp.mlList with
  | [] => (none, mlp)
  | mp :: rest =>
    let total := mlp.mlTotal - 1
    (some mp, { mlp with
      mlList := rest
      mlTotal := total
      mlMin := if total < mlp.mlMin then total else mlp.mlMin
      mlAlloc := mlp.mlAlloc + 1 })

/-- `umem_depot_push`, and `umem_depot_push_trylock` when it gets the lock. -/
def umemDepotPush (mlp : Maglist) (mp : Mag) : Maglist :=
  { mlp with mlList := mp :: mlp.mlList, mlTotal := mlp.mlTotal + 1 }

def umemMaglistWsUpdate (mlp : Maglist) : Maglist :=
  { mlp with mlReaplimit := mlp.mlMin, mlMin := mlp.mlTotal }

def umemDepotReapPop (mlp : Maglist) : Option Mag × Maglist :=
  match mlp.mlList with
  | [] => (none, mlp)
  | mp :: rest =>
    (some mp, { mlp with
      mlList := rest
      mlTotal := mlp.mlTotal - 1
      mlAlloc := mlp.mlAlloc + 1 })

/-- The loop of `umem_maglist_ws_reap` with `reap` turns left. -/
def reapLoop : Nat → Maglist → List Mag → List Mag × Maglist
  | 0, mlp, destroyList => (destroyList, mlp)
  | reap + 1, mlp, destroyList =>
    match umemDepotReapPop mlp with
    | (none, mlp) => (destroyList, mlp)
    | (some mp, mlp) => reapLoop reap mlp (mp :: destroyList)

def reapCount (mlp : Maglist) : Int := min mlp.mlReaplimit mlp.mlMin

/-- The locked part of `umem_maglist_ws_reap`: the magazines to destroy, and the list. -/
def umemMaglistWsReap (mlp : Maglist) : List Mag × Maglist :=
  reapLoop (reapCount mlp).toNat mlp []

/-- `UMEM_DEPOT_PERCPU_MAX`. -/
def umemDepotPercpuMax : Int := 8

def umemMaglistMarkExcess (mlp : Maglist) : Maglist :=
  if umemDepotPercpuMax < mlp.mlTotal then
    let excess := mlp.mlTotal - umemDepotPercpuMax
    if mlp.mlReaplimit < excess then { mlp with mlReaplimit := excess } else mlp
  else mlp

/-! ## Runs -/

/-- A list of a cache: full or empty, the global one or a stripe. -/
structure ListId where
  full : Bool
  stripe : Option Nat
  deriving DecidableEq, Repr

inductive ListOp
  | pop
  | push (mp : Mag)
  | wsUpdate
  | wsReap
  | markExcess
  deriving DecidableEq, Repr

/-- A critical section on one list of one cache. -/
structure Event where
  cache : Nat
  list : ListId
  op : ListOp
  deriving DecidableEq, Repr

/-- A list with its history. -/
structure Watched where
  mlp : Maglist
  /-- the least counts of the interval under way and of the one before -/
  low : Int
  prevLow : Int
  /-- the magazines that were pushed since the last update and not taken again -/
  gained : Nat
  /-- whether the list was reaped or marked since the last update -/
  swept : Bool
  reaped : Nat

namespace Watched

/-- The list after a section of the current interval. -/
def seen (w : Watched) (mlp : Maglist) : Watched :=
  { w with mlp := mlp, low := min w.low mlp.mlTotal }

def step (w : Watched) : ListOp → Watched
  | .pop => { w.seen (umemDepotPop w.mlp).2 with gained := w.gained - 1 }
  | .push mp => { w.seen (umemDepotPush w.mlp mp) with gained := w.gained + 1 }
  | .wsUpdate => ⟨umemMaglistWsUpdate w.mlp, w.mlp.mlTotal, w.low, 0, false, 0⟩
  | .wsReap =>
    let (destroyList, mlp) := umemMaglistWsReap w.mlp
    { w.seen mlp with
      gained := w.gained - destroyList.length
      swept := true
      reaped := w.reaped + destroyList.length }
  | .markExcess => { w.seen (umemMaglistMarkExcess w.mlp) with swept := true }

/-- A list as `umem_cache_create` leaves it. -/
def new : Watched := ⟨⟨[], 0, 0, 0, 0⟩, 0, 0, 0, false, 0⟩

end Watched

abbrev Depots := Nat → ListId → Watched

def Depots.step (s : Depots) (e : Event) : Depots :=
  update s e.cache (update (s e.cache) e.list ((s e.cache e.list).step e.op))

def Depots.new : Depots := fun _ _ => Watched.new

section
variable (ncpus cp : Nat)

def umemDepotWsUpdate : List Event :=
  ⟨cp, ⟨true, none⟩, .wsUpdate⟩ :: ⟨cp, ⟨false, none⟩, .wsUpdate⟩ ::
    (List.range ncpus).flatMap fun i =>
      [⟨cp, ⟨true, some i⟩, .wsUpdate⟩, ⟨cp, ⟨false, some i⟩, .wsUpdate⟩]

def umemDepotWsReap : List Event :=
  ⟨cp, ⟨true, none⟩, .wsReap⟩ :: ⟨cp, ⟨false, none⟩, .wsReap⟩ ::
    (List.range ncpus).flatMap fun i =>
      [⟨cp, ⟨true, some i⟩, .wsReap⟩, ⟨cp, ⟨false, some i⟩, .wsReap⟩,
        ⟨cp, ⟨true, some i⟩, .markExcess⟩, ⟨cp, ⟨false, some i⟩, .markExcess⟩]

/-- `umem_cache_reap`, where `mtCache` is the cache that the magazines of the cache are from. -/
def umemCacheReap (mtCache : Option Nat) : List Event :=
  umemDepotWsReap ncpus cp ++ (mtCache.map (umemDepotWsReap ncpus)).getD []

end

namespace Watched

/-- What the working set is to be: `ml_min` is a count, and the magazines that were reaped since the
last update were on the list during the whole interval before it. -/
structure Good (w : Watched) : Prop where
  min_nonneg : 0 ≤ w.mlp.mlMin
  min_le : w.mlp.mlMin ≤ w.mlp.mlTotal
  reaped_le : w.reaped ≤ w.prevLow

/-- The list was empty at a time since the last update; or it was not reaped or marked since then, and
has gained no less than the least count of this interval and the one before. -/
def Modest (w : Watched) : Prop :=
  w.low = 0 ∨ w.swept = false ∧ min w.prevLow w.low ≤ w.gained

instance (w : Watched) : Decidable w.Modest := inferInstanceAs (Decidable (_ ∨ _ ∧ _))

/-- What holds of a list between two sections. -/
structure Inv (w : Watched) : Prop extends w.Good where
  total : w.mlp.mlTotal = w.mlp.mlList.length
  low : w.low = w.mlp.mlMin
  gained : w.mlp.mlTotal = w.low + w.gained
  limit : w.prevLow ≤ w.mlp.mlReaplimit
  fresh : w.swept = false → w.mlp.mlReaplimit = w.prevLow ∧ w.reaped = 0
  taken : 0 < w.reaped → min w.prevLow w.low ≤ w.reaped

variable {w : Watched}

theorem new_inv : new.Inv := by
  constructor <;> simp [new]
  exact ⟨le_rfl, le_rfl, le_rfl⟩

theorem Inv.pop (h : w.Inv) : (w.step .pop).Inv := by
  obtain ⟨⟨hnonneg, hle, hreaped⟩, htotal, hlow, hgained, hlimit, hfresh, htaken⟩ := h
  unfold step seen umemDepotPop
  cases hl : w.mlp.mlList with
  | nil =>
    rw [hl, length_nil] at htotal
    refine ⟨⟨hnonneg, hle, hreaped⟩, ?_, ?_, ?_, hlimit, hfresh, ?_⟩ <;>
      simp only [hl, length_nil] <;> omega
  | cons mp rest =>
    rw [hl, length_cons] at htotal
    refine ⟨⟨?_, ?_, hreaped⟩, ?_, ?_, ?_, hlimit, hfresh, ?_⟩ <;> simp only <;> grind

theorem Inv.push (h : w.Inv) (mp : Mag) : (w.step (.push mp)).Inv := by
  obtain ⟨⟨hnonneg, hle, hreaped⟩, htotal, hlow, hgained, hlimit, hfresh, htaken⟩ := h
  unfold step seen umemDepotPush
  refine ⟨⟨hnonneg, ?_, hreaped⟩, ?_, ?_, ?_, hlimit, hfresh, ?_⟩ <;>
    simp only [length_cons] <;> omega

theorem Inv.wsUpdate (h : w.Inv) : (w.step .wsUpdate).Inv := by
  obtain ⟨⟨hnonneg, hle, hreaped⟩, htotal, hlow, hgained, -⟩ := h
  refine ⟨⟨?_, le_rfl, ?_⟩, htotal, rfl, ?_, ?_, fun _ => ⟨hlow.symm, rfl⟩,
    fun h => absurd h (lt_irrefl 0)⟩
  · change 0 ≤ w.mlp.mlTotal
    omega
  · change ((0 : Nat) : Int) ≤ w.low
    omega
  · exact (Int.add_zero _).symm
  · exact hlow.le

theorem markExcess_eq (mlp : Maglist) : ∃ limit, mlp.mlReaplimit ≤ limit ∧
    umemMaglistMarkExcess mlp = { mlp with mlReaplimit := limit } := by
  unfold umemMaglistMarkExcess
  split
  · dsimp only
    split
    · rename_i hlt
      exact ⟨_, hlt.le, rfl⟩
    · exact ⟨mlp.mlReaplimit, le_rfl, rfl⟩
  · exact ⟨mlp.mlReaplimit, le_rfl, rfl⟩

theorem Inv.markExcess (h : w.Inv) : (w.step .markExcess).Inv := by
  obtain ⟨⟨hnonneg, hle, hreaped⟩, htotal, hlow, hgained, hlimit, -, htaken⟩ := h
  obtain ⟨limit, hlt, hmark⟩ := markExcess_eq w.mlp
  unfold step seen
  rw [hmark]
  refine ⟨⟨hnonneg, hle, hreaped⟩, htotal, ?_, ?_, hlimit.trans hlt, by simp, ?_⟩ <;>
    simp only <;> omega

theorem reapLoop_eq (n : Nat) (mlp : Maglist) (destroyList : List Mag)
    (hn : n ≤ mlp.mlList.length) : ∃ taken, taken.length = n ∧
      reapLoop n mlp destroyList = (taken ++ destroyList, { mlp with
        mlList := mlp.mlList.drop n
        mlTotal := mlp.mlTotal-n
        mlAlloc := mlp.mlAlloc+n }) := by
  induction n generalizing mlp destroyList with
  | zero => exact ⟨[], rfl, by simp [reapLoop]⟩
  | succ n ih =>
    cases hl : mlp.mlList with
    | nil => simp [hl] at hn
    | cons mp rest =>
      rw [hl] at hn
      let left : Maglist :=
        { mlp with mlList := rest, mlTotal := mlp.mlTotal-1, mlAlloc := mlp.mlAlloc+1 }
      have hpop : umemDepotReapPop mlp = (some mp, left) := by
        rw [umemDepotReapPop, hl]
      have hleft : n ≤ left.mlList.length := Nat.le_of_succ_le_succ hn
      obtain ⟨taken, hlen, hloop⟩ := ih left (mp :: destroyList) hleft
      refine ⟨taken ++ [mp], by simp [hlen], ?_⟩
      rw [reapLoop, hpop]
      dsimp only
      rw [hloop]
      simp only [left, append_assoc, singleton_append, drop_succ_cons, Prod.mk.injEq,
        Maglist.mk.injEq, true_and]
      constructor <;> push_cast <;> omega

theorem Inv.wsReap_eq (h : w.Inv) : ∃ taken : Nat, taken = reapCount w.mlp ∧
    w.step .wsReap = { w with
      mlp := { w.mlp with
        mlList := w.mlp.mlList.drop taken
        mlTotal := w.mlp.mlTotal - taken
        mlAlloc := w.mlp.mlAlloc + taken }
      low := min w.low (w.mlp.mlTotal - taken)
      gained := w.gained - taken
      swept := true
      reaped := w.reaped + taken } := by
  obtain ⟨⟨hnonneg, hle, hreaped⟩, htotal, hlow, -, hlimit, -⟩ := h
  have hzero : 0 ≤ reapCount w.mlp := le_min (by omega) hnonneg
  have hcount : reapCount w.mlp ≤ w.mlp.mlMin := min_le_right _ _
  obtain ⟨taken, hlen, hloop⟩ := reapLoop_eq (reapCount w.mlp).toNat w.mlp [] (by omega)
  refine ⟨_, Int.toNat_of_nonneg hzero, ?_⟩
  unfold step umemMaglistWsReap seen
  simp only [hloop, append_nil, hlen]

theorem Inv.wsReap (h : w.Inv) (hm : w.Modest) : (w.step .wsReap).Inv := by
  obtain ⟨taken, hcount, heq⟩ := h.wsReap_eq
  obtain ⟨⟨hnonneg, hle, hreaped⟩, htotal, hlow, hgained, hlimit, hfresh, htaken⟩ := h
  -- a list that was empty gives nothing, and another one as much as it had during two intervals
  have hless : taken = 0 ∨ w.reaped = 0 ∧ taken = min w.prevLow w.low ∧ taken ≤ w.gained := by
    unfold reapCount at hcount
    rcases hm with hzero | ⟨hswept, hmin⟩
    · left
      omega
    · obtain ⟨hsame, hnone⟩ := hfresh hswept
      rw [hsame, ← hlow] at hcount
      exact .inr ⟨hnone, hcount, by omega⟩
  rw [heq]
  refine ⟨⟨hnonneg, ?_, ?_⟩, ?_, ?_, ?_, hlimit, by simp, ?_⟩ <;> simp only [length_drop] <;> omega

theorem Inv.modest_of_good (h : w.Inv) (hswept : w.swept = false) (hg : (w.step .wsReap).Good) :
    w.Modest := by
  obtain ⟨taken, hcount, heq⟩ := h.wsReap_eq
  rw [heq] at hg
  have hle : w.mlp.mlMin ≤ w.mlp.mlTotal - taken := hg.min_le
  have hsame := (h.fresh hswept).1
  have hlow := h.low
  have hgained := h.gained
  rw [reapCount, hsame, ← hlow] at hcount
  exact .inr ⟨hswept, by omega⟩

theorem Inv.not_good_twice (h : w.Inv) (hpos : 0 < w.reaped) (hprev : w.prevLow ≤ w.low) :
    ¬ (w.step .wsReap).Good := by
  obtain ⟨taken, hcount, heq⟩ := h.wsReap_eq
  intro hg
  rw [heq] at hg
  have hle : ((w.reaped+taken : Nat) : Int) ≤ w.prevLow := hg.reaped_le
  have hbefore := h.reaped_le
  have htaken := h.taken hpos
  have hlimit := h.limit
  have hlow := h.low
  rw [reapCount, ← hlow] at hcount
  omega

end Watched

/-- Only modest reaps. -/
def Event.Modest (s : Depots) (e : Event) : Prop :=
  e.op = .wsReap → (s e.cache e.list).Modest

instance (s : Depots) (e : Event) : Decidable (e.Modest s) :=
  inferInstanceAs (Decidable (_ → _))

def ModestStep (s : Depots) (e : Event) (s' : Depots) : Prop := e.Modest s ∧ s.step e = s'

namespace Depots
variable {s : Depots}

theorem step_self (s : Depots) (e : Event) :
    s.step e e.cache e.list = (s e.cache e.list).step e.op := by
  rw [step, update_self, update_self]

theorem step_of_ne {e : Event} {c : Nat} {l : ListId} (h : ¬ (c = e.cache ∧ l = e.list)) :
    s.step e c l = s c l := by
  unfold step
  by_cases hc : c = e.cache
  · subst hc
    rw [update_self, update_of_ne fun hl => h ⟨rfl, hl⟩]
  · rw [update_of_ne hc]

theorem inv_step {e : Event} (h : ∀ c l, (s c l).Inv) (hs : e.Modest s) (c : Nat) (l : ListId) :
    (s.step e c l).Inv := by
  by_cases heq : c = e.cache ∧ l = e.list
  · obtain ⟨rfl, rfl⟩ := heq
    rw [step_self]
    have hi := h e.cache e.list
    unfold Event.Modest at hs
    cases hop : e.op with
    | pop => exact hi.pop
    | push mp => exact hi.push mp
    | wsUpdate => exact hi.wsUpdate
    | wsReap => exact hi.wsReap (hs hop)
    | markExcess => exact hi.markExcess
  · rw [step_of_ne heq]
    exact h c l

theorem inv_runs {events : List Event} (hrun : Runs ModestStep new events s) :
    ∀ c l, (s c l).Inv := by
  refine hrun.invariant (P := fun s : Depots => ∀ c l, (s c l).Inv) ?_
    fun _ _ => Watched.new_inv
  rintro s e _ h ⟨hmodest, rfl⟩
  exact inv_step h hmodest

end Depots

/-- While all reaps are modest, the working set of every list is right. The first reap of a list after
an update keeps it so only if it is modest. Another one does not, when the list never was shorter
than during the interval before the update. -/
theorem working_set_iff {events : List Event} {s : Depots}
    (hrun : Runs ModestStep Depots.new events s) (c : Nat) (l : ListId) :
    (s c l).Good ∧
    ((s c l).swept = false → (((s c l).step .wsReap).Good ↔ (s c l).Modest)) ∧
    (0 < (s c l).reaped → (s c l).prevLow ≤ (s c l).low → ¬ ((s c l).step .wsReap).Good) := by
  have hinv := Depots.inv_runs hrun c l
  refine ⟨hinv.toGood, fun hswept => ⟨hinv.modest_of_good hswept, ?_⟩, hinv.not_good_twice⟩
  intro hmodest
  exact (hinv.wsReap hmodest).toGood

/-! ### Two caches with one magazine cache

Cache 2 holds the magazines of the caches 0 and 1, and has one stripe. -/

/-- Cache 2 has three full magazines during two updates, and gets three more. -/
def grown : List Event :=
  let pushes := [1, 2, 3].map fun mp => ⟨2, ⟨true, none⟩, .push mp⟩
  pushes ++ umemDepotWsUpdate 1 2 ++ umemDepotWsUpdate 1 2 ++ pushes

theorem working_set_grown :
    ∃ s, Runs ModestStep Depots.new (grown ++ umemCacheReap 1 0 (some 2)) s ∧
    (s 2 ⟨true, none⟩).reaped = 3 ∧ (s 2 ⟨true, none⟩).Good ∧
    ¬ ((s 2 ⟨true, none⟩).step .wsReap).Good := by
  obtain ⟨s, hrun, hs⟩ := exists_runs (P := fun s e => Event.Modest s e)
    (f := fun s e => some (s.step e)) Depots.new (grown ++ umemCacheReap 1 0 (some 2))
    (fun s => ((s 2 ⟨true, none⟩).reaped, (s 2 ⟨true, none⟩).prevLow, (s 2 ⟨true, none⟩).low))
    (3, 3, 3)
    (by decide +kernel)
  simp only [Prod.mk.injEq] at hs
  obtain ⟨hreaped, hprev, hlow⟩ := hs
  have hrun' : Runs ModestStep Depots.new (grown ++ umemCacheReap 1 0 (some 2)) s :=
    hrun.mono fun _ _ _ h => ⟨h.1, Option.some.inj h.2⟩
  obtain ⟨hgood, -, htwice⟩ := working_set_iff hrun' 2 ⟨true, none⟩
  exact ⟨s, hrun', hreaped, hgood, htwice (by rw [hreaped]; decide) (by rw [hprev, hlow])⟩

/-- The second of two caches that are reaped takes from the magazine cache again. -/
theorem working_set_reaped_twice :
    let events := grown ++ umemCacheReap 1 0 (some 2) ++ umemCacheReap 1 1 (some 2)
    let w := events.foldl Depots.step Depots.new 2 ⟨true, none⟩
    w.prevLow = 3 ∧ w.reaped = 6 ∧ w.mlp.mlTotal = 0 ∧ w.mlp.mlMin = 3 ∧ ¬ w.Good := by
  have hview : (fun w : Watched => (w.prevLow, w.reaped, w.mlp.mlTotal, w.mlp.mlMin))
      ((grown ++ umemCacheReap 1 0 (some 2) ++ umemCacheReap 1 1 (some 2)).foldl
        Depots.step Depots.new 2 ⟨true, none⟩) = (3, 6, 0, 3) := by
    decide +kernel
  simp only [Prod.mk.injEq] at hview
  obtain ⟨hprev, hreaped, htotal, hmin⟩ := hview
  refine ⟨hprev, hreaped, htotal, hmin, fun hgood => ?_⟩
  have hle := hgood.min_le
  rw [htotal, hmin] at hle
  exact absurd hle (by decide)

end Libumem.Depot
