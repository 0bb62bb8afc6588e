import Libumem.Arith.P2

/-!
# Writing a snapshot

`snapshot_v2_write` of umem_inspect.c collects the caches, the live buffers and the transaction log
of the heap and writes them behind a header that counts them. The header is written last, over the
space reserved for it: `fseek` writes out all that is buffered before it, so only the header itself
is left for `fclose`. All exits but the first two go through one label.
-/

namespace Libumem.Inspect
open List Arith

/-- How a collection ended: with everything, with too little room after the last attempt, or with a
`realloc` that failed. -/
inductive Collected
  | complete
  | truncated
  | refused
  deriving DecidableEq

/-- What each attempt of a collection meets, and whether the `realloc` behind it succeeds. -/
structure Walk (α : Type) where
  seen : Nat → List α
  realloc : Nat → Bool

/-- `UMEM_SNAP_TRIES`. -/
def snapTries : Nat := 5

/-- `UMEM_SNAP_SLACK`. -/
def snapSlack : Nat := 256

/-- The loop of the collections, with `n` attempts left and room for `cap` records. -/
def collect {α : Type} (want : Nat → Nat) (w : Walk α) : Nat → Nat → Nat → List α →
    Collected × List α
  | 0, _, _, l => (.truncated, l)
  | n + 1, try', cap, _ =>
    let needed := (w.seen try').length
    let l := (w.seen try').take cap
    if needed ≤ cap then (.complete, l)
    else if w.realloc try' then collect want w n (try' + 1) (want needed) l
    else (.refused, l)

def snapCollect {α : Type} (w : Walk α) : Collected × List α :=
  collect (fun needed => needed + needed / 4 + snapSlack) w snapTries 0 0 []

/-- The set is sorted for the search in it, which leaves its members. -/
def cachedSetBuildAll (w : Walk Word) : Collected × List Word := snapCollect w

/-- A cache with its summary. The table and the summaries grow together. -/
def snapshotCollectCaches {σ : Type} (w : Walk (Word × σ)) (summaryRealloc : Nat → Bool) :
    Collected × List (Word × σ) :=
  collect (fun needed => needed + 16) ⟨w.seen, fun t => w.realloc t && summaryRealloc t⟩ snapTries 0
    0 []

inductive BufState
  | unknown
  | allocated
  | free
  | cached

/-- `umem_buffer_info_t`, where the length of `stack` is the depth. -/
structure BufferInfo where
  addr : Word
  size : Word
  cache : Word
  timestamp : Word
  thread : Word
  state : BufState
  stack : List Word

structure BufferRecord where
  addr : Word
  size : Word
  cacheIdx : Word
  timestampNs : Word
  thread : Word
  depth : Nat
  state : BufState
  stack : List Word

inductive Record (σ : Type)
  | cache (summary : σ)
  | buffer (rec : BufferRecord)
  | log (rec : BufferRecord)

structure Header where
  nCaches : Nat
  nBuffers : Nat
  nLogRecords : Nat

/-- What the calls out of `snapshot_v2_write` meet: `fwrite n` is the outcome of the `n`-th one. -/
structure Env (σ : Type) where
  umemOpenWrite : Bool
  fdopen : Bool
  fwrite : Nat → Bool
  fseek : Bool
  fclose : Bool
  magazines : Walk Word
  caches : Walk (Word × σ)
  summaryRealloc : Nat → Bool
  allocated : Walk BufferInfo
  log : Walk BufferInfo

inductive Local
  | sfd
  | fp
  | cacheTable
  | cacheSummary
  | cs
  deriving DecidableEq

/-- What the label `out` destroys. -/
def locals : List Local := [.fp, .cacheTable, .cacheSummary, .cs]

theorem locals_nodup : locals.Nodup := by decide

structure Result (σ : Type) where
  ret : Int
  initialised : List Local
  destroyed : List Local
  /-- The outcomes of the steps taken. -/
  steps : List Bool
  /-- The header in the file, unless it is the one that reserves the space. -/
  header : Option Header
  records : List (Record σ)

variable {σ : Type}

namespace Env

/-- `UINT64_MAX` for a cache that is not in the table. -/
def snapshotCacheIdx (env : Env σ) (cp : Word) : Word :=
  let table := (snapshotCollectCaches env.caches env.summaryRealloc).2.map (·.1)
  if cp ∈ table then BitVec.ofNat 64 (table.idxOf cp) else -1

def snapshotBufferToRecord (env : Env σ) (info : BufferInfo) : BufferRecord :=
  { addr := info.addr, size := info.size, cacheIdx := env.snapshotCacheIdx info.cache
    timestampNs := info.timestamp, thread := info.thread, depth := info.stack.length
    state := info.state, stack := info.stack.take 32 }

def summaries (env : Env σ) : List σ :=
  (snapshotCollectCaches env.caches env.summaryRealloc).2.map (·.2)

/-- What `snapshot_buffer_cb` writes for the live buffers. -/
def buffers (env : Env σ) : List BufferRecord :=
  (snapCollect env.allocated).2.map fun info =>
    let rec' := env.snapshotBufferToRecord info
    if info.addr ∈ (cachedSetBuildAll env.magazines).2 then { rec' with state := .cached } else rec'

/-- What `snapshot_log_cb` writes for the transaction log. -/
def logs (env : Env σ) : List BufferRecord :=
  (snapCollect env.log).2.map env.snapshotBufferToRecord

/-- The loops that write records behind the `done` ones, up to the first `fwrite` that fails. -/
def writeAll (env : Env σ) : List (Record σ) → List (Record σ) → List (Record σ) × Bool
  | done, [] => (done, true)
  | done, r :: rs => if env.fwrite (done.length + 1) then writeAll env (done ++ [r]) rs
    else (done, false)

/-- The label `out`, where `header` is `none` when `st.err` is set. -/
def out (env : Env σ) (initialised : List Local) (steps : List Bool) (records : List (Record σ))
    (header : Option Header) : Result σ :=
  { ret := if header.isSome then 0 else -1
    initialised := initialised
    destroyed := locals
    steps := steps ++ [env.fclose]
    header := if env.fclose then header else none
    records := records }

def snapshotV2Write (env : Env σ) : Result σ :=
  if env.umemOpenWrite = false then ⟨-1, [], [], [false], none, []⟩
  else if env.fdopen = false then ⟨-1, [.sfd], [.sfd], [true, false], none, []⟩
  -- the declaration of `cs` is behind the jump
  else if env.fwrite 0 = false then
    env.out [.fp, .cacheTable, .cacheSummary] [true, true, false] [] none
  else
    let caches := (snapshotCollectCaches env.caches env.summaryRealloc).1
    let steps := [true, true, true, (cachedSetBuildAll env.magazines).1 == .complete,
      caches == .complete]
    if caches = .refused then env.out locals steps [] none
    else
      let (cacheEnd, ok) := env.writeAll [] (env.summaries.map .cache)
      if ok = false then env.out locals (steps ++ [false]) cacheEnd none
      else
        let steps := steps ++ [true, (snapCollect env.allocated).1 == .complete]
        let (bufferEnd, ok) := env.writeAll cacheEnd (env.buffers.map .buffer)
        if ok = false then env.out locals (steps ++ [false]) bufferEnd none
        else
          let steps := steps ++ [true, (snapCollect env.log).1 == .complete]
          let (logEnd, ok) := env.writeAll bufferEnd (env.logs.map .log)
          if ok = false then env.out locals (steps ++ [false]) logEnd none
          else if (env.fseek && env.fwrite (logEnd.length + 1)) = false then
            env.out locals (steps ++ [true, false]) logEnd none
          else
            env.out locals (steps ++ [true, true]) logEnd (some ⟨env.summaries.length,
              bufferEnd.length - cacheEnd.length, logEnd.length - bufferEnd.length⟩)

/-- The steps whose outcomes are tested all succeed. -/
structure Checked (env : Env σ) : Prop where
  umemOpenWrite : env.umemOpenWrite = true
  fdopen : env.fdopen = true
  caches : (snapshotCollectCaches env.caches env.summaryRealloc).1 ≠ .refused
  fwrite : ∀ i < env.summaries.length + env.buffers.length + env.logs.length + 2,
    env.fwrite i = true
  fseek : env.fseek = true

/-- The steps whose outcomes are not tested all succeed. -/
structure Unchecked (env : Env σ) : Prop where
  magazines : (cachedSetBuildAll env.magazines).1 = .complete
  caches : (snapshotCollectCaches env.caches env.summaryRealloc).1 = .complete
  allocated : (snapCollect env.allocated).1 = .complete
  log : (snapCollect env.log).1 = .complete
  fclose : env.fclose = true

end Env

/-- The header counts the records behind it. -/
def Result.Whole (r : Result σ) : Prop :=
  ∃ (summaries : List σ) (buffers logs : List BufferRecord),
    r.header = some ⟨summaries.length, buffers.length, logs.length⟩ ∧
      r.records = summaries.map .cache ++ buffers.map .buffer ++ logs.map .log

/-- What is destroyed was initialised and is destroyed once, 0 stands for a whole file, and every
failed step is reported. -/
structure Result.Sound (r : Result σ) : Prop where
  initialised : ∀ x ∈ r.destroyed, x ∈ r.initialised
  once : r.destroyed.Nodup
  whole : r.ret = 0 ↔ r.Whole
  failed : false ∈ r.steps → r.ret = -1

theorem Result.Sound.of_failed {r : Result σ} (hinit : ∀ x ∈ r.destroyed, x ∈ r.initialised)
    (honce : r.destroyed.Nodup) (hret : r.ret = -1) (hheader : r.header = none) : r.Sound where
  initialised := hinit
  once := honce
  whole := by simp [hret, Whole, hheader]
  failed := fun _ => hret

namespace Env
variable {env : Env σ} {done rs : List (Record σ)}

theorem writeAll_eq (h : ∀ i, done.length < i → i ≤ done.length+rs.length → env.fwrite i = true) :
    env.writeAll done rs = (done ++ rs, true) := by
  induction rs generalizing done with
  | nil => rw [writeAll, append_nil]
  | cons r rs ih =>
    simp only [length_cons] at h
    rw [writeAll, if_pos (h _ (by omega) (by omega)), ih, append_assoc, singleton_append]
    intro i hlt hle
    simp only [length_append, length_singleton] at hlt hle
    exact h i (by omega) (by omega)

theorem fwrite_of_writeAll (h : (env.writeAll done rs).2 ≠ false) :
    ∀ i, done.length < i → i ≤ done.length+rs.length → env.fwrite i = true := by
  induction rs generalizing done with
  | nil =>
    intro i hlt hle
    exact absurd hle (by simpa using hlt)
  | cons r rs ih =>
    rw [writeAll] at h
    split at h
    · rename_i hfirst
      have hrest := ih h
      simp only [length_append, length_singleton] at hrest
      intro i hlt hle
      rw [length_cons] at hle
      by_cases hi : i = done.length+1
      · exact hi ▸ hfirst
      · exact hrest i (by omega) (by omega)
    · simp at h

theorem snapshotV2Write_checked (h : env.Checked) : env.snapshotV2Write =
    env.out locals [true, true, true, (cachedSetBuildAll env.magazines).1 == .complete,
      (snapshotCollectCaches env.caches env.summaryRealloc).1 == .complete, true,
      (snapCollect env.allocated).1 == .complete, true, (snapCollect env.log).1 == .complete,
      true, true] (env.summaries.map .cache ++ env.buffers.map .buffer ++ env.logs.map .log)
      (some ⟨env.summaries.length, env.buffers.length, env.logs.length⟩) := by
  have hw := h.fwrite
  unfold snapshotV2Write
  rw [if_neg (by simp [h.umemOpenWrite]), if_neg (by simp [h.fdopen]),
    if_neg (by simp [hw 0 (by omega)])]
  dsimp only
  rw [if_neg h.caches, writeAll_eq fun i _ hi => hw i (by simp at hi; omega)]
  dsimp only
  rw [if_neg (by simp), writeAll_eq fun i _ hi => hw i (by simp at hi; omega)]
  dsimp only
  rw [if_neg (by simp), writeAll_eq fun i _ hi => hw i (by simp at hi; omega)]
  dsimp only
  rw [if_neg (by simp), if_neg (by simp [h.fseek, hw _ (Nat.lt_succ_self _), ← Nat.add_assoc])]
  simp [← Nat.add_assoc]

theorem snapshotV2Write_not_checked (hopen : env.umemOpenWrite = true) (hfd : env.fdopen = true)
    (hw : env.fwrite 0 = true) (h : ¬env.Checked) :
    ∃ steps records, env.snapshotV2Write = env.out locals steps records none := by
  unfold snapshotV2Write
  rw [if_neg (by simp [hopen]), if_neg (by simp [hfd]), if_neg (by simp [hw])]
  dsimp only
  split
  · exact ⟨_, _, rfl⟩
  rename_i hcaches
  split
  · exact ⟨_, _, rfl⟩
  rename_i hok
  have h1 := fwrite_of_writeAll hok
  rw [writeAll_eq h1]
  split
  · exact ⟨_, _, rfl⟩
  rename_i hok
  have h2 := fwrite_of_writeAll hok
  rw [writeAll_eq h2]
  split
  · exact ⟨_, _, rfl⟩
  rename_i hok
  have h3 := fwrite_of_writeAll hok
  rw [writeAll_eq h3]
  split
  · exact ⟨_, _, rfl⟩
  rename_i hlast
  simp only [nil_append, length_append, length_map, length_nil, Bool.and_eq_false_iff, not_or,
    Bool.not_eq_false] at h1 h2 h3 hlast
  refine absurd ⟨hopen, hfd, hcaches, ?_, hlast.1⟩ h
  intro i hi
  -- the `fwrite` is the one of the first header, of a record of one kind or of the last header
  grind

theorem snapshotV2Write_sound_of_checked (h : env.Checked) :
    env.snapshotV2Write.Sound ↔ env.Unchecked := by
  rw [snapshotV2Write_checked h]
  constructor
  · intro hs
    have hsteps := mt hs.failed (by simp [out])
    simp [out] at hsteps
    obtain ⟨hmagazines, hcaches, hallocated, hlog, hclose⟩ := hsteps
    exact ⟨hmagazines, hcaches, hallocated, hlog, hclose⟩
  · rintro ⟨hmagazines, hcaches, hallocated, hlog, hclose⟩
    refine ⟨fun _ hx => hx, locals_nodup, iff_of_true rfl ?_, ?_⟩
    · exact ⟨env.summaries, env.buffers, env.logs, if_pos hclose, rfl⟩
    · simp [out, hmagazines, hcaches, hallocated, hlog, hclose]

/-- The path is sound except when the first write fails, which jumps past the initialisation of the
cached set, and when a failure that is not tested is the only one. -/
theorem snapshot_v2_write_sound_iff (env : Env σ) : env.snapshotV2Write.Sound ↔
    (env.umemOpenWrite = true → env.fdopen = true → env.fwrite 0 = true) ∧
      (env.Checked → env.Unchecked) := by
  by_cases hopen : env.umemOpenWrite = true
  · by_cases hfd : env.fdopen = true
    · by_cases hw : env.fwrite 0 = true
      · simp only [hopen, hfd, hw, true_and, forall_const]
        by_cases h : env.Checked
        · simp only [h, forall_const]
          exact snapshotV2Write_sound_of_checked h
        · obtain ⟨steps, records, hresult⟩ := snapshotV2Write_not_checked hopen hfd hw h
          rw [hresult]
          exact iff_of_true (.of_failed (fun _ hx => hx) locals_nodup rfl (ite_self _)) fun h' =>
            absurd h' h
      · have hresult : env.snapshotV2Write =
            env.out [.fp, .cacheTable, .cacheSummary] [true, true, false] [] none := by
          simp [snapshotV2Write, hopen, hfd, hw]
        rw [hresult]
        refine iff_of_false (fun h => ?_) fun h => hw (h.1 hopen hfd)
        simpa [out] using h.initialised .cs (by simp [out, locals])
    · have hresult : env.snapshotV2Write = ⟨-1, [.sfd], [.sfd], [true, false], none, []⟩ := by
        simp [snapshotV2Write, hopen, hfd]
      rw [hresult]
      exact iff_of_true (.of_failed (fun _ hx => hx) (by simp) rfl rfl)
        ⟨fun _ h => absurd h hfd, fun h => absurd h.fdopen hfd⟩
  · have hresult : env.snapshotV2Write = ⟨-1, [], [], [false], none, []⟩ := by
      simp [snapshotV2Write, hopen]
    rw [hresult]
    exact iff_of_true (.of_failed (fun _ hx => hx) (by simp) rfl rfl)
      ⟨fun h => absurd h hopen, fun h => absurd h.umemOpenWrite hopen⟩

def healthy : Env Unit where
  umemOpenWrite := true
  fdopen := true
  fwrite := fun _ => true
  fseek := true
  fclose := true
  magazines := ⟨fun _ => [], fun _ => true⟩
  caches := ⟨fun _ => [], fun _ => true⟩
  summaryRealloc := fun _ => true
  allocated := ⟨fun _ => [⟨64, 8, 0, 0, 0, .allocated, []⟩], fun _ => true⟩
  log := ⟨fun _ => [], fun _ => true⟩

/-- When there is no memory for the live buffers, none are written and the snapshot still counts as
written; when the first write fails, a cached set that does not exist is destroyed. -/
theorem snapshot_v2_write_unsound :
    ¬({ healthy with allocated := ⟨healthy.allocated.seen, fun _ => false⟩ } : Env
      Unit).snapshotV2Write.Sound ∧
    ¬({ healthy with fwrite := fun n => decide (n ≠ 0) } : Env Unit).snapshotV2Write.Sound := by
  constructor
  · intro h
    exact absurd (h.failed (by decide)) (by decide)
  · intro h
    exact absurd (h.initialised .cs (by decide)) (by decide)

end Env

end Libumem.Inspect
