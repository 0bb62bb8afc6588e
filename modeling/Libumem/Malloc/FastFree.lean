import Libumem.Lib.Scan
import Libumem.Malloc.Codec

/-!
# The fast path of free

`umem_malloc_free` decides by itself about the two layouts with one status word and leaves the rest
to `process_free_umem`. Whether a block lies in a heap span is first looked up in a cache that each
thread has of the last span it found. The generation that goes with the cached span is the one that
was read before the search, so a span that a writer moved in the meantime is never taken for a
current one.
-/

namespace Libumem.Malloc
open Option Arith Lib Vmem

/-! ### A thread's cache while the span table is written -/

/-- `span_owns_cached` with the generation that it read at first. -/
def spanOwnsCachedAt (gen : BitVec 32) (spans : SpanTable) (cache : SpanCache) (addr len : Word) :
    Bool × SpanCache :=
  if gen = cache.gen ∧ cache.lo ≤ addr ∧ addr + len ≤ cache.hi then (true, cache)
  else
    match vmemSpanFind spans addr len with
    | none => (false, cache)
    | some span =>
      if span.vseBase ≠ 0 ∧ gen &&& 1 = 0 then (true, ⟨span.vseBase, span.vseEnd, gen⟩)
      else (true, cache)

theorem spanOwnsCached_eq (heap : HeapView) (cache : SpanCache) (addr len : Word) :
    spanOwnsCached heap cache addr len =
      spanOwnsCachedAt heap.spans.vmemSpanSeq heap.spans cache addr len := rfl

/-- What `vmem_span_create` does to the hull for a span of the heap. -/
def Hull.widen (hull : Hull) (start stop : Word) : Hull where
  lo := if start < hull.lo then start else hull.lo
  hi := if hull.hi < stop then stop else hull.hi

/-- `hull` is inside `hull'`. -/
def Hull.Within (hull hull' : Hull) : Prop := hull'.lo ≤ hull.lo ∧ hull.hi ≤ hull'.hi

theorem Hull.within_widen (hull : Hull) (start stop : Word) :
    hull.Within (hull.widen start stop) := by
  unfold Hull.Within Hull.widen
  dsimp only
  constructor
  · split
    · bv_omega
    · exact BitVec.le_refl _
  · split
    · bv_omega
    · exact BitVec.le_refl _

/-- What the heap publishes about its spans, and a thread that asks for them. -/
structure SpanReader where
  hull : Hull
  spans : SpanTable
  cache : SpanCache
  /-- The generation that a call of `span_owns_cached` under way has read. -/
  gen : Option (BitVec 32)

inductive SpanOp
  | insert (base stop : Word)
  | remove (base stop : Word)
  /-- A call reads the generation, between two writes or in the middle of one. -/
  | readGen (busy : Bool)
  /-- The rest of the call, with the search when no write is under way. -/
  | answer (addr len : Word)
  deriving DecidableEq, Repr

def SpanReader.step (r : SpanReader) : SpanOp → Option SpanReader
  | .insert base stop =>
    some { r with
      hull := r.hull.widen base stop
      spans := vmemSpanTableInsert r.spans base stop }
  | .remove base stop => some { r with spans := vmemSpanTableRemove r.spans base stop }
  | .readGen busy =>
    some { r with gen := some (if busy then r.spans.vmemSpanSeq + 1 else r.spans.vmemSpanSeq) }
  | .answer addr len =>
    r.gen.map fun gen =>
      { r with cache := (spanOwnsCachedAt gen r.spans r.cache addr len).2, gen := none }

/-- The spans of an arena do not overlap, and the generation has not come round. -/
def SpanOp.Allowed (r : SpanReader) : SpanOp → Prop
  | .insert base stop => r.spans.Apart base stop ∧ r.spans.vmemSpanSeq.toNat + 2 < 2 ^ 32
  | .remove _ _ => r.spans.vmemSpanSeq.toNat + 2 < 2 ^ 32
  | _ => True

def SpanReader.Step (r : SpanReader) (op : SpanOp) (r' : SpanReader) : Prop :=
  op.Allowed r ∧ r.step op = some r'

def SpanReader.init : SpanReader where
  hull := ⟨BitVec.allOnes 64, 0⟩
  spans := ⟨0, false, 0, fun _ => ⟨0, 0⟩⟩
  cache := ⟨0, 0, 0⟩
  gen := none

/-- What a thread's cache is worth. -/
structure SpanReader.Valid (r : SpanReader) : Prop where
  sorted : r.spans.Sorted
  even : r.spans.vmemSpanSeq.toNat % 2 = 0
  old : r.cache.gen.toNat ≤ r.spans.vmemSpanSeq.toNat
  cached : r.cache.gen = r.spans.vmemSpanSeq → r.cache.hi = 0 ∨
    ∃ k < r.spans.vmemSpanCnt, r.spans.vmemSpanTab k = ⟨r.cache.lo, r.cache.hi⟩
  pending : ∀ g ∈ r.gen, g.toNat % 2 = 0 → g.toNat ≤ r.spans.vmemSpanSeq.toNat

namespace SpanReader
variable {r r' : SpanReader} {op : SpanOp} {addr len : Word}

theorem Valid.init : init.Valid := by
  refine ⟨⟨?_, ?_⟩, rfl, le_refl _, fun _ => .inl rfl, ?_⟩
  · intro i hi
    exact absurd hi (Nat.not_lt_zero i)
  · intro i j _ hj
    exact absurd hj (Nat.not_lt_zero j)
  · intro g hg
    simp [SpanReader.init] at hg

theorem and_one_eq_zero_iff (g : BitVec 32) : g &&& 1 = 0 ↔ g.toNat % 2 = 0 := by
  rw [← BitVec.toNat_inj, BitVec.toNat_and]
  change g.toNat &&& 1 = 0 ↔ _
  rw [Nat.and_one_is_mod]

theorem Valid.write {hull : Hull} {spans : SpanTable} (h : r.Valid) (hsorted : spans.Sorted)
    (hbound : r.spans.vmemSpanSeq.toNat+2 < 2^32)
    (hseq : spans.vmemSpanSeq = r.spans.vmemSpanSeq+1+1) :
    Valid { r with hull := hull, spans := spans } := by
  have hnat : spans.vmemSpanSeq.toNat = r.spans.vmemSpanSeq.toNat+2 := by
    rw [hseq]
    bv_omega
  have heven := h.even
  have hold := h.old
  refine ⟨hsorted, by simp only; omega, by simp only; omega, ?_, ?_⟩
  · intro heq
    simp only at heq
    rw [heq] at hold
    omega
  · intro g hg hg2
    have := h.pending g hg hg2
    simp only
    omega

theorem Valid.answer {gen : BitVec 32} (h : r.Valid) (hgen : r.gen = some gen) :
    Valid { r with cache := (spanOwnsCachedAt gen r.spans r.cache addr len).2, gen := none } := by
  have hnone : ∀ g ∈ (none : Option (BitVec 32)), g.toNat % 2 = 0 →
      g.toNat ≤ r.spans.vmemSpanSeq.toNat := by
    intro g hg
    simp at hg
  have hkeep : Valid { r with gen := none } := ⟨h.sorted, h.even, h.old, h.cached, hnone⟩
  unfold spanOwnsCachedAt
  split
  · exact hkeep
  split
  · exact hkeep
  rename_i span hfind
  split
  · rename_i hnew
    have hle := h.pending gen hgen ((and_one_eq_zero_iff gen).mp hnew.2)
    refine ⟨h.sorted, h.even, hle, fun _ => .inr ?_, hnone⟩
    have hsat : r.spans.vmemSpanSaturated = false := by
      by_contra hsat
      unfold vmemSpanFind at hfind
      rw [Bool.eq_true_of_not_eq_false hsat] at hfind
      dsimp only at hfind
      split at hfind
      · simp at hfind
      · rw [if_pos rfl] at hfind
        cases hfind
        exact hnew.1 rfl
    obtain ⟨k, hk, he, -⟩ := vmemSpanFind_mem hsat hfind
    exact ⟨k, hk, he⟩
  · exact hkeep

theorem Valid.step (h : r.Valid) (hs : r.Step op r') : r'.Valid := by
  obtain ⟨ha, hs⟩ := hs
  cases op with
  | insert base stop =>
    cases hs
    rcases SpanTable.seq_insert r.spans base stop with hseq | hsat
    · exact h.write (h.sorted.insert ha.1) ha.2 hseq
    · rw [hsat]
      exact ⟨⟨h.sorted.nonempty, h.sorted.apart⟩, h.even, h.old, h.cached, h.pending⟩
  | remove base stop =>
    cases hs
    rcases SpanTable.seq_remove r.spans base stop with hseq | hsame
    · exact h.write h.sorted.remove ha hseq
    · rw [hsame]
      exact h
  | readGen busy =>
    cases hs
    refine ⟨h.sorted, h.even, h.old, h.cached, ?_⟩
    intro g hg hg2
    cases hg
    have heven := h.even
    cases busy with
    | false => exact le_refl _
    | true =>
      simp only [if_true] at hg2 ⊢
      bv_omega
  | answer addr len =>
    obtain ⟨gen, hgen, rfl⟩ := map_eq_some_iff.mp hs
    exact h.answer hgen

theorem Valid.answer_eq (h : r.Valid) (hlen : len ≠ 0) (hwrap : ¬ addr+len < addr) :
    (spanOwnsCachedAt r.spans.vmemSpanSeq r.spans r.cache addr len).1 =
      (vmemSpanFind r.spans addr len).isSome := by
  unfold spanOwnsCachedAt
  split
  · rename_i hhit
    obtain ⟨hgen, hlo, hhi⟩ := hhit
    rcases h.cached hgen.symm with hzero | ⟨k, hk, he⟩
    · exfalso
      rw [hzero] at hhi
      bv_omega
    · symm
      apply vmemSpanFind_isSome h.sorted hk
      · rw [he]
        exact hlo
      · exact hlen
      · rw [he]
        simp only
        bv_omega
  · split
    · rename_i hfind
      rw [hfind]
      rfl
    · rename_i span hfind
      rw [hfind]
      split <;> rfl

theorem run_valid {ops : List SpanOp} (h : Runs Step init ops r) : r.Valid := by
  apply Runs.invariant _ h Valid.init
  intro r op r' h hs
  exact h.step hs

theorem within_run {ops : List SpanOp} (h : Runs Step r ops r') : r.hull.Within r'.hull := by
  apply @Runs.invariant _ _ _ _ _ _ (fun r' => r.hull.Within r'.hull) _ h
    ⟨BitVec.le_refl _, BitVec.le_refl _⟩
  rintro r₁ op r₂ hw ⟨-, hs⟩
  cases op with
  | insert base stop =>
    cases hs
    have hstep := r₁.hull.within_widen base stop
    exact ⟨BitVec.le_trans hstep.1 hw.1, BitVec.le_trans hw.2 hstep.2⟩
  | remove base stop | readGen busy =>
    cases hs
    exact hw
  | answer addr len =>
    obtain ⟨gen, -, rfl⟩ := map_eq_some_iff.mp hs
    exact hw

/-- A hull that was loaded, one bound after the other, at some time before. -/
def Loaded (r : SpanReader) (hull : Hull) : Prop :=
  (∃ r₀ ops, Runs Step r₀ ops r ∧ hull.lo = r₀.hull.lo) ∧
    ∃ r₀ ops, Runs Step r₀ ops r ∧ hull.hi = r₀.hull.hi

theorem Loaded.within {hull : Hull} (h : r.Loaded hull) : hull.Within r.hull := by
  obtain ⟨⟨r₁, ops₁, hrun₁, hlo⟩, r₂, ops₂, hrun₂, hhi⟩ := h
  unfold Hull.Within
  rw [hlo, hhi]
  exact ⟨(within_run hrun₁).1, (within_run hrun₂).2⟩

end SpanReader

/-! ### The two ways to free -/

section
variable {heap heap' : HeapView} {cache : SpanCache} {a n : Word} {mem mem' : Mem} {p : Word}

theorem hullContains_iff {hull : Hull} : hullContains hull a n = true ↔
    a ≠ 0 ∧ n ≠ 0 ∧ ¬ a+n < a ∧ hull.lo ≤ a ∧ a+n ≤ hull.hi := by
  unfold hullContains
  dsimp only
  split
  · rename_i h
    simp only [Bool.false_eq_true, false_iff]
    rintro ⟨h1, h2, h3, -⟩
    rcases h with h | h | h
    · exact h1 h
    · exact h2 h
    · exact h3 h
  · rename_i h
    simp only [not_or] at h
    rw [Bool.and_eq_true, decide_eq_true_iff, decide_eq_true_iff]
    exact ⟨fun hh => ⟨h.1, h.2.1, h.2.2, hh⟩, fun hh => hh.2.2.2⟩

theorem hullContains_mono {hull hull' : Hull} (h : hull.Within hull')
    (ha : hullContains hull a n = true) : hullContains hull' a n = true := by
  rw [hullContains_iff] at ha ⊢
  exact ⟨ha.1, ha.2.1, ha.2.2.1, BitVec.le_trans h.1 ha.2.2.2.1, BitVec.le_trans ha.2.2.2.2 h.2⟩

theorem mayRead_eq (h : heap.loaded.Within heap.current) :
    mayRead heap a n = hullContains heap.current a n := by
  unfold mayRead
  cases hl : hullContains heap.loaded a n with
  | false => rfl
  | true => rw [hullContains_mono h hl, Bool.or_true]

theorem spanOwnsCached_false (h : (spanOwnsCached heap cache a n).1 = false) :
    spanOwnsCached heap cache a n = (false, cache) := by
  unfold spanOwnsCached at h ⊢
  dsimp only at h ⊢
  split
  · rename_i hhit
    rw [if_pos hhit] at h
    simp at h
  · rename_i hmiss
    rw [if_neg hmiss] at h
    split
    · rfl
    · rename_i span hfind
      rw [hfind] at h
      dsimp only at h
      split at h <;> simp at h

theorem mayOwn_eq (h : heap.loaded.Within heap.current) :
    mayOwn heap cache a n = umemMayOwn heap cache a n := by
  unfold mayOwn
  split
  · rename_i hl
    dsimp only
    split
    · rename_i howns
      rw [umemMayOwn, hullContains_mono h hl, if_neg (by simp), ← howns]
    · rename_i howns
      rw [spanOwnsCached_false (Bool.eq_false_of_not_eq_true howns)]
  · rfl

section
variable (h : heap.loaded.Within heap.current) (h' : heap'.loaded.Within heap'.current)
  (hcur : heap'.current = heap.current)
include h h' hcur

theorem decodeTags_current : decodeTags heap' mem p = decodeTags heap mem p := by
  have hread : ∀ a n, mayRead heap' a n = mayRead heap a n := by
    intro a n
    rw [mayRead_eq h, mayRead_eq h', hcur]
  unfold decodeTags decodeTwoTags
  simp only [hread]

theorem processFreeUmem_current (hspans : heap'.spans = heap.spans) (doFree : Bool) :
    processFreeUmem heap' cache mem p doFree = processFreeUmem heap cache mem p doFree := by
  have hown : ∀ a n, mayOwn heap' cache a n = mayOwn heap cache a n := by
    intro a n
    rw [mayOwn_eq h, mayOwn_eq h', umemMayOwn, umemMayOwn, spanOwnsCached_eq, spanOwnsCached_eq,
      hcur, hspans]
  unfold processFreeUmem acceptTags
  simp only [hown, decodeTags_current h h' hcur]

end

/-- What the fast path frees, the slow one would free in the same way. -/
theorem mallocFreeFast_some {got : Obtained × Mem} {cache' : SpanCache}
    (h : mallocFreeFast heap cache mem p = (some got, cache')) :
    processFreeUmem heap cache mem p true = (.freed got.1, got.2, cache') := by
  unfold mallocFreeFast at h
  dsimp only at h
  split at h
  · simp at h
  rename_i hhull
  have hread : mayRead heap (p-tagSize) tagSize = true := by
    rw [mayRead, Bool.eq_true_of_not_eq_false hhull, Bool.true_or]
  -- the tests of the block, for the start and the overhead of either layout
  have hblock : ∀ (c : Claimed), decodeTags heap mem p = .ok c → c.npoison = 1 →
      c.poisonLo = p-tagSize → c.memalign = false →
      (if c.size < c.overheadMin then ((none : Option (Obtained × Mem)), cache)
        else if hullContains heap.loaded c.base c.size = false then (none, cache)
        else if (spanOwnsCached heap cache c.base c.size).1 = true then
          (some (⟨.umem, c.base, c.size⟩,
            Function.update mem (p-tagSize+4) umemFreePattern32),
            (spanOwnsCached heap cache c.base c.size).2)
        else (none, (spanOwnsCached heap cache c.base c.size).2)) = (some got, cache') →
      processFreeUmem heap cache mem p true = (.freed got.1, got.2, cache') := by
    intro c hc hn hlo hm h
    split at h
    · simp at h
    rename_i hsize
    split at h
    · simp at h
    rename_i hloaded
    split at h
    · rename_i howns
      simp only [Prod.mk.injEq, some.injEq] at h
      obtain ⟨rfl, rfl⟩ := h
      have hmay : mayOwn heap cache c.base c.size =
          (true, (spanOwnsCached heap cache c.base c.size).2) := by
        rw [mayOwn, if_pos (Bool.eq_true_of_not_eq_false hloaded)]
        dsimp only
        rw [if_pos howns]
      unfold processFreeUmem acceptTags
      rw [hc]
      dsimp only
      rw [if_neg hsize, hmay]
      dsimp only
      rw [if_pos rfl]
      dsimp only
      rw [if_pos rfl, hn, hlo, Claimed.block, hm]
      rfl
    · simp at h
  have hdecode : decodeTags heap mem p = decodeTags heap mem p := rfl
  conv_rhs at hdecode => unfold decodeTags
  dsimp only at hdecode
  rw [hread, if_neg (by simp)] at hdecode
  split at h
  · rename_i hmagic
    rcases hmagic with hmagic | hmagic
    · rw [if_pos hmagic] at hdecode
      rw [if_pos hmagic, if_pos hmagic] at h
      exact hblock _ hdecode rfl rfl rfl h
    · have hne : ¬ mallocSecondMagic = mallocMagic := by decide
      rw [hmagic, if_neg hne, if_pos rfl] at hdecode
      rw [hmagic, if_neg hne, if_neg hne] at h
      exact hblock _ hdecode rfl rfl rfl h
  · simp at h

theorem mallocFreeFast_none {cache' : SpanCache}
    (h : mallocFreeFast heap cache mem p = (none, cache')) : cache' = cache := by
  unfold mallocFreeFast at h
  dsimp only at h
  split at h
  · exact (Prod.mk.inj h).2.symm
  split at h
  · generalize (if _ = mallocMagic then p-tagSize else _) = base at h
    generalize (if _ = mallocMagic then tagSize else _) = overhead at h
    split at h
    · exact (Prod.mk.inj h).2.symm
    split at h
    · exact (Prod.mk.inj h).2.symm
    split at h
    · simp at h
    · rename_i howns
      rw [spanOwnsCached_false (Bool.eq_false_of_not_eq_true howns)] at h
      exact (Prod.mk.inj h).2.symm
  · exact (Prod.mk.inj h).2.symm

def AgreeInside (hull : Hull) (mem mem' : Mem) : Prop :=
  ∀ a : Word, hull.lo ≤ a → a.toNat + 4 ≤ hull.hi.toNat → mem' a = mem a

theorem AgreeInside.readTag {hull : Hull} (h : AgreeInside hull mem mem')
    (ha : hullContains hull a tagSize = true) : readTag mem' a = readTag mem a := by
  obtain ⟨-, -, hwrap, hlo, hhi⟩ := hullContains_iff.mp ha
  simp only [tagSize] at hwrap hhi
  apply readTag_congr
  · exact h a hlo (by bv_omega)
  · exact h (a+4) (by bv_omega) (by bv_omega)

theorem decodeTags_agree (hw : heap.loaded.Within heap.current)
    (h : AgreeInside heap.current mem mem') : decodeTags heap mem' p = decodeTags heap mem p := by
  have htwo : ∀ buf low type memalign, decodeTwoTags heap mem' buf low type memalign =
      decodeTwoTags heap mem buf low type memalign := by
    intro buf low type memalign
    unfold decodeTwoTags
    dsimp only
    split
    · rfl
    · rename_i hread
      rw [mayRead_eq hw] at hread
      rw [h.readTag (Bool.eq_true_of_not_eq_false hread)]
  unfold decodeTags
  dsimp only
  split
  · rfl
  · rename_i hread
    rw [mayRead_eq hw] at hread
    rw [h.readTag (Bool.eq_true_of_not_eq_false hread)]
    simp only [htwo]

theorem processFreeUmem_agree (hw : heap.loaded.Within heap.current)
    (h : AgreeInside heap.current mem mem') (doFree : Bool) :
    (processFreeUmem heap cache mem' p doFree).1 = (processFreeUmem heap cache mem p doFree).1 ∧
      (processFreeUmem heap cache mem' p doFree).2.2 =
        (processFreeUmem heap cache mem p doFree).2.2 := by
  unfold processFreeUmem acceptTags
  rw [decodeTags_agree hw h]
  split
  · exact ⟨rfl, rfl⟩
  · cases doFree <;> exact ⟨rfl, rfl⟩

end

/-- What a call did and left behind. -/
structure Outcome where
  result : Processed
  state : State
  cache : SpanCache
  errno : Int

/-- `process_free_umem`, where `sets` says what the report or the allocator makes of `errno`. -/
def processFreeUmemErrno (sets : Processed → Int → Int) (heap : HeapView) (cache : SpanCache)
    (s : State) (bufArg : Word) (doFree : Bool) (errno : Int) : Outcome :=
  let oldErrno := errno
  let (r, mem, cache) := processFreeUmem heap cache s.mem bufArg doFree
  let _errno := sets r errno
  ⟨r, { s with mem := mem }, cache, oldErrno⟩

/-- `umem_malloc_free`, which loads the hull `early` and leaves to `process_free_umem` to load it
once more. -/
def umemMallocFreeErrno (sets : Processed → Int → Int) (early : Hull) (heap : HeapView)
    (cache : SpanCache) (s : State) (buf : Word) (errno : Int) : Outcome :=
  if buf = 0 then ⟨.nothing, s, cache, errno⟩
  else if bootstrapPointerP s.boot buf then
    let (r, s, cache) := umemMallocFree heap cache s buf
    ⟨r, s, cache, sets r errno⟩
  else
    match mallocFreeFast { heap with loaded := early } cache s.mem buf with
    | (some (block, mem), cache) =>
      let oldErrno := errno
      let _errno := sets (.freed block) errno
      ⟨.freed block, { s with mem := mem }, cache, oldErrno⟩
    | (none, cache) => processFreeUmemErrno sets heap cache s buf true errno

section
variable {sets : Processed → Int → Int} {early : Hull} {heap : HeapView} {cache : SpanCache}
  {s : State} {p : Word} {errno : Int}

theorem umemMallocFreeErrno_eq (hearly : early.Within heap.current)
    (hloaded : heap.loaded.Within heap.current) (hp : p ≠ 0)
    (hboot : bootstrapPointerP s.boot p = false) :
    umemMallocFreeErrno sets early heap cache s p errno =
      processFreeUmemErrno sets heap cache s p true errno := by
  have hcur : ∀ cache, processFreeUmem { heap with loaded := early } cache s.mem p true =
      processFreeUmem heap cache s.mem p true := fun cache =>
    @processFreeUmem_current heap { heap with loaded := early } cache s.mem p hloaded hearly rfl rfl
      true
  rw [umemMallocFreeErrno, if_neg hp, hboot, if_neg (by simp)]
  split
  · rename_i block mem cache' hfast
    have hslow := mallocFreeFast_some hfast
    rw [hcur] at hslow
    rw [processFreeUmemErrno, hslow]
  · rename_i cache' hfast
    rw [mallocFreeFast_none hfast]

theorem processFreeUmem_refused {why : Refusal} {doFree : Bool}
    (h : (processFreeUmem heap cache s.mem p doFree).1 = .refused why) :
    (processFreeUmem heap cache s.mem p doFree).2.1 = s.mem := by
  unfold processFreeUmem at h ⊢
  split
  · rfl
  · rename_i c cache' hacc
    rw [hacc] at h
    cases doFree <;> simp at h

theorem acceptTags_inside {rd : SpanReader} {c : Claimed} {cache' : SpanCache} (hv : rd.Valid)
    (hspans : heap.spans = rd.spans) (hloaded : heap.loaded.Within heap.current)
    (h : acceptTags heap rd.cache s.mem p = (.ok c, cache')) :
    c.overheadMin ≤ c.size ∧ (heap.spans.vmemSpanSaturated = true ∨
      ∃ k < heap.spans.vmemSpanCnt, (heap.spans.vmemSpanTab k).vseBase ≤ c.base ∧
        c.base.toNat+c.size.toNat ≤ (heap.spans.vmemSpanTab k).vseEnd.toNat) := by
  unfold acceptTags at h
  split at h
  · simp at h
  split at h
  · simp at h
  rename_i c' hdecode hsize
  rw [mayOwn_eq hloaded] at h
  dsimp only at h
  split at h
  · rename_i howns
    simp only [Prod.mk.injEq, Except.ok.injEq] at h
    obtain ⟨rfl, -⟩ := h
    refine ⟨by bv_omega, ?_⟩
    unfold umemMayOwn at howns
    split at howns
    · simp at howns
    rename_i hhull
    obtain ⟨-, hlen, hwrap, -⟩ := hullContains_iff.mp (Bool.eq_true_of_not_eq_false hhull)
    rw [spanOwnsCached_eq, hspans, hv.answer_eq hlen hwrap, isSome_iff_exists] at howns
    obtain ⟨e, he⟩ := howns
    rw [hspans]
    cases hsat : rd.spans.vmemSpanSaturated with
    | true => exact .inl rfl
    | false =>
      right
      obtain ⟨k, hk, rfl, hbase, -, hend⟩ := vmemSpanFind_mem hsat he
      exact ⟨k, hk, hbase, hend⟩
  · simp at h

end

/-- For a pointer that is neither null nor a bootstrap pointer, `umem_malloc_free` does what
`process_free_umem` does. A refusal writes nothing, a tag is read only inside the hull, an accepted
pointer is that of a block in a span, and the cache of the thread answers as the table. -/
theorem free_fast_path {ops : List SpanOp} {rd : SpanReader}
    (hrun : Runs SpanReader.Step SpanReader.init ops rd) (heap : HeapView)
    (hspans : heap.spans = rd.spans) (hcurrent : heap.current = rd.hull)
    (hheap : rd.Loaded heap.loaded) (early : Hull) (hearly : rd.Loaded early)
    (sets : Processed → Int → Int) (s : State) (p : Word) (errno : Int) (hp : p ≠ 0)
    (hboot : bootstrapPointerP s.boot p = false) :
    umemMallocFreeErrno sets early heap rd.cache s p errno =
        processFreeUmemErrno sets heap rd.cache s p true errno ∧
      (processFreeUmemErrno sets heap rd.cache s p true errno).errno = errno ∧
      (∀ why, (processFreeUmemErrno sets heap rd.cache s p true errno).result = .refused why →
        (processFreeUmemErrno sets heap rd.cache s p true errno).state = s) ∧
      (∀ mem', AgreeInside heap.current s.mem mem' →
        (processFreeUmem heap rd.cache mem' p true).1 =
          (processFreeUmem heap rd.cache s.mem p true).1) ∧
      (∀ c cache', acceptTags heap rd.cache s.mem p = (.ok c, cache') →
        c.overheadMin ≤ c.size ∧ (heap.spans.vmemSpanSaturated = true ∨
          ∃ k < heap.spans.vmemSpanCnt, (heap.spans.vmemSpanTab k).vseBase ≤ c.base ∧
            c.base.toNat + c.size.toNat ≤ (heap.spans.vmemSpanTab k).vseEnd.toNat)) ∧
      ∀ a n, hullContains heap.current a n = true →
        (spanOwnsCached heap rd.cache a n).1 = (vmemSpanFind heap.spans a n).isSome := by
  have hv := SpanReader.run_valid hrun
  have hloaded : heap.loaded.Within heap.current := by
    rw [hcurrent]
    exact hheap.within
  have hwithin : early.Within heap.current := by
    rw [hcurrent]
    exact hearly.within
  refine ⟨umemMallocFreeErrno_eq hwithin hloaded hp hboot, rfl, ?_, ?_, ?_, ?_⟩
  · intro why hwhy
    have hmem := processFreeUmem_refused hwhy
    rw [processFreeUmemErrno]
    dsimp only
    rw [hmem]
  · intro mem' hagree
    exact (processFreeUmem_agree hloaded hagree true).1
  · intro c cache' hacc
    exact acceptTags_inside hv hspans hloaded hacc
  · intro a n hhull
    obtain ⟨-, hlen, hwrap, -⟩ := hullContains_iff.mp hhull
    rw [spanOwnsCached_eq, hspans]
    exact hv.answer_eq hlen hwrap

/-- A thread that has found a block in the only span. -/
def oneReader : SpanReader where
  hull := ⟨0x10000, 0x30000⟩
  spans := vmemSpanTableInsert SpanReader.init.spans 0x10000 0x30000
  cache := ⟨0x10000, 0x30000, 2⟩
  gen := none

theorem oneReader_run : Runs SpanReader.Step SpanReader.init
    [.insert 0x10000 0x30000, .readGen false, .answer 0x10000 116] oneReader := by
  have hinsert : SpanOp.Allowed SpanReader.init (.insert 0x10000 0x30000) :=
    ⟨⟨by decide, fun k hk => absurd hk (Nat.not_lt_zero k)⟩, by decide⟩
  exact ⟨_, ⟨hinsert, rfl⟩, _, ⟨trivial, rfl⟩, _, ⟨trivial, rfl⟩, rfl⟩

/-- A buffer in the span that the cache holds is freed alike on both ways. -/
theorem free_fast_path_oneReader :
    umemMallocFreeErrno (fun _ _ => 12) ⟨0x10000, 0x30000⟩
        ⟨⟨0x10000, 0x30000⟩, ⟨0x10000, 0x30000⟩, oneReader.spans⟩ oneReader.cache oneBuffer 0x10010 0 =
      processFreeUmemErrno (fun _ _ => 12)
        ⟨⟨0x10000, 0x30000⟩, ⟨0x10000, 0x30000⟩, oneReader.spans⟩ oneReader.cache oneBuffer 0x10010
        true 0 :=
  have hloaded : oneReader.Loaded ⟨0x10000, 0x30000⟩ :=
    ⟨⟨oneReader, [], rfl, rfl⟩, oneReader, [], rfl, rfl⟩
  (free_fast_path oneReader_run ⟨⟨0x10000, 0x30000⟩, ⟨0x10000, 0x30000⟩, oneReader.spans⟩ rfl rfl
    hloaded ⟨0x10000, 0x30000⟩ hloaded (fun _ _ => 12) oneBuffer 0x10010 0 (by decide) rfl).1

/-- The null pointer is no bootstrap pointer, and is freed in silence by one way and refused by the
other. And a range that wraps around to zero, which no caller asks for, is in the empty cache but in
no span. -/
theorem free_null :
    bootstrapPointerP freshState.boot 0 = false ∧
      (umemMallocFreeErrno (fun _ _ => 12) oneReader.hull
        ⟨oneReader.hull, oneReader.hull, oneReader.spans⟩ oneReader.cache freshState 0 0).result =
        .nothing ∧
      (processFreeUmemErrno (fun _ _ => 12)
        ⟨oneReader.hull, oneReader.hull, oneReader.spans⟩ oneReader.cache freshState 0 true 0).result =
        .refused .outside ∧
      (spanOwnsCached ⟨SpanReader.init.hull, SpanReader.init.hull, SpanReader.init.spans⟩
        SpanReader.init.cache (-8) 8).1 = true ∧
      vmemSpanFind SpanReader.init.spans (-8) 8 = none := by
  refine ⟨?_, ?_, ?_, ?_, ?_⟩ <;> decide +kernel

end Libumem.Malloc
