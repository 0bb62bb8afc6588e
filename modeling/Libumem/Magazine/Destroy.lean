import Libumem.Slab.CacheGeometry
import Libumem.Slab.Conserve

/-!
# Destroying a magazine

`umem_magazine_destroy` gives the rounds of a magazine to the slab layer and the magazine itself to
the cache that it came from. A scan over the stored words, which are mangled, decides first whether
there is anything to give.
-/

namespace Libumem.Shell
open List Arith Lib Slab

/-- The vector instructions that a build uses. -/
inductive Simd
  | avx2
  | sse2
  | neon
  | none
  deriving DecidableEq

def scanScalar (array : List Word) : Bool := array.any (· ≠ 0)

def scan4 : List Word → Bool
  | a :: b :: c :: d :: array =>
    if a = 0 ∧ b = 0 ∧ c = 0 ∧ d = 0 then scan4 array else true
  | array => scanScalar array

/-- Two words at a time, with the comparison of a word that the instructions have. -/
def scan2 (isNull : Word → Bool) : List Word → Bool
  | a :: b :: array => if isNull a && isNull b then scan2 isNull array else true
  | array => scanScalar array

/-- SSE2 compares the two halves of a word. -/
def nullHalves (w : Word) : Bool := w.extractLsb' 0 32 = 0 && w.extractLsb' 32 32 = 0

def umemMagScanNotnull (simd : Simd) (array : List Word) : Bool :=
  if array.length < 8 then scanScalar array
  else match simd with
    | .avx2 => scan4 array
    | .sse2 => scan2 nullHalves array
    | .neon => scan2 (· = 0) array
    | .none => scanScalar array

theorem scan4_eq (array : List Word) : scan4 array = scanScalar array := by
  fun_induction scan4 array with
  | case1 a b c d array h ih =>
    obtain ⟨rfl, rfl, rfl, rfl⟩ := h
    simpa [scanScalar] using ih
  | case2 a b c d array h =>
    simp only [scanScalar, any_cons, decide_not]
    grind
  | case3 array h => rfl

theorem scan2_eq {isNull : Word → Bool} (hnull : ∀ w, isNull w = true ↔ w = 0) (array : List Word) :
    scan2 isNull array = scanScalar array := by
  fun_induction scan2 isNull array with
  | case1 a b array h ih =>
    rw [Bool.and_eq_true, hnull, hnull] at h
    obtain ⟨rfl, rfl⟩ := h
    simpa [scanScalar] using ih
  | case2 a b array h =>
    rw [Bool.and_eq_true, hnull, hnull] at h
    simp only [scanScalar, any_cons, decide_not]
    grind
  | case3 array h => rfl

theorem nullHalves_iff (w : Word) : nullHalves w = true ↔ w = 0 := by
  simp only [nullHalves, Bool.and_eq_true, decide_eq_true_eq]
  refine ⟨fun ⟨hlow, hhigh⟩ => ?_, fun hw => by simp [hw]⟩
  have hsplit : w = w.extractLsb' 32 32 ++ w.extractLsb' 0 32 := by grind
  rw [hsplit, hlow, hhigh]
  rfl

/-- Whatever the instructions, the scan finds a word that is not zero. -/
theorem umemMagScanNotnull_eq (simd : Simd) (array : List Word) :
    umemMagScanNotnull simd array = scanScalar array := by
  unfold umemMagScanNotnull
  split
  · rfl
  · cases simd with
    | avx2 => exact scan4_eq array
    | sse2 => exact scan2_eq nullHalves_iff array
    | neon => exact scan2_eq (by simp) array
    | none => rfl

/-- `UMEM_SLOT_MANGLE`, which is also `UMEM_SLOT_DEMANGLE`. -/
def slotMangle (cookie slotp val : Word) : Word := val ^^^ cookie ^^^ (slotp >>> 12)

/-- `&mp->mag_round[round]`. -/
def magRound (mp : Word) (round : Nat) : Word := mp + 8 + 8 * BitVec.ofNat 64 round

inductive Action
  | umemError (buf : Word)
  | cacheDestructor (buf : Word)
  | umemSlabFree (buf : Word)
  | umemCacheFree (cp mp : Word)

def Action.freed : Action → Option Word
  | umemSlabFree buf => some buf
  | _ => none

def Action.reported : Action → Option Word
  | umemError buf => some buf
  | _ => none

def Action.returned : Action → Option (Word × Word)
  | umemCacheFree cp mp => some (cp, mp)
  | _ => none

structure Call where
  flags : Umf
  hasDestructor : Bool
  /-- Whether `verify_pattern` finds the buffer of a round changed. -/
  modified : Nat → Bool
  simd : Simd
  umemLinkCookie : Word
  pagesize : Word
  mp : Word

namespace Call
variable (c : Call)

def reported (round : Nat) : Bool := c.flags.deadbeef && c.modified round

/-- A turn of the loop, with the word in the slot of the round. -/
def destroyRound (word : Word) (round : Nat) : List Action :=
  let buf := slotMangle c.umemLinkCookie (magRound c.mp round) word
  if c.reported round then [.umemError buf]
  else (if !c.flags.buftag && c.hasDestructor then [.cacheDestructor buf] else []) ++
    [.umemSlabFree buf]

/-- `umem_magazine_destroy` on the words of a magazine, where `s` has the headers of the slabs. -/
def umemMagazineDestroy (s : State) (words : List Word) : List Action :=
  (if 0 < words.length && !umemMagScanNotnull c.simd words then []
  else words.zipIdx.flatMap fun x => c.destroyRound x.1 x.2) ++
    [.umemCacheFree (s.slabs (p2end c.mp c.pagesize - BitVec.ofNat 64 sizeofSlab)).slabCache c.mp]

/-- The words of a magazine that holds the objects. -/
def stored (objs : List Word) : List Word :=
  objs.zipIdx.map fun x => slotMangle c.umemLinkCookie (magRound c.mp x.2) x.1

/-- Every object goes to the slab layer once or is reported, and the magazine to its cache. -/
structure Exact (objs : List Word) (origin : Word) (actions : List Action) : Prop where
  freed : actions.filterMap Action.freed =
    (objs.zipIdx.filter fun x => !c.reported x.2).map Prod.fst
  reported : actions.filterMap Action.reported =
    (objs.zipIdx.filter fun x => c.reported x.2).map Prod.fst
  returned : actions.filterMap Action.returned = [(origin, c.mp)]

theorem slotMangle_slotMangle (cookie slotp val : Word) :
    slotMangle cookie slotp (slotMangle cookie slotp val) = val := by
  unfold slotMangle
  grind

theorem slotMangle_eq_zero (cookie slotp val : Word) :
    slotMangle cookie slotp val = 0 ↔ val = cookie ^^^ (slotp >>> 12) := by
  rw [slotMangle, BitVec.xor_assoc]
  exact xor_eq_zero_iff

/-- The loop reads back what was stored. -/
theorem zipIdx_stored (objs : List Word) : (c.stored objs).zipIdx = objs.zipIdx.map fun x =>
    (slotMangle c.umemLinkCookie (magRound c.mp x.2) x.1, x.2) := by
  apply ext_getElem?
  intro i
  cases h : objs[i]? <;> simp [stored, h]

theorem destroyRound_stored (obj : Word) (round : Nat) :
    c.destroyRound (slotMangle c.umemLinkCookie (magRound c.mp round) obj) round =
      if c.reported round then [.umemError obj]
      else (if !c.flags.buftag && c.hasDestructor then [.cacheDestructor obj] else []) ++
        [.umemSlabFree obj] := by
  simp only [destroyRound, slotMangle_slotMangle]

/-- The loop gives every object to the slab layer or reports it. -/
theorem loop_exact (objs : List Word) (n : Nat) :
    let actions := (objs.zipIdx n).flatMap fun x =>
      c.destroyRound (slotMangle c.umemLinkCookie (magRound c.mp x.2) x.1) x.2
    actions.filterMap Action.freed =
      ((objs.zipIdx n).filter fun x => !c.reported x.2).map Prod.fst ∧
    actions.filterMap Action.reported =
      ((objs.zipIdx n).filter fun x => c.reported x.2).map Prod.fst ∧
    actions.filterMap Action.returned = [] := by
  induction objs generalizing n with
  | nil => simp
  | cons obj objs ih =>
    obtain ⟨hfreed, hreported, hreturned⟩ := ih (n+1)
    simp only [zipIdx_cons, flatMap_cons, filterMap_append, hfreed, hreported, hreturned]
    rw [destroyRound_stored]
    cases hr : c.reported n
    · cases hd : !c.flags.buftag && c.hasDestructor <;>
        simp [hr, filterMap_cons, Action.freed, Action.reported, Action.returned]
    · simp [hr, Action.freed, Action.reported, Action.returned]

/-- Some stored word is not zero. -/
theorem scan_stored (objs : List Word) : umemMagScanNotnull c.simd (c.stored objs) = true ↔
    ∃ x ∈ objs.zipIdx, x.1 ≠ c.umemLinkCookie ^^^ (magRound c.mp x.2 >>> 12) := by
  rw [umemMagScanNotnull_eq, scanScalar, any_eq_true]
  simp only [stored, mem_map, decide_eq_true_eq]
  constructor
  · rintro ⟨w, ⟨x, hx, rfl⟩, hw⟩
    exact ⟨x, hx, fun heq => hw ((slotMangle_eq_zero ..).mpr heq)⟩
  · rintro ⟨x, hx, hne⟩
    exact ⟨_, ⟨x, hx, rfl⟩, fun hw => hne ((slotMangle_eq_zero ..).mp hw)⟩

end Call

/-- The rounds and the alignment of each kind of magazine. -/
def umemMagtype : List (Nat × Nat) := [(1, 8), (3, 16), (7, 32), (63, 64), (127, 64), (255, 64)]

/-- The call of `umem_cache_create` that makes the cache of a kind of magazine. -/
def magtypeArgs (mtp : Nat × Nat) : CreateArgs where
  bufsize := BitVec.ofNat 64 ((mtp.1 + 1) * 8)
  align := BitVec.ofNat 64 mtp.2
  cflags := ⟨false, false, false, true, false, Umf.none⟩

/-- The magazine was handed out by a cache that was made for a kind of magazine. -/
structure Allocated (c : Call) (g : Geom) (s : State) : Prop where
  created : ∃ t vmp cache, ∃ mtp ∈ umemMagtype, vmp.quantum = c.pagesize ∧
    umemCacheCreate t vmp (magtypeArgs mtp) = some (.ok cache) ∧
    g.hash = cache.hash ∧ g.slabsize = cache.slabsize
  run : ∃ memory events, Runs (LegitStep g) (initial g memory) events s
  held : c.mp ∈ s.held

variable {c : Call} {g : Geom} {s : State} {t : Tunables} {vmp : Arena} {mtp : Nat × Nat}
  {cache : Cache}

/-- The slabs of magazines are pages with the header at the end. -/
theorem magtype_embedded (h : umemCacheCreate t vmp (magtypeArgs mtp) = some (.ok cache)) :
    cache.hash = false ∧ cache.slabsize = vmp.quantum := by
  obtain ⟨r, hr, hcreated⟩ := umemCacheCreate_ends t vmp (magtypeArgs mtp) rfl
  obtain rfl := Option.some.inj (hr.symm.trans h)
  obtain ⟨maxcolor, hsized, -⟩ := (hcreated cache rfl).sized
  generalize hx : (cache.slabsize, cache.mincolor, maxcolor, cache.hash) = x at hsized
  cases hsized with
  | firewall hflag hsize => exact absurd (cacheFlags_firewall hflag).2.1 (by simp [magtypeArgs])
  | embedded hflag hkind hfits =>
    simp only [Prod.mk.injEq] at hx
    exact ⟨hx.2.2.2, hx.1⟩
  | hashed hflag hkind hsize => simp [magtypeArgs] at hkind

theorem Allocated.origin (h : Allocated c g s) :
    (s.slabs (p2end c.mp c.pagesize - BitVec.ofNat 64 sizeofSlab)).slabCache = g.cp := by
  obtain ⟨t, vmp, cache, mtp, -, hpage, hcache, hhash, hsize⟩ := h.created
  obtain ⟨hembedded, hslabsize⟩ := magtype_embedded hcache
  obtain ⟨memory, events, hrun⟩ := h.run
  obtain ⟨ly, hinv, -⟩ := exists_inv hrun
  obtain ⟨hlive, -⟩ := hinv.held_embedded (hhash.trans hembedded) h.held
  rw [← hpage, ← hslabsize, ← hsize]
  exact (hinv.slab _ hlive).cache

/-- Destroying a magazine is exact unless it is empty to the scan: every object in it is the cookie
mixed with the place of its slot. -/
theorem magazine_destroy_exact_iff (c : Call) (g : Geom) (s : State) (objs : List Word)
    (h : Allocated c g s) : c.Exact objs g.cp (c.umemMagazineDestroy s (c.stored objs)) ↔
      (objs ≠ [] → ∃ x ∈ objs.zipIdx, x.1 ≠ c.umemLinkCookie ^^^ (magRound c.mp x.2 >>> 12)) := by
  rw [← c.scan_stored objs]
  have hlen : (c.stored objs).length = objs.length := by simp [Call.stored]
  unfold Call.umemMagazineDestroy
  rw [h.origin, c.zipIdx_stored objs, flatMap_map, hlen]
  obtain ⟨hfreed, hreported, hreturned⟩ := c.loop_exact objs 0
  constructor
  · intro hexact hne
    by_contra hscan
    have hskip : (decide (0 < objs.length) && !umemMagScanNotnull c.simd (c.stored objs)) = true := by
      simpa [length_pos_iff.mpr hne] using hscan
    rw [if_pos hskip] at hexact
    obtain ⟨obj, objs, rfl⟩ := exists_cons_of_ne_nil hne
    -- the first object is neither given to the slab layer nor reported
    have hfirst := hexact.freed
    have hfirst' := hexact.reported
    cases hr : c.reported 0 <;>
      simp [hr, filterMap_cons, Action.freed, Action.reported] at hfirst hfirst'
  · intro hscan
    have hloop : ¬ (decide (0 < objs.length) && !umemMagScanNotnull c.simd (c.stored objs)) = true := by
      simpa [length_pos_iff] using hscan
    rw [if_neg hloop]
    constructor
    · rw [filterMap_append, hfreed]
      simp [Action.freed]
    · rw [filterMap_append, hreported]
      simp [Action.reported]
    · rw [filterMap_append, hreturned]
      rfl

def oneRound (cookie : Word) : Call :=
  ⟨Umf.none, false, fun _ => false, .avx2, cookie, 4096, 0x117d8⟩

theorem oneRound_allocated (cookie : Word) : ∃ s, Allocated (oneRound cookie) pageCache s := by
  obtain ⟨s, hrun, hheld⟩ := exists_runs (P := fun s e => Event.Legit pageCache s e)
    (f := step pageCache) (initial pageCache zeroMemory)
    [.alloc, .color, .create 8 0x11000 0 [], .link 0x11fb8] (fun s => s.held) [0x117d8]
    (by decide +kernel)
  refine ⟨s, ⟨⟨Umf.none, 0, 0, 0⟩, ⟨4096, 0, false, ⟨12, by decide, rfl⟩, by simp⟩, ⟨16, 8, 8, 0,
    16, 4096, 0, 8, 4096, false, false⟩, (1, 8), by decide, rfl, rfl, rfl, rfl⟩, ⟨_, _, hrun⟩, ?_⟩
  rw [hheld]
  exact mem_singleton_self _

theorem magazine_destroy_exact_oneRound : ∃ s,
    (oneRound 0x5bd1e9955bd1e995).Exact [0x7f0000010000] pageCache.cp
      ((oneRound 0x5bd1e9955bd1e995).umemMagazineDestroy s
        ((oneRound 0x5bd1e9955bd1e995).stored [0x7f0000010000])) := by
  obtain ⟨s, h⟩ := oneRound_allocated 0x5bd1e9955bd1e995
  exact ⟨s, (magazine_destroy_exact_iff _ _ s _ h).mpr fun _ => ⟨_, mem_cons_self, by decide⟩⟩

/-- With this cookie the stored object is zero, and it is not given to the slab layer. -/
theorem magazine_destroy_skips : ∃ s, Allocated (oneRound 0x7f0000010011) pageCache s ∧
    ¬ (oneRound 0x7f0000010011).Exact [0x7f0000010000] pageCache.cp
      ((oneRound 0x7f0000010011).umemMagazineDestroy s
        ((oneRound 0x7f0000010011).stored [0x7f0000010000])) := by
  obtain ⟨s, h⟩ := oneRound_allocated 0x7f0000010011
  refine ⟨s, h, fun hexact => ?_⟩
  have hfreed : ([] : List Word) = [0x7f0000010000] := hexact.freed
  simp at hfreed

end Libumem.Shell
