import Libumem.Lib.Intervals
import Libumem.Vmem.Imported

/-!
# The counters of an arena

`vmem_hash_insert`, `vmem_hash_delete`, `vmem_span_create`, `vmem_span_destroy` and
`vmem_extend_unlocked` each keep some of the counters behind `vmem_size`. Over every run these are
the sums they stand for.
-/

namespace Libumem.Vmem
open List Arith Lib Pow2

/-- The bits of the `typemask` of `vmem_size`. -/
structure Typemask where
  alloc : Bool
  free : Bool

def vmemSize (vmp : Arena) (typemask : Typemask) : Word :=
  (if typemask.alloc then vmp.vkMemInuse else 0) +
    if typemask.free then vmp.vkMemTotal - vmp.vkMemInuse else 0

/-- The counters agree with the blocks that callers hold, with the spans, and with the spans `l`
that came from the source. -/
structure Books (vmp : Arena) (live l : List Block) : Prop where
  imports : Imports vmp l
  inuse : vmp.vkMemInuse = (live.map Block.size).sum
  count : vmp.vkAlloc - vmp.vkFree = live.length
  total : vmp.vkMemTotal = (vmp.spanSegs.map Seg.vsSize).sum
  imported : vmp.vkMemImport = (l.map Block.size).sum

section
variable {vmp vmp' : Arena} {live l : List Block}

theorem Books.handBack (hb : Books vmp live l) {k : VmemKstat} {released : Option Block}
    {live' : List Block} (h : Released vmp vmp' k l released)
    (hinuse : k.vkMemInuse = (live'.map Block.size).sum)
    (hcount : k.vkAlloc-k.vkFree = live'.length) (htotal : k.vkMemTotal = vmp.vkMemTotal)
    (himport : k.vkMemImport = vmp.vkMemImport) :
    ∃ l', Books vmp' live' l' ∧ (l' ++ released.toList).Perm l := by
  cases h with
  | kept hspans himp hkstat =>
    refine ⟨l, ⟨himp, ?_, ?_, ?_, ?_⟩, by simp⟩
    · rw [hkstat, hinuse]
    · rw [hkstat, hcount]
    · rw [hkstat, htotal, hb.total, hspans]
    · rw [hkstat, himport, hb.imported]
  | @gone a hmem hspans himp hkstat =>
    have hperm := perm_cons_erase hmem
    refine ⟨l.erase a.block, ⟨himp, ?_, ?_, ?_, ?_⟩, ?_⟩
    · rw [hkstat]
      exact hinuse
    · rw [hkstat]
      exact hcount
    · have hsum := (hspans.map Seg.vsSize).sum_eq
      rw [map_cons, sum_cons] at hsum
      rw [hkstat]
      simp only [VmemKstat.spanRemoved]
      rw [htotal, hb.total, hsum, add_sub_cancel_left]
    · have hsum := (hperm.map Block.size).sum_eq
      rw [map_cons, sum_cons] at hsum
      rw [hkstat]
      simp only [VmemKstat.spanRemoved, if_true]
      rw [himport, hb.imported, hsum, Seg.block, add_sub_cancel_left]
    · exact (perm_append_singleton _ _).trans hperm.symm

section

variable (hb : Books vmp live l) (hw : WellFormed vmp)

include hb hw

theorem Books.advance {walker : SegId} {afterme : Option SegId} (hmem : walker ∈ vmp.aList)
    (hm : vmp.isMarker walker = true) (hplace : vmp.Place walker afterme) :
    ∃ l', Books (vmemAdvance vmp walker afterme).1 live l' ∧
      (l' ++ (vmemAdvance vmp walker afterme).2.toList).Perm l :=
  hb.handBack ((vmemAdvance_advanced hw.layout hw.indexed hmem hm hplace rfl).handsBack hw.layout
    hmem hb.imports) hb.inuse hb.count rfl rfl

theorem Books.segAlloc {v x : SegId} {addr size : Word} (hv : v ∈ vmp.aList)
    (ht : (vmp.segs v).vsType = .free) (fits : Fits vmp.vmQuantum (vmp.segs v) addr size)
    (h : vmemSegAlloc vmp v addr size = some (x, vmp')) : Books vmp' (⟨addr, size⟩ :: live) l := by
  obtain ⟨pre, post, ha⟩ := append_of_mem hv
  obtain ⟨left, right, hc⟩ := vmemSegAlloc_carved hw.layout hw.indexed ha ht fits h
  refine ⟨hc.imports hw.layout ha ht fits hb.imports, ?_, ?_, ?_, ?_⟩ <;> rw [hc.kstat]
  · simp only [VmemKstat.allocated, map_cons, sum_cons, hb.inuse]
    ring
  · simp only [VmemKstat.allocated, length_cons, Nat.cast_add, Nat.cast_one, ← hb.count]
    ring
  · rw [hc.spanSegs hw.layout ha ht]
    exact hb.total
  · exact hb.imported

theorem Books.spanCreate {vaddr size : Word} {imported : Bool} {x : SegId}
    (hnew : NewSpan vmp vaddr size) (hsource : imported = true → vmp.vmSource.isSome = true)
    (h : vmemSpanCreate vmp vaddr size imported = some (x, vmp')) :
    Books vmp' live ((if imported then [⟨vaddr, size⟩] else []) ++ l) := by
  obtain ⟨pre, sp, post, ha, -, hadd, -⟩ := vmemSpanCreate_added hw.layout h
  obtain ⟨hmap, hmap'⟩ := hadd.map_kList hw.layout ha
  refine ⟨hadd.imports hw.layout ha hnew hsource hb.imports, ?_, ?_, ?_, ?_⟩ <;> rw [hadd.kstat]
  · exact hb.inuse
  · exact hb.count
  · simp only [VmemKstat.spanAdded, hb.total, Arena.spanSegs, hmap, hmap', map_append,
      map_cons, sum_append, sum_cons, vsSize_range]
    ring
  · cases imported with
    | false => simpa [VmemKstat.spanAdded] using hb.imported
    | true =>
      simp only [VmemKstat.spanAdded, if_true, hb.imported, map_append, map_cons,
        map_nil, sum_append, sum_cons, sum_nil]
      ring

end

theorem SpansGrow.sum {searched : Prop} {addr size : Word} {ks ks' : List Seg}
    (h : SpansGrow searched addr size ks ks') :
    (ks'.map Seg.vsSize).sum = (ks.map Seg.vsSize).sum+size := by
  cases h with
  | join hend hstart =>
    simp only [map_append, map_cons, sum_append, sum_cons, Seg.vsSize, hend, hstart]
    ring
  | moveEnd hend _ =>
    simp only [map_append, map_cons, sum_append, sum_cons, Seg.vsSize, hend]
    ring
  | moveStart hstart _ =>
    simp only [map_append, map_cons, sum_append, sum_cons, Seg.vsSize, hstart]
    ring
  | new _ _ =>
    simp only [map_append, map_cons, sum_append, sum_cons, vsSize_range]
    ring

theorem Books.extend {w : SegId} {addr size : Word} (hb : Books vmp live l)
    (hsource : vmp.vmSource = none) (h : Extended vmp vmp' w addr size) : Books vmp' live l := by
  have hnil := hb.imports.source hsource
  have hnone : ∀ y ∈ vmp'.aList, ¬ (vmp'.segs y).vsImport = true := by
    intro y hy hm
    obtain ⟨hold, hm⟩ := h.marks y hy hm
    obtain ⟨-, b, hmem, -⟩ := hb.imports.marks y hold hm
    simp [hnil] at hmem
  refine ⟨⟨hb.imports.nodup, by simp [hnil], fun y hy hm => absurd hm (hnone y hy), fun _ => hnil⟩,
    ?_, ?_, ?_, ?_⟩ <;> rw [h.kstat]
  · exact hb.inuse
  · exact hb.count
  · simp only [VmemKstat.spanAdded, hb.total, Arena.spanSegs, h.spans.sum]
  · exact hb.imported

theorem Acts.books {a i r : List Block} (h : Acts vmp vmp' a i r) (hw : WellFormed vmp)
    (hb : Books vmp live l) : ∃ l', Books vmp' (a ++ live) l' ∧ (l' ++ r).Perm (i ++ l) := by
  induction h generalizing live l with
  | count =>
    refine ⟨l, ⟨?_, hb.inuse, hb.count, hb.total, hb.imported⟩, by simp⟩
    exact ⟨hb.imports.nodup, hb.imports.spans, hb.imports.marks, hb.imports.source⟩
  | alloc hv ht fits h => exact ⟨l, hb.segAlloc hw hv ht fits h, by simp⟩
  | advance hmem hm hplace => exact hb.advance hw hmem hm hplace
  | span _ hnew hsource h => exact ⟨_, hb.spanCreate hw hnew hsource h, by simp⟩
  | extend hsource hnew h =>
    exact ⟨l, hb.extend hsource (vmemExtendUnlocked_extended hw hnew h), by simp⟩
  | @trans _ _ _ a a' i i' r r' h _ ih ih' =>
    obtain ⟨l₁, hb₁, hp₁⟩ := ih hw hb
    obtain ⟨l₂, hb₂, hp₂⟩ := ih' (h.wellFormed hw).1 hb₁
    refine ⟨l₂, by simpa using hb₂, ?_⟩
    have hfirst : ((i' ++ l₁) ++ r).Perm ((i' ++ i) ++ l) := by
      simpa only [append_assoc] using hp₁.append_left i'
    simpa only [append_assoc] using (hp₂.append_right r).trans hfirst

end

/-- The counters of a run: the spans that came from the source and have not gone back are spans of
the arena. -/
def Sys.Balanced (s : Sys) : Prop :=
  ∃ l, Books s.arena s.live l ∧ (l ++ s.returned).Perm s.imported

section
variable {s s' : Sys}

theorem Books.xfree {vmp vmp' : Arena} {live l : List Block} {vaddr size : Word}
    {released : Option Block} (hb : Books vmp live l) (hw : WellFormed vmp)
    (hmem : (⟨vaddr, size⟩ : Block) ∈ live) (h : vmemXfree vmp vaddr size = some (vmp', released)) :
    ∃ l', Books vmp' (live.erase ⟨vaddr, size⟩) l' ∧ (l' ++ released.toList).Perm l := by
  obtain ⟨pre, prev, v, next, post, w, -, hsize, hf⟩ := vmemXfree_freed hw.layout hw.indexed h
  have hperm := perm_cons_erase hmem
  refine hb.handBack (hf.handsBack hw.layout hb.imports) ?_ ?_ rfl rfl
  · have hsum := (hperm.map Block.size).sum_eq
    rw [map_cons, sum_cons] at hsum
    simp only [VmemKstat.freed, hb.inuse, hsum, hsize, add_sub_cancel_left]
  · have hcount := hb.count
    rw [hperm.length_eq, length_cons, Nat.cast_add, Nat.cast_one] at hcount
    simp only [VmemKstat.freed]
    linear_combination hcount

theorem vmemWalkInsert_spanSegs {vmp : Arena} {walker : SegId} (hw : WellFormed vmp)
    (hnew : walker ∉ vmp.aList) : (vmemWalkInsert vmp walker).spanSegs = vmp.spanSegs :=
  map_congr_left fun _ hy =>
    vmemWalkInsert_segs_of_ne fun he => hnew (he ▸ hw.layout.mem_aList hy)

theorem Books.walk {vmp : Arena} {live l : List Block} {walker : SegId} (hb : Books vmp live l)
    (hw : WellFormed vmp) (hnew : walker ∉ vmp.aList) :
    Books (vmemWalkInsert vmp walker) live l := by
  have hspans := vmemWalkInsert_spanSegs hw hnew
  refine ⟨hb.imports.carry hw.layout hspans rfl fun y hy hm => ?_, hb.inuse, hb.count, ?_,
    hb.imported⟩
  · by_cases hyw : y = walker
    · simp [hyw] at hm
    · rw [vmemWalkInsert_segs_of_ne hyw] at hm ⊢
      have hold : y ∈ vmp.aList := by simpa [hyw] using hy
      have hfilled := (hb.imports.marks y hold hm).1
      exact ⟨hfilled, y, hold, hm, le_rfl, hw.layout.filled_lo_lt hold hfilled⟩
  · rw [hspans]
    exact hb.total

theorem Sys.Balanced.step (h : s.Balanced) (hw : WellFormed s.arena) (hs : Sys.Change s s') :
    s'.Balanced := by
  obtain ⟨l, hb, hp⟩ := h
  have hback : ∀ {l' r : List Block}, (l' ++ r).Perm l →
      (l' ++ (r ++ s.returned)).Perm s.imported := fun hp' => by
    simpa only [append_assoc] using (hp'.append_right s.returned).trans hp
  cases hs with
  | @acts a i r hacts hlive himported hreturned =>
    obtain ⟨l', hb', hp'⟩ := hacts.books hw hb
    rw [Sys.Balanced, hlive, himported, hreturned]
    refine ⟨l', hb', ?_⟩
    have hfirst : ((i ++ l) ++ s.returned).Perm (i ++ s.imported) := by
      simpa only [append_assoc] using hp.append_left i
    simpa only [append_assoc] using (hp'.append_right s.returned).trans hfirst
  | free hmem hfree hlive himported hreturned =>
    obtain ⟨l', hb', hp'⟩ := hb.xfree hw hmem hfree
    rw [Sys.Balanced, hlive, himported, hreturned]
    exact ⟨l', hb', hback hp'⟩
  | @unlink walker _ hmem ht hadv hlive himported hreturned =>
    have hplace : s.arena.Place walker none := by simp [Arena.Place]
    obtain ⟨l', hb', hp'⟩ := hb.advance hw hmem (isMarker_iff.mpr (.inr ht)) hplace
    rw [hadv] at hb' hp'
    rw [Sys.Balanced, hlive, himported, hreturned]
    exact ⟨l', hb', hback hp'⟩
  | link hnew harena hlive himported hreturned =>
    rw [Sys.Balanced, harena, hlive, himported, hreturned]
    exact ⟨l, hb.walk hw fun hm => hnew (by simp [hm]), hp⟩
  | stock _ harena hlive himported hreturned =>
    rw [Sys.Balanced, harena, hlive, himported, hreturned]
    exact ⟨l, ⟨⟨hb.imports.nodup, hb.imports.spans, hb.imports.marks, hb.imports.source⟩, hb.inuse,
      hb.count, hb.total, hb.imported⟩, hp⟩

theorem Sys.create_balanced (quantum : Word) (source : Option Word) (sourceFree xalloc : Bool)
    (qcacheMax : Word) : (Sys.create quantum source sourceFree xalloc qcacheMax).Balanced := by
  refine ⟨[], ⟨⟨nodup_nil, by simp, fun y hy hm => ?_, fun _ => rfl⟩, rfl, ?_, rfl, rfl⟩,
    Perm.refl _⟩
  · obtain rfl := mem_singleton.mp hy
    simp [Sys.create, vmemCreate] at hm
  · simp [Sys.create, vmemCreate]

end

section

def Arena.segsOf (vmp : Arena) (type : SegType) : List Seg :=
  (vmp.aList.map vmp.segs).filter fun a => a.vsType = type

theorem Scan.runs_sum {q : Nat} {s t : Scan} {l : List Seg} (h : Runs (Scan.Step q) s l t) :
    s.stop+t.pos+((l.filter fun a => a.vsType = .span).map Seg.len).sum =
      t.stop+s.pos+((l.filter fun a => a.vsType = .free).map Seg.len).sum +
        ((l.filter fun a => a.vsType = .alloc).map fun a => roundUp a.len q).sum := by
  induction l generalizing s with
  | nil =>
    obtain rfl := h
    simp [Nat.add_comm]
  | cons a l ih =>
    obtain ⟨m, hs, hrest⟩ := h
    have hsum := ih hrest
    cases ht : a.vsType with
    | unset => simp [Scan.Step, ht] at hs
    | span =>
      obtain ⟨hopen, rfl⟩ := (Scan.step_span ht).mp hs
      have hdone := hopen.complete
      simp only [filter_cons, ht, decide_true, if_true, map_cons, sum_cons,
        reduceCtorEq, decide_false, Bool.false_eq_true, if_false, Seg.hi] at hsum ⊢
      omega
    | free =>
      obtain ⟨-, -, -, rfl⟩ := (Scan.step_free ht).mp hs
      simp only [filter_cons, ht, decide_true, if_true, map_cons, sum_cons,
        reduceCtorEq, decide_false, Bool.false_eq_true, if_false] at hsum ⊢
      omega
    | alloc =>
      obtain ⟨-, rfl⟩ := (Scan.step_alloc ht).mp hs
      simp only [filter_cons, ht, decide_true, if_true, map_cons, sum_cons,
        reduceCtorEq, decide_false, Bool.false_eq_true, if_false] at hsum ⊢
      omega
    | rotor =>
      obtain rfl := (Scan.step_marker (.inl ht)).mp hs
      simpa [filter_cons, ht] using hsum
    | walker =>
      obtain rfl := (Scan.step_marker (.inr ht)).mp hs
      simpa [filter_cons, ht] using hsum

variable {vmp : Arena} {live : List Block}

theorem Layout.spanSegs_eq (hL : Layout vmp) : vmp.spanSegs = vmp.segsOf .span := by
  rw [Arena.spanSegs, hL.spans, Arena.segsOf, filter_map]
  rfl

theorem Layout.sum_spans (hL : Layout vmp) :
    (vmp.spanSegs.map Seg.len).sum = ((vmp.segsOf .free).map Seg.len).sum +
      ((vmp.segsOf .alloc).map fun a => roundUp a.len vmp.vmQuantum.toNat).sum := by
  obtain ⟨t, hruns, hdone⟩ := hL.tiled
  have hsum := Scan.runs_sum hruns
  rw [hL.spanSegs_eq]
  simp only [Arena.segsOf, Scan.init] at hsum ⊢
  omega

theorem Layout.sum_spans_lt (hL : Layout vmp) : (vmp.spanSegs.map Seg.len).sum < 2^64 := by
  have hd : (vmp.spanSegs.map fun a => (a.lo, a.hi)).Pairwise
      fun a b => a.2 ≤ b.1 ∨ b.2 ≤ a.1 := pairwise_map.mpr hL.disjoint
  have hle := Intervals.sum_length_le (p := 1) (n := 2^64) hd (by
    intro i hi
    obtain ⟨a, ha, rfl⟩ := mem_map.mp hi
    obtain ⟨sp, hsp, rfl⟩ := mem_map.mp ha
    obtain ⟨-, hlo, -, hhi, -⟩ := hL.span_bounds hsp
    exact ⟨hlo, hhi⟩)
  have hlen : (vmp.spanSegs.map fun a => (a.lo, a.hi)).map (fun a => a.2-a.1) =
      vmp.spanSegs.map Seg.len := by
    rw [map_map]
    exact map_congr_left fun a _ => by simp [Seg.hi]
  rw [hlen] at hle
  omega

theorem Held.perm (h : Held vmp live) (hL : Layout vmp) :
    live.Perm ((vmp.segsOf .alloc).map Seg.block) := by
  have hnd : ((vmp.segsOf .alloc).map Seg.block).Nodup := by
    rw [Arena.segsOf, filter_map, map_map]
    refine Nodup.map_on (fun x hx y hy he => ?_)
      ((nodup_cons.mp hL.nodup_aList).2.filter _)
    obtain ⟨hx, htx⟩ := mem_filter.mp hx
    obtain ⟨hy, hty⟩ := mem_filter.mp hy
    exact Held.eq_of_block hL hx hy (by simpa using htx) (by simpa using hty) he
  refine (perm_ext_iff_of_nodup (h.nodup hL) hnd).mpr fun b => ?_
  rw [h.mem b]
  simp [Arena.segsOf, and_assoc]

theorem toNat_sum {l : List Word} (h : (l.map BitVec.toNat).sum < 2^64) :
    l.sum.toNat = (l.map BitVec.toNat).sum := by
  induction l with
  | nil => rfl
  | cons w l ih =>
    rw [map_cons, sum_cons] at h
    rw [sum_cons, map_cons, sum_cons, BitVec.toNat_add, ih (by omega), Nat.mod_eq_of_lt h]

end

/-- The sum of the requests that have not been freed. -/
def Sys.liveSize (s : Sys) : Nat := (s.live.map fun b => b.size.toNat).sum

/-- What the counters say: the requests in use, the size of the spans, the imports that have not
been handed back, and the number of allocated segments. The difference that is returned as free
memory does not wrap around. -/
structure Sys.Tallied (s : Sys) : Prop where
  alloc : (vmemSize s.arena ⟨true, false⟩).toNat = s.liveSize
  total : (vmemSize s.arena ⟨true, true⟩).toNat = (s.arena.spanSegs.map Seg.len).sum
  rest : (vmemSize s.arena ⟨false, true⟩).toNat + s.liveSize = (s.arena.spanSegs.map Seg.len).sum
  imported : ∃ l, (l ++ s.returned).Perm s.imported ∧ l.Nodup ∧
    (∀ b ∈ l, ∃ a ∈ s.arena.spanSegs, a.block = b) ∧
    s.arena.vkMemImport.toNat = (l.map fun b => b.size.toNat).sum
  count : (s.arena.vkAlloc - s.arena.vkFree).toNat = (s.arena.segsOf .alloc).length

def Sys.FreeExact (s : Sys) : Prop :=
  (vmemSize s.arena ⟨false, true⟩).toNat = ((s.arena.segsOf .free).map Seg.len).sum

section
variable {s : Sys}

theorem Sys.Invariant.sum_spans (hi : s.Invariant) :
    (s.arena.spanSegs.map Seg.len).sum = ((s.arena.segsOf .free).map Seg.len).sum +
      (s.live.map fun b => roundUp b.size.toNat s.arena.vmQuantum.toNat).sum := by
  have hL := hi.wellFormed.layout
  have hperm := (hi.held.perm hL).map fun b => roundUp b.size.toNat s.arena.vmQuantum.toNat
  rw [map_map] at hperm
  rw [hL.sum_spans, hperm.sum_eq]
  rfl

theorem sum_le_sum_roundUp {q : Nat} (hq : 0 < q) (l : List Nat) :
    l.sum ≤ (l.map fun n => roundUp n q).sum ∧
      (l.sum = (l.map fun n => roundUp n q).sum ↔ ∀ n ∈ l, q ∣ n) := by
  induction l with
  | nil => simp
  | cons n l ih =>
    obtain ⟨hle, hiff⟩ := ih
    have hn := le_roundUp (n := n) hq
    have hdvd : roundUp n q = n ↔ q ∣ n :=
      ⟨fun he => he ▸ dvd_roundUp n q, fun hd => roundUp_of_dvd hq hd⟩
    simp only [sum_cons, map_cons, forall_mem_cons]
    refine ⟨by omega, ?_⟩
    rw [← hiff, ← hdvd]
    omega

theorem Sys.Invariant.liveSize_le (hi : s.Invariant) :
    s.liveSize ≤ (s.arena.spanSegs.map Seg.len).sum := by
  have hle := (sum_le_sum_roundUp hi.wellFormed.layout.quantum.pos
    (s.live.map fun b => b.size.toNat)).1
  rw [map_map] at hle
  rw [hi.sum_spans]
  exact hle.trans (Nat.le_add_left _ _)

theorem Sys.Invariant.length_le (hi : s.Invariant) : s.live.length ≤ s.liveSize := by
  have hL := hi.wellFormed.layout
  have hle := length_le_sum_of_one_le (s.live.map fun b => b.size.toNat) fun n hn => by
    obtain ⟨b, hb, rfl⟩ := mem_map.mp hn
    obtain ⟨y, hy, ht, rfl⟩ := (hi.held.mem b).mp hb
    have := hL.filled_lo_lt hy (.inl ht)
    simp only [Seg.block, Seg.hi, Seg.len] at *
    omega
  rwa [length_map] at hle

theorem Sys.Balanced.tallied (h : s.Balanced) (hi : s.Invariant) : s.Tallied := by
  obtain ⟨l, hb, hp⟩ := h
  have hL := hi.wellFormed.layout
  have hspans := hL.sum_spans_lt
  have hlive := hi.liveSize_le
  have hinuse : s.arena.vkMemInuse.toNat = s.liveSize := by
    rw [hb.inuse, toNat_sum, map_map]
    · rfl
    · rw [map_map]
      exact hlive.trans_lt hspans
  have htotal : s.arena.vkMemTotal.toNat = (s.arena.spanSegs.map Seg.len).sum := by
    rw [hb.total, toNat_sum, map_map]
    · rfl
    · rw [map_map]
      exact hspans
  have hrest : (s.arena.vkMemTotal-s.arena.vkMemInuse).toNat+s.liveSize =
      (s.arena.spanSegs.map Seg.len).sum := by
    rw [← hinuse, ← htotal] at hlive ⊢
    bv_omega
  refine ⟨?_, ?_, ?_, ⟨l, hp, hb.imports.nodup, hb.imports.spans, ?_⟩, ?_⟩
  · simpa [vmemSize] using hinuse
  · simpa [vmemSize] using htotal
  · simpa [vmemSize] using hrest
  · -- the imported spans are among the spans
    obtain ⟨l', hl, hsub⟩ := subperm_of_subset hb.imports.nodup
      (fun b hm => mem_map.mpr (hb.imports.spans b hm) : l ⊆ s.arena.spanSegs.map Seg.block)
    have hle := (hsub.map fun b => b.size.toNat).sum_le_sum (by simp)
    rw [(hl.map fun b => b.size.toNat).sum_eq, map_map] at hle
    rw [hb.imported, toNat_sum, map_map]
    · rfl
    · rw [map_map]
      exact hle.trans_lt hspans
  · rw [hb.count, ← length_map Seg.block, ← (hi.held.perm hL).length_eq]
    have hlen := hi.length_le
    have hcast : (s.live.length : Word) = BitVec.ofNat 64 s.live.length := rfl
    rw [hcast, BitVec.toNat_ofNat, Nat.mod_eq_of_lt (by omega)]

theorem Sys.Tallied.freeExact_iff (h : s.Tallied) (hi : s.Invariant) :
    s.FreeExact ↔ ∀ b ∈ s.live, s.arena.vmQuantum.toNat ∣ b.size.toNat := by
  have hrest := h.rest
  have hiff := (sum_le_sum_roundUp hi.wellFormed.layout.quantum.pos
    (s.live.map fun b => b.size.toNat)).2
  rw [map_map, forall_mem_map] at hiff
  rw [hi.sum_spans] at hrest
  rw [← hiff, Sys.FreeExact]
  change _ ↔ s.liveSize = _
  simp only [Function.comp_def] at *
  omega

end

variable {quantum : Word} {source : Option Word} {sourceFree xalloc : Bool} {qcacheMax : Word}

/-- After every run of operations in range the counters are the sums they stand for, and the free
memory is what the free segments have exactly when no request was rounded up. -/
theorem run_tallied (hq : IsPow2 quantum) (hsq : ∀ sq ∈ source, IsPow2 sq) {ops : List Op} {s : Sys}
    (h : Runs (Sys.Moves fun s op => op.Admissible s ∧ op.InRange s)
      (Sys.create quantum source sourceFree xalloc qcacheMax) ops s) :
    s.Tallied ∧ (s.FreeExact ↔ ∀ b ∈ s.live, s.arena.vmQuantum.toNat ∣ b.size.toNat) := by
  have hkeeps : s.Invariant ∧ s.Balanced := by
    refine Runs.invariant (P := fun s => s.Invariant ∧ s.Balanced) ?_ h
      ⟨Sys.create_invariant hq hsq, Sys.create_balanced quantum source sourceFree xalloc qcacheMax⟩
    rintro s op s' ⟨hi, hb⟩ ⟨⟨hadm, hok⟩, hs⟩
    exact ⟨hi.step hadm hok hs, hb.step hi.wellFormed (hi.change hadm hs)⟩
  have htally := hkeeps.2.tallied hkeeps.1
  exact ⟨htally, htally.freeExact_iff hkeeps.1⟩

/-- What `vmem_size` returns as free, and what the free segments have. -/
def Sys.freeSizes (s : Sys) : Nat × Nat :=
  ((vmemSize s.arena ⟨false, true⟩).toNat, ((s.arena.segsOf .free).map Seg.len).sum)

theorem Sys.freeExact_iff_freeSizes {s : Sys} : s.FreeExact ↔ s.freeSizes.1 = s.freeSizes.2 :=
  Iff.rfl

/-- One of two requests of whole quanta is freed again. -/
theorem run_tallied_at : ∃ s, Runs (Sys.Moves fun s op => op.Admissible s ∧ op.InRange s)
    (Sys.create 8 none false false 0) (stockOps ++ [.add 0x1000 0x1000,
      .alloc 24 ⟨true, false, false, true⟩, .resume (.nextfit 24 true) ⟨0, 0⟩,
      .alloc 16 ⟨true, false, false, true⟩, .resume (.nextfit 16 true) ⟨0, 0⟩,
      .xfree 0x1000 24]) s ∧
    s.freeSizes = (0xff0, 0xff0) ∧ s.Tallied ∧
      (s.FreeExact ↔ ∀ b ∈ s.live, s.arena.vmQuantum.toNat ∣ b.size.toNat) :=
  (exists_runs (P := fun s op => Op.Admissible s op ∧ Op.InRange s op) (f := Sys.step) _ _
    Sys.freeSizes _ (by decide +kernel)).imp fun _ h =>
    ⟨h.1, h.2, run_tallied ⟨3, by decide⟩ (by simp) h.1⟩

/-- A request of three bytes takes a whole quantum, of which five bytes count as free. -/
theorem run_not_freeExact : ∃ s, Runs (Sys.Moves fun s op => op.Admissible s ∧ op.InRange s)
    (Sys.create 8 none false false 0) (stockOps ++ [.add 0x1000 0x1000,
      .alloc 3 ⟨true, false, false, true⟩, .resume (.nextfit 3 true) ⟨0, 0⟩]) s ∧
    s.freeSizes = (0xffd, 0xff8) ∧ ¬ s.FreeExact :=
  (exists_runs (P := fun s op => Op.Admissible s op ∧ Op.InRange s op) (f := Sys.step) _ _
    Sys.freeSizes _ (by decide +kernel)).imp fun _ h =>
    ⟨h.1, h.2, by
      rw [Sys.freeExact_iff_freeSizes, h.2]
      decide⟩

end Libumem.Vmem
