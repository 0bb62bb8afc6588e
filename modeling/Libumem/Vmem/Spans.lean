import Libumem.Vmem.Books
import Libumem.Vmem.Stocked

/-!
# The span list of an arena without a source

`vmem_span_create` and `vmem_extend_unlocked` keep the spans of such an arena in address order, and
an extension joins the new range with every span it touches. The spans are a row of intervals, and
adding a range to the arena adds it to the row.
-/

namespace Libumem.Vmem
open List Arith Lib
open Libumem.Lib.Intervals (Row Covers Touch Apart Grow)

/-- The addresses of a segment. -/
def Seg.interval (s : Seg) : Nat × Nat := (s.lo, s.hi)

def Arena.spans (vmp : Arena) : List (Nat × Nat) := vmp.kList.map fun sp => (vmp.segs sp).interval

/-- "Non-imported spans are sorted in address order." The marker of a span never has the import
mark, its first segment has. -/
structure Ordered (vmp : Arena) : Prop where
  sorted : vmp.spans.Pairwise fun a b => a.2 ≤ b.1
  unmarked : ∀ sp ∈ vmp.kList, (vmp.segs sp).vsImport = false

variable {vmp vmp' : Arena} {addr size endaddr : Word}

theorem spans_eq (vmp : Arena) : vmp.spans = vmp.spanSegs.map Seg.interval := by
  rw [Arena.spans, Arena.spanSegs, map_map]
  rfl

theorem ordered_iff {vmp : Arena} : Ordered vmp ↔
    (vmp.spanSegs.map Seg.interval).Pairwise (fun a b => a.2 ≤ b.1) ∧
      ∀ a ∈ vmp.spanSegs, a.vsImport = false := by
  rw [← spans_eq, Arena.spanSegs, forall_mem_map]
  exact ⟨fun h => ⟨h.sorted, h.unmarked⟩, fun h => ⟨h.1, h.2⟩⟩

theorem Ordered.row (ho : Ordered vmp) (hL : Layout vmp) : Row vmp.spans := by
  refine ⟨fun a ha => ?_, ho.sorted⟩
  obtain ⟨sp, hsp, rfl⟩ := mem_map.mp ha
  have hlen := (hL.span_bounds hsp).2.2.1
  simp only [Seg.interval, Seg.hi]
  omega

theorem NewRange.apart (h : NewRange vmp addr size) :
    Apart addr.toNat (addr.toNat+size.toNat) vmp.spans := by
  intro a ha
  obtain ⟨sp, hsp, rfl⟩ := mem_map.mp ha
  exact h.disjoint sp hsp

theorem NewRange.lt (h : NewRange vmp addr size) : addr.toNat < addr.toNat+size.toNat := by
  have := h.size_ne
  bv_omega

theorem span_hi (hL : Layout vmp) {a : Seg} (ha : a ∈ vmp.spanSegs) :
    a.hi = a.vsEnd.toNat ∨ a.hi = 2^64 ∧ a.vsEnd = 0 := by
  obtain ⟨sp, hsp, rfl⟩ := mem_map.mp ha
  obtain ⟨-, -, hlen, hhi, -⟩ := hL.span_bounds hsp
  simp only [Seg.hi, Seg.lo, Seg.len, Seg.vsSize] at *
  bv_omega

section
variable {a : Seg} (hL : Layout vmp) (hnew : NewRange vmp addr size) (ha : a ∈ vmp.spanSegs)
include hL hnew ha

theorem interval_moveEnd (hend : a.vsEnd = addr) :
    a.interval = (a.lo, addr.toNat) ∧
      { a with vsEnd := addr+size }.interval = (a.lo, addr.toNat+size.toNat) := by
  obtain ⟨sp, hsp, rfl⟩ := mem_map.mp ha
  have hmeet := hnew.meet_end hL hsp hend
  obtain ⟨hlo, hlen, -⟩ := hnew.wide_end (c := { vmp.segs sp with vsEnd := addr+size }) hL hsp hend
    rfl rfl
  rw [gapSeg_len] at hlen
  simp only [Seg.interval, Prod.mk.injEq, true_and]
  refine ⟨hmeet, hlo, ?_⟩
  rw [Seg.hi, hlo, hlen, ← Nat.add_assoc, ← Seg.hi, hmeet]
  rfl

theorem interval_moveStart (hstart : a.vsStart = addr+size) :
    a.interval = (addr.toNat+size.toNat, a.hi) ∧
      { a with vsStart := addr }.interval = (addr.toNat, a.hi) := by
  obtain ⟨sp, hsp, rfl⟩ := mem_map.mp ha
  have hmeet := hnew.meet_start hstart
  obtain ⟨hlo, hlen, -⟩ := hnew.wide_start (c := { vmp.segs sp with vsStart := addr }) hL hsp hstart
    rfl rfl
  rw [Seg.hi, gapSeg_len] at hmeet
  simp only [Seg.interval, Prod.mk.injEq, and_true]
  refine ⟨hmeet.symm, hlo, ?_⟩
  rw [Seg.hi, hlo, hlen, gapSeg_len, ← Nat.add_assoc, hmeet, ← Seg.hi]

theorem interval_join {b : Seg} (hb : b ∈ vmp.spanSegs) (hend : a.vsEnd = addr)
    (hstart : b.vsStart = addr+size) : { a with vsEnd := b.vsEnd }.interval = (a.lo, b.hi) := by
  have ha' := (interval_moveEnd hL hnew ha hend).1
  have hb' := (interval_moveStart hL hnew hb hstart).1
  obtain ⟨sp, hsp, rfl⟩ := mem_map.mp ha
  obtain ⟨sp', hsp', rfl⟩ := mem_map.mp hb
  obtain ⟨-, hlo, hlen, -⟩ := hL.span_bounds hsp
  obtain ⟨-, -, hlen', hhi', -⟩ := hL.span_bounds hsp'
  simp only [Seg.interval, Prod.mk.injEq, true_and, and_true, Seg.hi, Seg.lo, Seg.len,
    Seg.vsSize] at *
  bv_omega

end

/-- On the addresses an extension is the addition of the range to the row of the spans. -/
theorem SpansGrow.grow {ks ks' : List Seg} (h : SpansGrow True addr size ks ks')
    (hks : ks = vmp.spanSegs) (hL : Layout vmp) (ho : Ordered vmp) (hnew : NewRange vmp addr size) :
    Grow addr.toNat (addr.toNat+size.toNat) (ks.map Seg.interval) (ks'.map Seg.interval) := by
  have hbelow := hnew.below
  have hsum : (addr+size).toNat = addr.toNat+size.toNat := by bv_omega
  have hmem : ∀ a ∈ ks, a ∈ vmp.spanSegs := fun a ha => hks ▸ ha
  have hendNe : ∀ a ∈ ks, a.vsEnd ≠ addr → a.hi ≠ addr.toNat := by
    intro a ha hne he
    rcases span_hi hL (hmem a ha) with hhi | ⟨hhi, -⟩
    · exact hne (BitVec.toNat_inj.mp (hhi.symm.trans he))
    · omega
  have hstartNe : ∀ a : Seg, a.vsStart ≠ addr+size → a.lo ≠ addr.toNat+size.toNat := by
    intro a hne he
    exact hne (BitVec.toNat_inj.mp (he.trans hsum.symm))
  cases h with
  | @join l l' a b hend hstart =>
    have ha := hmem a (by simp)
    have hb := hmem b (by simp)
    simp only [map_append, map_cons]
    rw [interval_join hL hnew ha hb hend hstart, (interval_moveEnd hL hnew ha hend).1,
      (interval_moveStart hL hnew hb hstart).1]
    exact .join
  | @moveEnd l l' a hend hrest =>
    have ha := hmem a (by simp)
    simp only [map_append, map_cons]
    rw [(interval_moveEnd hL hnew ha hend).1, (interval_moveEnd hL hnew ha hend).2]
    refine .moveEnd fun i hi => ?_
    obtain ⟨b, hb, rfl⟩ := mem_map.mp hi
    exact hstartNe b (hrest b hb)
  | @moveStart l l' a hstart hprev =>
    have ha := hmem a (by simp)
    simp only [map_append, map_cons]
    rw [(interval_moveStart hL hnew ha hstart).1, (interval_moveStart hL hnew ha hstart).2]
    refine .moveStart fun i hi => ?_
    rw [getLast?_map] at hi
    obtain ⟨b, hb, rfl⟩ := Option.map_eq_some_iff.mp hi
    exact hendNe b (by simp [mem_of_getLast? hb]) (hprev b hb)
  | @new l l' hnone hplace =>
    have hplace := hplace trivial
    have hnone := hnone trivial
    have hnewSpan : (⟨addr, addr+size, .span, false⟩ : Seg).interval =
        (addr.toNat, addr.toNat+size.toNat) := by
      rw [Seg.interval, Seg.hi, Seg.len, vsSize_range, Seg.lo]
    simp only [map_append, map_cons, hnewSpan]
    refine .new (fun i hi => ?_) fun i hi => ?_
    · rw [getLast?_map] at hi
      obtain ⟨b, hb, rfl⟩ := Option.map_eq_some_iff.mp hi
      have hbm : b ∈ l ++ l' := mem_append_left _ (mem_of_getLast? hb)
      have hne := hendNe b hbm (hnone b hbm).1
      have hlt := (hplace.before b hb).2
      rcases span_hi hL (hmem b hbm) with hhi | ⟨-, hzero⟩
      · simp only [Seg.interval]
        bv_omega
      · simp only [hzero] at hlt
        bv_omega
    · obtain ⟨b, hb, rfl⟩ := mem_map.mp hi
      have hbm : b ∈ l ++ l' := mem_append_right _ hb
      have hne := hstartNe b (hnone b hbm).2
      obtain ⟨sp, hsp, hbs⟩ := mem_map.mp (hmem b hbm)
      have hle : ¬ b.vsEnd-1 < addr := fun hlt =>
        hplace.behind b hb ⟨hbs ▸ ho.unmarked sp hsp, hlt⟩
      have happ := hbs ▸ hnew.disjoint sp hsp
      have hpos : 0 < b.hi := by
        have := (hL.span_bounds hsp).2.1
        rw [← hbs, Seg.hi]
        omega
      simp only [Seg.interval]
      rcases span_hi hL (hmem b hbm) with hhi | ⟨hhi, -⟩
      · bv_omega
      · omega

theorem SpansGrow.unmarked {searched : Prop} {ks ks' : List Seg}
    (h : SpansGrow searched addr size ks ks') (hks : ∀ a ∈ ks, a.vsImport = false) :
    ∀ a ∈ ks', a.vsImport = false := by
  cases h <;> simp_all [or_imp, forall_and]

theorem extendSpan_isSome (h : 2 ≤ vmp.vmSegfree.length) (span : SegId) (addr endaddr : Word) :
    ∃ w vmp', extendSpan vmp span addr endaddr = some (w, vmp') := by
  unfold extendSpan extendEnd extendStart
  dsimp only
  split
  · exact ⟨_, _, rfl⟩
  · split
    · split
      · exact ⟨_, _, rfl⟩
      · have hstock : 1 ≤ (vmp.setEnd span endaddr).vmSegfree.length := by
          simp only [setEnd_eq, setSeg_frame]
          omega
        obtain ⟨x, vmp', hc, -⟩ :=
          vmemSegCreate_isSome hstock (vmp.aPrev (vmp.kNext span)) addr endaddr
        exact ⟨x, vmp', hc⟩
    · split
      · exact ⟨_, _, rfl⟩
      · have hstock : 1 ≤ (vmp.setStart span addr).vmSegfree.length := by
          simp only [setStart_eq, setSeg_frame]
          omega
        obtain ⟨x, vmp', hc, -⟩ := vmemSegCreate_isSome hstock span addr endaddr
        exact ⟨x, vmp', hc⟩

theorem vmemExtendUnlocked_isSome (hw : WellFormed vmp) (hstock : Stocked vmp)
    (hnew : NewRange vmp addr size) :
    ∃ w vmp', vmemExtendUnlocked vmp addr (addr+size) = some (w, vmp') := by
  unfold vmemExtendUnlocked
  dsimp only
  split
  · rw [add_sub_cancel_left addr size]
    refine vmemSpanCreate_isSome hstock.two_le ?_ false
    have hq := hw.layout.quantum
    rw [or_and_eq_zero_iff, and_pred_eq_zero_iff _ hq, and_pred_eq_zero_iff _ hq]
    exact ⟨hnew.addr_aligned, dvd_toNat_add hq hnew.addr_aligned hnew.size_aligned⟩
  · rename_i span _
    obtain ⟨w, vmp', hsome⟩ := extendSpan_isSome hstock.two_le span addr (addr+size)
    exact ⟨_, _, by rw [hsome]; rfl⟩

/-- What `vmem_extend_unlocked` does for its callers. -/
structure SpansExtended (vmp vmp' : Arena) (vsp : SegId) (addr endaddr : Word) : Prop where
  wellFormed : WellFormed vmp'
  keeps : Keeps vmp vmp'
  covers : ∀ z, Covers vmp'.spans z ↔ Covers vmp.spans z ∨ addr.toNat ≤ z ∧ z < endaddr.toNat
  ordered : Ordered vmp'
  border : ∀ a ∈ vmp'.spans, a.2 ≠ addr.toNat ∧ a.1 ≠ endaddr.toNat
  touch : ∀ z, Touch vmp'.spans z → Touch vmp.spans z
  mem : vsp ∈ vmp'.aList
  free : (vmp'.segs vsp).vsType = .free
  range : (vmp'.segs vsp).lo ≤ addr.toNat ∧ endaddr.toNat ≤ (vmp'.segs vsp).hi

theorem Extended.spansExtended {vmp' : Arena} {vsp : SegId} {size : Word}
    (h : Extended vmp vmp' vsp addr size) (hL : Layout vmp) (hs : vmp.vmSource = none)
    (ho : Ordered vmp) (hnew : NewRange vmp addr size) :
    SpansExtended vmp vmp' vsp addr (addr+size) := by
  have hsum : (addr+size).toNat = addr.toNat+size.toNat := by
    have := hnew.below
    bv_omega
  have hspans : SpansGrow (vmp.vmSource = none) addr size vmp.spanSegs vmp'.spanSegs := h.spans
  rw [eq_true hs] at hspans
  have hgrow := hspans.grow rfl hL ho hnew
  rw [← spans_eq, ← spans_eq] at hgrow
  obtain ⟨hrow, hcov, hborder, htouch⟩ := hgrow.spec hnew.lt (ho.row hL) hnew.apart
  have hmarks := hspans.unmarked (ordered_iff.mp ho).2
  rw [← hsum] at hcov hborder
  refine ⟨h.wellFormed, h.keeps, hcov, ?_, hborder, htouch, h.mem, h.free, ?_⟩
  · rw [ordered_iff, ← spans_eq]
    exact ⟨hrow.sorted, hmarks⟩
  rw [hsum]
  exact h.range

/-- An extension covers the range in addition to what was covered, leaves the allocated segments
alone, keeps the spans in order, joins whatever touches the range, and returns a free segment
around it. -/
theorem vmemExtendUnlocked_spec (hw : WellFormed vmp) (hs : vmp.vmSource = none)
    (hstock : Stocked vmp) (ho : Ordered vmp) (hnew : NewRange vmp addr (endaddr - addr)) :
    ∃ vsp vmp', vmemExtendUnlocked vmp addr endaddr = some (vsp, vmp') ∧
      SpansExtended vmp vmp' vsp addr endaddr := by
  obtain ⟨size, rfl⟩ : ∃ size, endaddr = addr+size := ⟨endaddr-addr, by ring⟩
  rw [add_sub_cancel_left addr size] at hnew
  obtain ⟨vsp, vmp', hext⟩ := vmemExtendUnlocked_isSome hw hstock hnew
  exact ⟨vsp, vmp', hext,
    (vmemExtendUnlocked_extended hw hnew hext).spansExtended hw.layout hs ho hnew⟩

theorem Ordered.congr (ho : Ordered vmp) (h : vmp'.spanSegs = vmp.spanSegs) : Ordered vmp' := by
  rw [ordered_iff] at *
  rwa [h]

theorem Ordered.handBack {k : VmemKstat} {l : List Block} {released : Option Block}
    (ho : Ordered vmp) (hi : Imports vmp l) (hs : vmp.vmSource = none)
    (h : Released vmp vmp' k l released) : Ordered vmp' := by
  cases h with
  | kept hspans => exact ho.congr hspans
  | gone hmem => simp [hi.source hs] at hmem

/-- `vmem_add` does not look for spans to join, but keeps the order. -/
theorem SpanAdded.ordered {pre post : List SegId} {sp x : SegId} {vaddr size : Word} (hL : Layout vmp)
    (ha : vmp.aList = pre ++ post) (h : SpanAdded vmp vmp' pre sp x post vaddr size false)
    (hs : vmp.vmSource = none) (hnew : NewSpan vmp vaddr size) (ho : Ordered vmp) :
    Ordered vmp' := by
  obtain ⟨hmap, hmap'⟩ := h.map_kList hL ha
  have hplace := h.spanPlace hL hs ha
  have hrow := ho.row hL
  rw [spans_eq, Arena.spanSegs, hmap] at hrow
  have hmem : ∀ a ∈ (pre.filter vmp.isSpan).map vmp.segs ++ (post.filter vmp.isSpan).map vmp.segs,
      a ∈ vmp.spanSegs := fun a ha => by rwa [Arena.spanSegs, hmap]
  generalize (pre.filter vmp.isSpan).map vmp.segs = k at *
  generalize (post.filter vmp.isSpan).map vmp.segs = k' at *
  have hinterval : (⟨vaddr, vaddr+size, .span, false⟩ : Seg).interval =
      (vaddr.toNat, vaddr.toNat+size.toNat) := by
    rw [Seg.interval, Seg.hi, Seg.len, vsSize_range, Seg.lo]
  have hpos : 0 < size.toNat := by
    have := hnew.size_ne
    bv_omega
  rw [ordered_iff, Arena.spanSegs, hmap']
  constructor
  · rw [map_append, map_cons, hinterval]
    rw [map_append] at hrow
    refine (hrow.insert (by omega) (fun i hi => ?_) fun i hi => ?_).sorted
    · rw [getLast?_map] at hi
      obtain ⟨b, hb, rfl⟩ := Option.map_eq_some_iff.mp hi
      have hlt := (hplace.before b hb).2
      rcases span_hi hL (hmem b (by simp [mem_of_getLast? hb])) with hhi | ⟨-, hzero⟩
      · simp only [Seg.interval]
        bv_omega
      · simp only [hzero] at hlt
        bv_omega
    · obtain ⟨b, hb, rfl⟩ := mem_map.mp hi
      have hbm := hmem b (mem_append_right _ hb)
      have hle : ¬ b.vsEnd-1 < vaddr := fun hlt =>
        hplace.behind b hb ⟨(ordered_iff.mp ho).2 b hbm, hlt⟩
      obtain ⟨sp, hsp, rfl⟩ := mem_map.mp hbm
      have hapart := hnew.disjoint sp hsp
      have hbpos : 0 < (vmp.segs sp).hi := by
        have := (hL.span_bounds hsp).2.1
        rw [Seg.hi]
        omega
      simp only [Seg.interval]
      rcases span_hi hL hbm with hhi | ⟨hhi, -⟩
      · bv_omega
      · have hbound := hnew.bound
        omega
  · intro a ha
    rcases mem_append.mp ha with ha | ha
    · exact (ordered_iff.mp ho).2 a (hmem a (mem_append_left _ ha))
    · rcases mem_cons.mp ha with rfl | ha
      · rfl
      · exact (ordered_iff.mp ho).2 a (hmem a (mem_append_right _ ha))

theorem Acts.ordered {a i r l live : List Block} (h : Acts vmp vmp' a i r) (hw : WellFormed vmp)
    (hb : Books vmp live l) (hs : vmp.vmSource = none) (ho : Ordered vmp) : Ordered vmp' := by
  induction h generalizing l live with
  | count => exact ho.congr rfl
  | alloc hv ht fits h =>
    obtain ⟨pre, post, ha⟩ := append_of_mem hv
    obtain ⟨left, right, hc⟩ := vmemSegAlloc_carved hw.layout hw.indexed ha ht fits h
    exact ho.congr (hc.spanSegs hw.layout ha ht)
  | advance hmem hm hplace =>
    exact ho.handBack hb.imports hs ((vmemAdvance_advanced hw.layout hw.indexed hmem hm hplace
      rfl).handsBack hw.layout hmem hb.imports)
  | span imported hnew hsource h =>
    cases imported with
    | true => simp [hs] at hsource
    | false =>
      obtain ⟨pre, sp, post, ha, -, hadd, -⟩ := vmemSpanCreate_added hw.layout h
      exact hadd.ordered hw.layout ha hs hnew ho
  | extend _ hnew h =>
    exact ((vmemExtendUnlocked_extended hw hnew h).spansExtended hw.layout hs ho hnew).ordered
  | trans h _ ih ih' =>
    obtain ⟨hw', hconf⟩ := h.wellFormed hw
    obtain ⟨l', hb', -⟩ := h.books hw hb
    exact ih' hw' hb' (hconf ▸ hs) (ih hw hb hs ho)

theorem Ordered.step {s s' : Sys} {l : List Block} (ho : Ordered s.arena) (hw : WellFormed s.arena)
    (hb : Books s.arena s.live l) (hsource : s.arena.vmSource = none) (hs : Sys.Change s s') :
    Ordered s'.arena := by
  cases hs with
  | acts hacts => exact hacts.ordered hw hb hsource ho
  | free hmem hfree =>
    obtain ⟨pre, prev, v, next, post, w, -, -, hf⟩ := vmemXfree_freed hw.layout hw.indexed hfree
    exact ho.handBack hb.imports hsource (hf.handsBack hw.layout hb.imports)
  | unlink hmem ht hadv =>
    exact ho.handBack hb.imports hsource ((vmemAdvance_advanced hw.layout hw.indexed hmem
      (isMarker_iff.mpr (.inr ht)) (by simp [Arena.Place]) hadv).handsBack hw.layout hmem hb.imports)
  | link hnew harena =>
    rw [harena]
    exact ho.congr (vmemWalkInsert_spanSegs hw fun hm => hnew (by simp [hm]))
  | stock _ harena =>
    rw [harena]
    exact ho.congr rfl

/-- What every run of an arena without a source keeps. -/
structure Sys.InOrder (s : Sys) : Prop where
  invariant : s.Invariant
  balanced : s.Balanced
  source : s.arena.vmSource = none
  ordered : Ordered s.arena

theorem run_inOrder {quantum : Word} {sourceFree xalloc : Bool} {qcacheMax : Word}
    (hq : IsPow2 quantum) {ops : List Op} {s : Sys}
    (h : Runs (Sys.Moves fun s op => op.Admissible s ∧ op.InRange s)
      (Sys.create quantum none sourceFree xalloc qcacheMax) ops s) : s.InOrder := by
  refine Runs.invariant ?_ h ⟨Sys.create_invariant hq (by simp), Sys.create_balanced _ _ _ _ _, rfl,
    ⟨Pairwise.nil, by simp [Sys.create, vmemCreate]⟩⟩
  rintro s op s' ⟨hi, hb, hsource, ho⟩ ⟨⟨hadm, hok⟩, hs⟩
  have hchange := hi.change hadm hs
  have hconf := (hchange.keeps hi.wellFormed hi.held).2.2
  refine ⟨hi.step hadm hok hs, hb.step hi.wellFormed hchange, ?_, ?_⟩
  · rw [hconf]
    exact hsource
  · obtain ⟨l, hbooks, -⟩ := hb
    exact ho.step hi.wellFormed hbooks hsource hchange

/-- The spans, the quantum, and the segment structures in stock. -/
def Sys.spanView (s : Sys) : List (Nat × Nat) × Word × Nat :=
  (s.arena.spans, s.arena.vmQuantum, s.arena.vmSegfree.length)

theorem newRange_of_spans {vmp : Arena} {addr size : Word} (hsize : size ≠ 0) (haddr : addr ≠ 0)
    (hbelow : addr.toNat+size.toNat < 2^64) (haddrq : vmp.vmQuantum.toNat ∣ addr.toNat)
    (hsizeq : vmp.vmQuantum.toNat ∣ size.toNat)
    (hapart : Apart addr.toNat (addr.toNat+size.toNat) vmp.spans) : NewRange vmp addr size :=
  ⟨⟨haddr, hsize, hbelow.le, fun _ hsp => hapart _ (mem_map_of_mem hsp)⟩, hbelow, haddrq, hsizeq⟩

instance (p q : Nat) (l : List (Nat × Nat)) : Decidable (Apart p q l) :=
  inferInstanceAs (Decidable (∀ a ∈ l, a.2 ≤ p ∨ q ≤ a.1))

/-- The gap between two spans is closed, next to an allocation at the end of the first one. -/
theorem vmemExtendUnlocked_spec_at : ∃ s,
    Runs (Sys.Moves fun s op => op.Admissible s ∧ op.InRange s) (Sys.create 8 none false false 0)
      ((List.range 24).map (fun i => .putseg (i + 2)) ++ [.add 0x1000 0x1000, .add 0x3000 0x1000,
        .alloc 0x1000 ⟨true, false, false, true⟩, .resume (.nextfit 0x1000 true) ⟨0, 0⟩]) s ∧
    s.spanView = ([(0x1000, 0x2000), (0x3000, 0x4000)], 8, 20) ∧
    ∃ vsp vmp', vmemExtendUnlocked s.arena 0x2000 0x3000 = some (vsp, vmp') ∧
      SpansExtended s.arena vmp' vsp 0x2000 0x3000 :=
  (exists_runs (P := fun s op => Op.Admissible s op ∧ Op.InRange s op) (f := Sys.step) _ _
    Sys.spanView _ (by decide +kernel)).imp fun s h => ⟨h.1, h.2, by
    obtain ⟨hspans, hquantum, hstock⟩ : s.arena.spans = [(0x1000, 0x2000), (0x3000, 0x4000)] ∧
        s.arena.vmQuantum = 8 ∧ s.arena.vmSegfree.length = 20 := by
      simpa [Sys.spanView] using h.2
    have hkeeps := run_inOrder ⟨3, by decide⟩ h.1
    refine vmemExtendUnlocked_spec hkeeps.invariant.wellFormed hkeeps.source ?_ hkeeps.ordered
      (newRange_of_spans (by decide) (by decide) (by decide) ?_ ?_ ?_)
    · rw [Stocked, hstock]
      decide
    · rw [hquantum]
      decide
    · rw [hquantum]
      decide
    · rw [hspans]
      decide⟩

end Libumem.Vmem
