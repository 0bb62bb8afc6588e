import Libumem.Vmem.Invariant

/-!
# The spans of an arena and the ones it has imported

What each thing that can happen to an arena does to its spans. An import mark is always on a segment
of an imported span, so that the spans which go back to the source are spans that came from it.
-/

namespace Libumem.Vmem
open Function List Arith Lib Pow2

def Arena.spanSegs (vmp : Arena) : List Seg := vmp.kList.map vmp.segs

def Block.Has (b : Block) (z : Nat) : Prop := b.addr.toNat ≤ z ∧ z < b.addr.toNat + b.size.toNat

/-- The spans `l` came from the source, and the import marks are on their segments. -/
structure Imports (vmp : Arena) (l : List Block) : Prop where
  nodup : l.Nodup
  spans : ∀ b ∈ l, ∃ a ∈ vmp.spanSegs, a.block = b
  marks : ∀ y ∈ vmp.aList, (vmp.segs y).vsImport = true →
    (vmp.segs y).Filled ∧ ∃ b ∈ l, b.Has (vmp.segs y).lo
  source : vmp.vmSource = none → l = []

section
variable {vmp vmp' : Arena} {pre post left right : List SegId} {v x : SegId} {addr size : Word}
  {l : List Block}

theorem Layout.mem_aList (hL : Layout vmp) {sp : SegId} (hsp : sp ∈ vmp.kList) : sp ∈ vmp.aList := by
  rw [hL.spans] at hsp
  exact mem_of_mem_filter hsp

theorem Layout.within_of_has (hL : Layout vmp) {y : SegId} (hy : y ∈ vmp.aList)
    (ht : (vmp.segs y).Filled) {a : Seg} (ha : a ∈ vmp.spanSegs) (hhas : a.block.Has (vmp.segs y).lo) :
    a.lo ≤ (vmp.segs y).lo ∧ (vmp.segs y).hi ≤ a.hi := by
  obtain ⟨sp, hsp, rfl⟩ := mem_map.mp ha
  obtain ⟨pre, post, hl⟩ := append_of_mem hy
  obtain ⟨sp', hsp', -, hin⟩ := hL.in_span hl ht
  obtain ⟨s, t, -, hs, -⟩ := hL.scan_at hl
  obtain ⟨-, -, hlen, -⟩ := Scan.step_filled hL.quantum.pos ht hs
  by_cases hne : sp = sp'
  · rw [hne]
    exact hin
  · have hd := hL.spans_disjoint hsp hsp' hne
    simp only [Block.Has, Seg.block] at hhas
    simp only [Seg.Disjoint, Seg.hi, Seg.lo, Seg.len] at hd hin hhas hlen ⊢
    omega

theorem Imports.carry {l : List Block} (h : Imports vmp l) (hL : Layout vmp)
    (hspans : vmp'.spanSegs = vmp.spanSegs) (hconf : vmp'.toArenaConf = vmp.toArenaConf)
    (hmarks : ∀ y ∈ vmp'.aList, (vmp'.segs y).vsImport = true → (vmp'.segs y).Filled ∧
      ∃ z ∈ vmp.aList, (vmp.segs z).vsImport = true ∧ (vmp.segs z).lo ≤ (vmp'.segs y).lo ∧
        (vmp'.segs y).lo < (vmp.segs z).hi) : Imports vmp' l := by
  refine ⟨h.nodup, hspans ▸ h.spans, fun y hy hm => ?_, hconf ▸ h.source⟩
  obtain ⟨hfilled, z, hz, hzm, hlo, hhi⟩ := hmarks y hy hm
  obtain ⟨hzf, b, hb, hhas⟩ := h.marks z hz hzm
  obtain ⟨a, ha, rfl⟩ := h.spans b hb
  obtain ⟨-, hle⟩ := hL.within_of_has hz hzf ha hhas
  refine ⟨hfilled, a.block, hb, ?_⟩
  simp only [Block.Has, Seg.block, Seg.hi, Seg.lo, Seg.len] at *
  omega

section
variable (h : Carved vmp vmp' pre v post left x right addr size) (hL : Layout vmp)
  (ha : vmp.aList = pre ++ v :: post)
include h hL ha

theorem Carved.not_mem {y : SegId} (hy : y ∈ vmp.aList) (hne : y ≠ v) : y ∉ left ++ x :: right := by
  obtain ⟨extra, hstock, -, hperm⟩ := h.stock
  intro hm
  rcases mem_cons.mp (hperm.mem_iff.mpr hm) with rfl | hm
  · exact hne rfl
  · have hnd := hL.nodup
    rw [hstock] at hnd
    simp only [nodup_cons, nodup_append, mem_append] at hnd
    exact hnd.2.2.2 y hy y (.inl hm) rfl

theorem Carved.spanSegs (ht : (vmp.segs v).vsType = .free) : vmp'.spanSegs = vmp.spanSegs := by
  rw [Arena.spanSegs, h.kList]
  refine map_congr_left fun y hy => h.others y (h.not_mem hL ha (hL.mem_aList hy) ?_)
  rintro rfl
  simp [(hL.span_bounds hy).1] at ht

theorem Carved.imports {l : List Block} (ht : (vmp.segs v).vsType = .free)
    (fits : Fits vmp.vmQuantum (vmp.segs v) addr size) (hi : Imports vmp l) : Imports vmp' l := by
  obtain ⟨xmark, rmark, hx, hright, hmarks⟩ := h.marks
  obtain ⟨s, t, -, hs, -⟩ := hL.scan_at ha
  obtain ⟨hle, hround⟩ := fits.roundUp_bounds hL.quantum ht hs
  have hv : v ∈ vmp.aList := by simp [ha]
  have hlower := fits.lower
  have hupper := fits.upper
  have hpos := fits.size_pos
  refine hi.carry hL (h.spanSegs hL ha ht) h.conf fun y hy hm => ?_
  have hcases : y ∈ left ∨ y = x ∨ y ∈ right ∨ y ∈ vmp.aList ∧ y ≠ v := by
    have hnd := hL.nodup_aList
    rw [ha] at hnd ⊢
    rw [h.aList] at hy
    simp only [mem_append, mem_cons, nodup_cons, nodup_append] at hy hnd ⊢
    grind
  rcases hcases with hmem | rfl | hmem | ⟨hmem, hne⟩
  · have hseg : vmp'.segs y ∈ left.map vmp'.segs := mem_map_of_mem hmem
    rw [h.left_segs, remainderSegs] at hseg
    split at hseg <;> simp_all
  · rw [hx] at hm ⊢
    rcases hmarks with ⟨rfl, hmark, -⟩ | ⟨-, hmark, -⟩
    · refine ⟨.inl rfl, y, hv, hmark ▸ hm, hlower, ?_⟩
      change addr.toNat < _
      omega
    · simp [hmark] at hm
  · have hseg : vmp'.segs y ∈ right.map vmp'.segs := mem_map_of_mem hmem
    rw [hright, remainderSegs] at hseg
    split at hseg
    · rename_i hne
      rw [mem_singleton] at hseg
      rw [hseg] at hm ⊢
      rcases hmarks with ⟨-, -, hmark⟩ | ⟨-, -, hmark⟩
      · simp [hmark] at hm
      · refine ⟨.inr rfl, v, hv, hmark ▸ hm, ?_⟩
        obtain ⟨hold, -⟩ := (Scan.step_free ht).mp hs
        have hstart := hold.start
        have hroom := hold.room
        have hbound := hold.bound
        simp only [Seg.hi, Seg.lo, Seg.len, Seg.vsSize] at *
        bv_omega
    · simp at hseg
  · have hsame := h.others y (h.not_mem hL ha hmem hne)
    rw [hsame] at hm ⊢
    have hfilled := (hi.marks y hmem hm).1
    exact ⟨hfilled, y, hmem, hm, le_rfl, hL.filled_lo_lt hmem hfilled⟩

end

theorem SpanAdded.imports {sp x : SegId} {vaddr size : Word} {imported : Bool} (hL : Layout vmp)
    (ha : vmp.aList = pre ++ post) (h : SpanAdded vmp vmp' pre sp x post vaddr size imported)
    (hnew : NewSpan vmp vaddr size) (hsource : imported = true → vmp.vmSource.isSome = true)
    (hi : Imports vmp l) : Imports vmp' ((if imported then [⟨vaddr, size⟩] else []) ++ l) := by
  obtain ⟨hmap, hmap'⟩ := h.map_kList hL ha
  have hspans : ∀ a ∈ vmp.spanSegs, a ∈ vmp'.spanSegs := by
    intro a hm
    rw [Arena.spanSegs, hmap'] at *
    rw [hmap] at hm
    simp only [mem_append, mem_cons] at hm ⊢
    tauto
  have hblock : (⟨vaddr, vaddr+size, .span, false⟩ : Seg).block = ⟨vaddr, size⟩ := by
    rw [Seg.block, vsSize_range]
  constructor
  · cases imported with
    | false => simpa using hi.nodup
    | true =>
      refine nodup_cons.mpr ⟨fun hm => ?_, hi.nodup⟩
      obtain ⟨a, ha, hab⟩ := hi.spans _ hm
      obtain ⟨sp', hsp', rfl⟩ := mem_map.mp ha
      have hd := hnew.disjoint sp' hsp'
      have hne := hnew.size_ne
      simp only [Seg.block, Block.mk.injEq] at hab
      simp only [Seg.hi, Seg.lo, Seg.len, hab.1, hab.2] at hd
      bv_omega
  · intro b hb
    rcases mem_append.mp hb with hb | hb
    · refine ⟨⟨vaddr, vaddr+size, .span, false⟩, ?_, ?_⟩
      · rw [Arena.spanSegs, hmap']
        simp
      · rw [hblock]
        cases imported <;> simp_all
    · obtain ⟨a, ha, hab⟩ := hi.spans b hb
      exact ⟨a, hspans a ha, hab⟩
  · intro y hy hm
    by_cases hyx : y = x
    · subst hyx
      rw [h.seg] at hm ⊢
      refine ⟨.inr rfl, ⟨vaddr, size⟩, ?_, ?_⟩
      · have : imported = true := hm
        simp [this]
      · have hne := hnew.size_ne
        simp only [Block.Has, Seg.lo]
        bv_omega
    · have hne : y ≠ sp := by
        rintro rfl
        simp [h.span] at hm
      have hmem : y ∈ vmp.aList := by
        rw [h.aList] at hy
        simpa [hne, hyx, ha] using hy
      rw [h.segs_of_mem hL hmem] at hm ⊢
      obtain ⟨hfilled, b, hb, hhas⟩ := hi.marks y hmem hm
      exact ⟨hfilled, b, mem_append_right _ hb, hhas⟩
  · rw [h.conf]
    intro hn
    cases imported with
    | false => simpa using hi.source hn
    | true => simp [hn] at hsource

theorem Imports.block_mem (hi : Imports vmp l) (hL : Layout vmp) {front rest : List SegId}
    {sp w : SegId} (ha : vmp.aList = front ++ sp :: w :: rest)
    (hsp : (vmp.segs sp).vsType = .span) (hw : (vmp.segs w).vsImport = true) :
    (vmp.segs sp).block ∈ l := by
  obtain ⟨hfilled, b, hb, hhas⟩ := hi.marks w (by simp [ha]) hw
  obtain ⟨a, hm, rfl⟩ := hi.spans b hb
  obtain ⟨sp', hsp', rfl⟩ := mem_map.mp hm
  have hspan : vmp.isSpan sp = true := by simp [Arena.isSpan, hsp]
  have hspk : sp ∈ vmp.kList := hL.mem_kList (by simp [ha]) hspan
  have ha' : vmp.aList = front ++ sp :: ([] ++ w :: rest) := ha
  have hin := hL.within ha' hspan (by simp) hfilled
  have hlt := hL.filled_lo_lt (by simp [ha] : w ∈ vmp.aList) hfilled
  by_cases hne : sp' = sp
  · rwa [hne] at hb
  · have hd := hL.spans_disjoint hsp' hspk hne
    simp only [Block.Has, Seg.block, Seg.Disjoint, Seg.hi, Seg.lo, Seg.len] at *
    omega

/-- An imported span is removed with all its segments. -/
theorem Imports.remove (hi : Imports vmp l) (hL : Layout vmp) (hL' : Layout vmp')
    {front inner rest : List SegId} {sp : SegId} (ha : vmp.aList = front ++ sp :: (inner ++ rest))
    (hsp : sp ∈ vmp.kList) (ha' : vmp'.aList = front ++ rest) (hk : vmp'.kList = vmp.kList.erase sp)
    (hsegs : ∀ y ∈ front ++ rest, vmp'.segs y = vmp.segs y)
    (hconf : vmp'.toArenaConf = vmp.toArenaConf) :
    Imports vmp' (l.erase (vmp.segs sp).block) ∧ vmp.spanSegs.Perm (vmp.segs sp :: vmp'.spanSegs) := by
  have hkeep : ∀ y ∈ vmp'.kList, vmp'.segs y = vmp.segs y := fun y hy =>
    hsegs y (ha' ▸ hL'.mem_aList hy)
  have hspans : vmp'.spanSegs = (vmp.kList.erase sp).map vmp.segs := by
    rw [Arena.spanSegs, map_congr_left hkeep, hk]
  have hne : ∀ y ∈ vmp'.kList, y ≠ sp ∧ y ∈ vmp.kList := fun y hy =>
    (hL.nodup_kList.mem_erase_iff).mp (hk ▸ hy)
  refine ⟨⟨hi.nodup.erase _, fun b hb => ?_, fun y hy hm => ?_, fun hn => ?_⟩, ?_⟩
  · obtain ⟨hbne, hb⟩ := hi.nodup.mem_erase_iff.mp hb
    obtain ⟨a, hm, rfl⟩ := hi.spans b hb
    obtain ⟨y, hy, rfl⟩ := mem_map.mp hm
    refine ⟨vmp.segs y, ?_, rfl⟩
    rw [hspans]
    exact mem_map_of_mem ((mem_erase_of_ne fun he => hbne (by rw [he])).mpr hy)
  · have hmem : y ∈ front ++ rest := ha' ▸ hy
    have hold : y ∈ vmp.aList := by
      rw [ha]
      simp only [mem_append, mem_cons] at hmem ⊢
      tauto
    have hsame := hsegs y hmem
    rw [hsame] at hm ⊢
    obtain ⟨hfilled, b, hb, hhas⟩ := hi.marks y hold hm
    refine ⟨hfilled, b, hi.nodup.mem_erase_iff.mpr ⟨?_, hb⟩, hhas⟩
    rintro rfl
    -- the segment lies in one of the spans that stay
    obtain ⟨pre, post, hl⟩ := append_of_mem hy
    obtain ⟨sp', hsp', -, hin⟩ := hL'.in_span hl (by rwa [hsame])
    have hlt := hL.filled_lo_lt hold hfilled
    obtain ⟨hne', hsp''⟩ := hne sp' hsp'
    have hd := hL.spans_disjoint hsp'' hsp hne'
    rw [hkeep sp' hsp', hsame] at hin
    simp only [Block.Has, Seg.block, Seg.Disjoint, Seg.hi, Seg.lo, Seg.len] at *
    omega
  · rw [hconf] at hn
    simp [hi.source hn]
  · rw [hspans, Arena.spanSegs, ← map_cons]
    exact (perm_cons_erase hsp).map _

end

/-- The effect on the spans of a section that may hand one back: `k` are the counters without
that. -/
inductive Released (vmp vmp' : Arena) (k : VmemKstat) (l : List Block) : Option Block → Prop
  | kept (spans : vmp'.spanSegs = vmp.spanSegs) (imports : Imports vmp' l)
      (kstat : vmp'.toVmemKstat = k) : Released vmp vmp' k l none
  | gone {a : Seg} (mem : a.block ∈ l) (spans : vmp.spanSegs.Perm (a :: vmp'.spanSegs))
      (imports : Imports vmp' (l.erase a.block))
      (kstat : vmp'.toVmemKstat = k.spanRemoved a.vsSize true) :
      Released vmp vmp' k l (some a.block)

variable {vmp vmp' : Arena} {walker v w : SegId} {afterme : Option SegId} {l : List Block}
  {pre prev next post : List SegId} {released : Option Block}

theorem Joined.same_start (h : Joined vmp vmp' walker afterme) (hmem : walker ∈ vmp.aList)
    {y : SegId} (hy : y ∈ vmp'.aList) :
    y ∈ vmp.aList ∧ (vmp'.segs y).lo = (vmp.segs y).lo ∧
      (vmp'.segs y).vsImport = (vmp.segs y).vsImport := by
  have hseg : (vmp'.segs y).lo = (vmp.segs y).lo ∧
      (vmp'.segs y).vsImport = (vmp.segs y).vsImport := by
    rcases h.body with ⟨-, hs, -⟩ | ⟨front, p, n, back, -, -, -, -, hs, -⟩
    · rw [hs]
      exact ⟨rfl, rfl⟩
    · rw [hs]
      by_cases hyp : y = p
      · subst hyp
        rw [update_self]
        exact ⟨rfl, rfl⟩
      · rw [update_of_ne hyp]
        exact ⟨rfl, rfl⟩
  refine ⟨?_, hseg⟩
  have hmark : vmp'.isMarker y = vmp.isMarker y := by
    rw [Arena.isMarker, h.types, Arena.isMarker]
  cases hm : vmp.isMarker y with
  | true =>
    have := (h.markers y hm).mp hy
    split at this
    · rename_i he
      rwa [he]
    · exact this
  | false =>
    have hbody : y ∈ vmp'.body := mem_filter.mpr ⟨hy, by simp [hmark, hm]⟩
    suffices hold : y ∈ vmp.body from mem_of_mem_filter hold
    rcases h.body with ⟨hb, -⟩ | ⟨front, p, n, back, hb, hb', -⟩
    · rwa [hb] at hbody
    · rw [hb'] at hbody
      rw [hb]
      simp only [mem_append, mem_cons] at hbody ⊢
      tauto

theorem Joined.spanSegs (h : Joined vmp vmp' walker afterme) (hL : Layout vmp) :
    vmp'.spanSegs = vmp.spanSegs := by
  rw [Arena.spanSegs, h.kList]
  refine map_congr_left fun y hy => ?_
  rcases h.body with ⟨-, hs, -⟩ | ⟨front, p, n, back, -, -, hp, -, hs, -⟩
  · rw [hs]
  · rw [hs, update_of_ne]
    rintro rfl
    simp [(hL.span_bounds hy).1] at hp

theorem Joined.imports (h : Joined vmp vmp' walker afterme) (hL : Layout vmp)
    (hmem : walker ∈ vmp.aList) (hi : Imports vmp l) : Imports vmp' l := by
  refine hi.carry hL (h.spanSegs hL) h.conf fun y hy hm => ?_
  obtain ⟨hold, hlo, hmark⟩ := h.same_start hmem hy
  rw [hmark] at hm
  have hfilled := (hi.marks y hold hm).1
  refine ⟨?_, y, hold, hm, hlo.ge, ?_⟩
  · rwa [Seg.Filled, h.types]
  · rw [hlo]
    exact hL.filled_lo_lt hold hfilled

theorem Advanced.handsBack {released : Option Block} (h : Advanced vmp walker afterme vmp' released)
    (hL : Layout vmp) (hmem : walker ∈ vmp.aList) (hi : Imports vmp l) :
    Released vmp vmp' vmp.toVmemKstat l released := by
  cases h with
  | kept hj _ => exact .kept (hj.spanSegs hL) (hj.imports hL hmem hi) hj.kstat
  | @gone mid _ front post sp w hj hsplit hspan _ hfree hmark hrange hr hL' =>
    have hmid := hj.imports hL hmem hi
    have hspk : sp ∈ mid.kList :=
      hj.layout.mem_kList (by simp [hsplit]) (by simp [Arena.isSpan, hspan])
    have hsegs : vmp'.segs = mid.segs := by simp [hr.segs]
    have hsplit' : mid.aList = front ++ sp :: ([w] ++ post) := hsplit
    obtain ⟨himp, hperm⟩ := hmid.remove hj.layout hL' hsplit' hspk hr.aList
      (by simp [hr.kList]) (fun y _ => by rw [hsegs]) (by simp [hr.conf])
    refine .gone (a := mid.segs sp) (hmid.block_mem hj.layout hsplit hspan hmark) ?_ himp ?_
    · rw [← hj.spanSegs hL]
      exact hperm
    · rw [hr.kstat, ← hj.kstat]
      simp [hmark, hrange.2]

theorem Freed.survivor_mem (h : Freed vmp vmp' pre prev v next post w released) :
    ∃ rest, prev ++ v :: next = w :: rest := by
  rcases h.survivor with ⟨rfl, rfl⟩ | rfl
  · exact ⟨next, rfl⟩
  · exact ⟨v :: next, rfl⟩

theorem Freed.handsBack (h : Freed vmp vmp' pre prev v next post w released) (hL : Layout vmp)
    (hi : Imports vmp l) :
    Released vmp vmp' (vmp.toVmemKstat.freed (vmp.segs v).vsSize) l released := by
  obtain ⟨rest, hmid⟩ := h.survivor_mem
  have hsplit := h.split
  rw [hmid] at hsplit
  have hwm : w ∈ vmp.aList := by simp [hsplit]
  have hwt : (vmp.segs w).Filled := by
    rcases h.survivor with ⟨rfl, -⟩ | rfl
    · exact .inl h.alloc
    · exact .inr (h.prev_free w (by simp))
  have hnd := hL.nodup_aList
  rw [hsplit] at hnd
  cases hr : released with
  | none =>
    obtain ⟨hlist, hk, ⟨stop, hseg⟩, hkstat⟩ := h.kept hr
    have hsame : ∀ y ∈ vmp'.aList, y ≠ w → y ∈ vmp.aList ∧ vmp'.segs y = vmp.segs y := by
      intro y hy hne
      rw [hlist] at hy
      have hy' : y ∈ pre ∨ y ∈ post := by simpa [hne] using hy
      refine ⟨?_, h.others y (.inr hy')⟩
      rw [h.split]
      rcases hy' with hy' | hy' <;> simp [hy']
    have hspans : vmp'.spanSegs = vmp.spanSegs := by
      rw [Arena.spanSegs, hk]
      refine map_congr_left fun y hy => (hsame y ?_ ?_).2
      · exact h.layout.mem_aList (hk ▸ hy)
      · rintro rfl
        rcases hwt with ht | ht <;> simp [(hL.span_bounds hy).1] at ht
    refine .kept hspans (hi.carry hL hspans h.conf fun y hy hm => ?_) hkstat
    by_cases hyw : y = w
    · subst hyw
      rw [hseg] at hm ⊢
      exact ⟨.inr rfl, y, hwm, hm, le_rfl, hL.filled_lo_lt hwm hwt⟩
    · obtain ⟨hold, hys⟩ := hsame y hy hyw
      rw [hys] at hm ⊢
      have hfilled := (hi.marks y hold hm).1
      exact ⟨hfilled, y, hold, hm, le_rfl, hL.filled_lo_lt hold hfilled⟩
  | some b =>
    obtain ⟨front, sp, rfl, hsp, rfl, hlist, hk, hkstat⟩ := h.gone b hr
    have hmark := (h.whole.mp (by simp [hr])).1
    have ha : vmp.aList = front ++ sp :: (w :: rest ++ post) := by simpa using hsplit
    have hspk : sp ∈ vmp.kList := hL.mem_kList (by simp [ha]) (by simp [Arena.isSpan, hsp])
    have hsame : ∀ y ∈ front ++ post, vmp'.segs y = vmp.segs y := fun y hy =>
      h.others y (.inr ((mem_append.mp hy).imp (mem_append_left _) id))
    obtain ⟨himp, hperm⟩ := hi.remove hL h.layout ha hspk hlist hk hsame h.conf
    exact .gone (a := vmp.segs sp) (hi.block_mem hL ha hsp hmark) hperm himp hkstat

end Libumem.Vmem
