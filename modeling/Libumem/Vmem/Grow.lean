import Libumem.Vmem.Advance

/-!
# `vmem_extend_unlocked`

A new range that touches a span is added to it: the marker of the span moves out to the new bound,
or takes over the next marker when the range closes the gap between two spans. The range is held
as an allocated segment at first, which may stand next to free ones, and then joined with them as
`vmem_xfree` would.
-/

namespace Libumem.Vmem
open Function List Option Arith Lib Pow2
namespace Scan
variable {q : Nat} {s t : Scan} {sp sp' psp gap : Seg} {inner inner' rest : List Seg}

theorem runs_restop {l : List Seg} (hl : ∀ vsp ∈ l, vsp.vsType ≠ .span)
    (h : Runs (Step q) s l t) : t.stop = s.stop ∧ ∀ stop, s.stop ≤ stop → stop ≤ 2^64 →
      Runs (Step q) { s with stop := stop } l { t with stop := stop } := by
  induction l generalizing s with
  | nil =>
    cases h
    exact ⟨rfl, fun _ _ _ => rfl⟩
  | cons vsp l ih =>
    obtain ⟨m, hs, hl'⟩ := h
    obtain ⟨hstop, hrun⟩ := ih (fun v hv => hl v (by simp [hv])) hl'
    have hstep : m.stop = s.stop ∧ ∀ stop, s.stop ≤ stop → stop ≤ 2^64 →
        Step q { s with stop := stop } vsp { m with stop := stop } := by
      cases ht : vsp.vsType with
      | unset => simp [Step, ht] at hs
      | span => exact absurd ht (hl vsp (by simp))
      | free =>
        obtain ⟨hold, hlen, hafter, rfl⟩ := (step_free ht).mp hs
        refine ⟨rfl, fun stop h1 h2 => (step_free ht).mpr ⟨⟨hold.start, hold.pos, hold.aligned,
          hold.len_pos, hold.room.trans h1, h2⟩, hlen, hafter, rfl⟩⟩
      | alloc =>
        obtain ⟨hold, rfl⟩ := (step_alloc ht).mp hs
        refine ⟨rfl, fun stop h1 h2 => (step_alloc ht).mpr ⟨⟨hold.start, hold.pos, hold.aligned,
          hold.len_pos, hold.room.trans h1, h2⟩, rfl⟩⟩
      | rotor =>
        obtain rfl := (step_marker (.inl ht)).mp hs
        exact ⟨rfl, fun stop _ _ => (step_marker (.inl ht)).mpr rfl⟩
      | walker =>
        obtain rfl := (step_marker (.inr ht)).mp hs
        exact ⟨rfl, fun stop _ _ => (step_marker (.inr ht)).mpr rfl⟩
    refine ⟨hstop.trans hstep.1, fun stop h1 h2 => ⟨_, hstep.2 stop h1 h2, ?_⟩⟩
    exact hrun stop (hstep.1 ▸ h1) h2

theorem complete_of_tiled (h : Tiled q s rest) (hrest : ∀ vsp ∈ rest.head?, vsp.vsType = .span) :
    s.pos = s.stop := by
  cases rest with
  | nil =>
    obtain ⟨t, rfl, ht⟩ := h
    exact ht
  | cons vsp rest =>
    obtain ⟨t, hs, -⟩ := tiled_cons.mp h
    exact ((step_span (hrest vsp (by simp))).mp hs).1.complete

/-- What a range must be to be held as a segment at the end of a span. -/
structure Gap (q : Nat) (gap : Seg) : Prop where
  type : gap.vsType = .alloc
  pos : 0 < gap.lo
  aligned : q ∣ gap.lo
  len_pos : 0 < gap.len
  len_aligned : q ∣ gap.len
  bound : gap.hi ≤ 2 ^ 64

theorem Gap.solid (h : Gap q gap) : Solid q gap := ⟨.inr h.type, h.len_aligned⟩

theorem tiled_growEnd (hq : 0 < q) (hsp : sp.vsType = .span) (hsp' : sp'.vsType = .span)
    (hinner : ∀ vsp ∈ inner, vsp.vsType ≠ .span)
    (hrest : ∀ vsp ∈ rest.head?, vsp.vsType = .span) (hgap : Gap q gap) (hmeet : sp.hi = gap.lo)
    (hlo : sp'.lo = sp.lo) (hlen : sp'.len = sp.len+gap.len)
    (h : Tiled q s (sp :: (inner ++ rest))) : Tiled q s (sp' :: (inner ++ gap :: rest)) := by
  obtain ⟨t, hs, h⟩ := tiled_cons.mp h
  obtain ⟨hopen, rfl⟩ := (step_span hsp).mp hs
  obtain ⟨m, hm, hrest'⟩ := tiled_append.mp h
  have hcomp := complete_of_tiled hrest' hrest
  obtain ⟨hstop, hrun⟩ := runs_restop hinner hm
  have hhi : sp'.hi = gap.hi := by
    rw [Seg.hi, Seg.hi, hlo, hlen, ← hmeet, Seg.hi]
    omega
  have hle : sp.hi ≤ gap.hi := by
    rw [hmeet, Seg.hi]
    omega
  refine tiled_cons.mpr ⟨_, (step_span hsp').mpr ⟨⟨hopen.complete, hlo ▸ hopen.pos,
    hlo ▸ hopen.aligned, by have := hopen.len_pos; omega,
    hlen ▸ Nat.dvd_add hopen.len_aligned hgap.len_aligned, hhi ▸ hgap.bound⟩, rfl⟩, ?_⟩
  rw [hlo, hhi]
  refine tiled_append.mpr ⟨_, hrun gap.hi hle hgap.bound, tiled_cons.mpr ⟨_,
    hgap.solid.mk_step hq ⟨?_, ?_, ?_, hgap.len_pos, ?_, hgap.bound⟩ (by simp [hgap.type]), ?_⟩⟩
  all_goals simp only [hcomp, hstop, hmeet]
  · exact hgap.pos
  · exact hgap.aligned
  · exact le_refl _
  · exact tiled_of_complete rfl hrest hrest'

theorem tiled_growStart (hq : 0 < q) (hsp : sp.vsType = .span) (hsp' : sp'.vsType = .span)
    (hgap : Gap q gap) (hmeet : gap.hi = sp.lo) (hlo : sp'.lo = gap.lo)
    (hlen : sp'.len = gap.len+sp.len)
    (h : Tiled q s (sp :: rest)) : Tiled q s (sp' :: gap :: rest) := by
  obtain ⟨t, hs, h⟩ := tiled_cons.mp h
  obtain ⟨hopen, rfl⟩ := (step_span hsp).mp hs
  have hhi : sp'.hi = sp.hi := by
    rw [Seg.hi, Seg.hi, hlo, hlen, ← hmeet, Seg.hi]
    omega
  refine tiled_cons.mpr ⟨_, (step_span hsp').mpr ⟨⟨hopen.complete, hlo ▸ hgap.pos,
    hlo ▸ hgap.aligned, by have := hopen.len_pos; omega,
    hlen ▸ Nat.dvd_add hgap.len_aligned hopen.len_aligned, hhi ▸ hopen.bound⟩, rfl⟩, ?_⟩
  rw [hlo, hhi]
  refine tiled_cons.mpr ⟨_, hgap.solid.mk_step hq ⟨rfl, hgap.pos, hgap.aligned, hgap.len_pos, ?_,
    hopen.bound⟩ (by simp [hgap.type]), ?_⟩
  · have : gap.lo+gap.len = sp.lo := hmeet
    have := hopen.len_pos
    simp only [Seg.hi]
    omega
  · refine tiled_congr_afterFree h ?_ rfl (by simp [hgap.type])
    exact hmeet

theorem tiled_growJoin (hq : 0 < q) (hpsp : psp.vsType = .span) (hsp : sp.vsType = .span)
    (hsp' : sp'.vsType = .span) (hinner : ∀ vsp ∈ inner, vsp.vsType ≠ .span) (hgap : Gap q gap)
    (hmeet : psp.hi = gap.lo) (hmeet' : gap.hi = sp.lo) (hlo : sp'.lo = psp.lo)
    (hlen : sp'.len = psp.len+gap.len+sp.len)
    (h : Tiled q s (psp :: (inner ++ sp :: rest))) : Tiled q s (sp' :: (inner ++ gap :: rest)) := by
  obtain ⟨t, hs, h⟩ := tiled_cons.mp h
  obtain ⟨hopen, rfl⟩ := (step_span hpsp).mp hs
  obtain ⟨m, hm, hrest'⟩ := tiled_append.mp h
  have hcomp := complete_of_tiled hrest' (by simp [hsp])
  obtain ⟨t, hs, h⟩ := tiled_cons.mp hrest'
  obtain ⟨hopen', rfl⟩ := (step_span hsp).mp hs
  obtain ⟨hstop, hrun⟩ := runs_restop hinner hm
  have hgaphi : gap.lo+gap.len = sp.lo := hmeet'
  have hhi : sp'.hi = sp.hi := by
    have : psp.lo+psp.len = gap.lo := hmeet
    rw [Seg.hi, Seg.hi, hlo, hlen]
    omega
  have hle : psp.hi ≤ sp.hi := by
    rw [hmeet, Seg.hi]
    omega
  refine tiled_cons.mpr ⟨_, (step_span hsp').mpr ⟨⟨hopen.complete, hlo ▸ hopen.pos,
    hlo ▸ hopen.aligned, by have := hopen.len_pos; omega,
    hlen ▸ Nat.dvd_add (Nat.dvd_add hopen.len_aligned hgap.len_aligned) hopen'.len_aligned,
    hhi ▸ hopen'.bound⟩, rfl⟩, ?_⟩
  rw [hlo, hhi]
  refine tiled_append.mpr ⟨_, hrun sp.hi hle hopen'.bound, tiled_cons.mpr ⟨_,
    hgap.solid.mk_step hq ⟨?_, ?_, ?_, hgap.len_pos, ?_, hopen'.bound⟩ (by simp [hgap.type]), ?_⟩⟩
  all_goals simp only [hcomp, hstop, hmeet]
  · exact hgap.pos
  · exact hgap.aligned
  · simp only [Seg.hi]
    omega
  · refine tiled_congr_afterFree h ?_ rfl (by simp [hgap.type])
    exact hmeet'

theorem afterFree_of_concat {l : List Seg} {last : Seg} (h : Runs (Step q) s (l ++ [last]) t)
    (hlast : last.vsType ≠ .free) : t.afterFree = false := by
  obtain ⟨m, -, h⟩ := Runs.append.mp h
  rw [Runs.singleton] at h
  cases ht : last.vsType with
  | free => exact absurd ht hlast
  | unset => simp [Step, ht] at h
  | span => rw [((step_span ht).mp h).2]
  | alloc => rw [((step_alloc ht).mp h).2]
  | rotor => rw [(step_marker (.inl ht)).mp h]
  | walker => rw [(step_marker (.inr ht)).mp h]

section
variable {o p n c : Seg}

theorem tiled_gap_alone (hq : 0 < q) (hgap : Gap q gap) (hc : c.vsType = .free)
    (hstart : c.vsStart = gap.vsStart) (hend : c.vsEnd = gap.vsEnd) (hprev : s.afterFree = false)
    (hnext : ∀ vsp ∈ rest.head?, vsp.vsType ≠ .free) (h : Tiled q s (gap :: rest)) :
    Tiled q s (c :: rest) :=
  tiled_retype hq hgap.solid (.inl hc) hstart hend (fun _ => .inr hprev) (fun _ => hnext) h

theorem tiled_gap_left (hq : 0 < q) (ho : o.vsType = .free) (hgap : Gap q gap)
    (hc : c.vsType = .free) (hstart : c.vsStart = o.vsStart) (hend : c.vsEnd = gap.vsEnd)
    (hnext : ∀ vsp ∈ rest.head?, vsp.vsType ≠ .free) (h : Tiled q s (o :: gap :: rest)) :
    (c.lo ≤ gap.lo ∧ gap.hi ≤ c.hi) ∧ Tiled q s (c :: rest) := by
  obtain ⟨t, hs, -⟩ := tiled_cons.mp h
  have hsolid : Solid q o := ⟨.inl ho, ((step_free ho).mp hs).2.1⟩
  refine ⟨?_, (tiled_merge hq hsolid hgap.solid (.inl hc) hstart hend (fun _ => .inl ho)
    (fun _ => hnext) h).2⟩
  obtain ⟨hlo, hmeet, hhi⟩ := range_merge hq hsolid hgap.solid hstart hend h
  rw [Seg.hi] at hmeet
  omega

theorem tiled_gap_right (hq : 0 < q) (ho : o.vsType = .free) (hgap : Gap q gap)
    (hc : c.vsType = .free) (hstart : c.vsStart = gap.vsStart) (hend : c.vsEnd = o.vsEnd)
    (hprev : s.afterFree = false) (h : Tiled q s (gap :: o :: rest)) :
    (c.lo ≤ gap.lo ∧ gap.hi ≤ c.hi) ∧ Tiled q s (c :: rest) := by
  obtain ⟨t, hs, h'⟩ := tiled_cons.mp h
  obtain ⟨m, hm, h''⟩ := tiled_cons.mp h'
  obtain ⟨-, hlen, -, rfl⟩ := (step_free ho).mp hm
  have hsolid : Solid q o := ⟨.inl ho, hlen⟩
  refine ⟨?_, (tiled_merge hq hgap.solid hsolid (.inl hc) hstart hend
    (fun _ => .inr hprev) (fun _ => head_not_free h'' rfl) h).2⟩
  obtain ⟨hlo, hmeet, hhi⟩ := range_merge hq hgap.solid hsolid hstart hend h
  have hle : o.lo ≤ o.hi := Nat.le_add_right _ _
  omega

theorem tiled_gap_both (hq : 0 < q) (hp : p.vsType = .free) (hn : n.vsType = .free)
    (hgap : Gap q gap) (hc : c.vsType = .free) (hstart : c.vsStart = p.vsStart)
    (hend : c.vsEnd = n.vsEnd) (h : Tiled q s (p :: gap :: n :: rest)) :
    (c.lo ≤ gap.lo ∧ gap.hi ≤ c.hi) ∧ Tiled q s (c :: rest) := by
  obtain ⟨t, hs, h'⟩ := tiled_cons.mp h
  obtain ⟨-, hlen, hafter, -⟩ := (step_free hp).mp hs
  have hsolidp : Solid q p := ⟨.inl hp, hlen⟩
  -- the first two together, held as allocated as long as the third is still there
  obtain ⟨hsolid, hmerged⟩ := tiled_merge (c := ⟨p.vsStart, gap.vsEnd, .alloc, false⟩) hq
    hsolidp hgap.solid (.inr rfl) rfl rfl (by simp) (by simp) h
  obtain ⟨-, hmeet, hhi⟩ := range_merge (c := ⟨p.vsStart, gap.vsEnd, .alloc, false⟩) hq hsolidp
    hgap.solid rfl rfl h
  obtain ⟨m, hm, h''⟩ := tiled_cons.mp hmerged
  obtain ⟨t, ht, h''⟩ := tiled_cons.mp h''
  obtain ⟨-, hlenn, -, rfl⟩ := (step_free hn).mp ht
  have hsolidn : Solid q n := ⟨.inl hn, hlenn⟩
  refine ⟨?_, (tiled_merge hq hsolid hsolidn (.inl hc) hstart hend
    (fun _ => .inr hafter) (fun _ => head_not_free h'' rfl) hmerged).2⟩
  obtain ⟨hlo, hmeet', hhi'⟩ := range_merge hq hsolid hsolidn hstart hend hmerged
  have hlop : c.lo = p.lo := hlo
  have hle : p.lo ≤ p.hi := Nat.le_add_right _ _
  have hle' : n.lo ≤ n.hi := Nat.le_add_right _ _
  omega

/-- The list `l` in which the gap between `front` and `back` is joined with its free neighbours
into one free segment `c`. -/
inductive Settled (gap c : Seg) : List Seg → List Seg → List Seg → Prop
  | alone {front back : List Seg} (hprev : ∃ l last, front = l ++ [last] ∧ last.vsType ≠ .free)
      (hnext : ∀ vsp ∈ back.head?, vsp.vsType ≠ .free)
      (hstart : c.vsStart = gap.vsStart) (hend : c.vsEnd = gap.vsEnd) :
      Settled gap c front back (front ++ c :: back)
  | left {front back : List Seg} {p : Seg} (hp : p.vsType = .free)
      (hnext : ∀ vsp ∈ back.head?, vsp.vsType ≠ .free)
      (hstart : c.vsStart = p.vsStart) (hend : c.vsEnd = gap.vsEnd) :
      Settled gap c (front ++ [p]) back (front ++ c :: back)
  | right {front back : List Seg} {n : Seg} (hn : n.vsType = .free)
      (hprev : ∃ l last, front = l ++ [last] ∧ last.vsType ≠ .free)
      (hstart : c.vsStart = gap.vsStart) (hend : c.vsEnd = n.vsEnd) :
      Settled gap c front (n :: back) (front ++ c :: back)
  | both {front back : List Seg} {p n : Seg} (hp : p.vsType = .free) (hn : n.vsType = .free)
      (hstart : c.vsStart = p.vsStart) (hend : c.vsEnd = n.vsEnd) :
      Settled gap c (front ++ [p]) (n :: back) (front ++ c :: back)

theorem Settled.tiled {front back l : List Seg} (hl : Settled gap c front back l) (hq : 0 < q)
    (hgap : Gap q gap) (hc : c.vsType = .free) (h : Tiled q s (front ++ gap :: back)) :
    (c.lo ≤ gap.lo ∧ gap.hi ≤ c.hi) ∧ Tiled q s l := by
  cases hl with
  | alone hprev hnext hstart hend =>
    obtain ⟨m, hm, h'⟩ := tiled_append.mp h
    obtain ⟨l, last, rfl, hlast⟩ := hprev
    have hlo : c.lo = gap.lo := by rw [Seg.lo, hstart, Seg.lo]
    have hlen : c.len = gap.len := by rw [Seg.len, Seg.vsSize, hstart, hend, Seg.len, Seg.vsSize]
    exact ⟨⟨hlo.le, by rw [Seg.hi, Seg.hi, hlo, hlen]⟩, tiled_append.mpr ⟨m, hm,
      tiled_gap_alone hq hgap hc hstart hend (afterFree_of_concat hm hlast) hnext h'⟩⟩
  | left hp hnext hstart hend =>
    rw [append_assoc, singleton_append] at h
    obtain ⟨m, hm, h⟩ := tiled_append.mp h
    obtain ⟨hle, h⟩ := tiled_gap_left hq hp hgap hc hstart hend hnext h
    exact ⟨hle, tiled_append.mpr ⟨m, hm, h⟩⟩
  | right hn hprev hstart hend =>
    obtain ⟨m, hm, h'⟩ := tiled_append.mp h
    obtain ⟨l, last, rfl, hlast⟩ := hprev
    obtain ⟨hle, h'⟩ := tiled_gap_right hq hn hgap hc hstart hend (afterFree_of_concat hm hlast) h'
    exact ⟨hle, tiled_append.mpr ⟨m, hm, h'⟩⟩
  | both hp hn hstart hend =>
    rw [append_assoc, singleton_append] at h
    obtain ⟨m, hm, h⟩ := tiled_append.mp h
    obtain ⟨hle, h⟩ := tiled_gap_both hq hp hn hgap hc hstart hend h
    exact ⟨hle, tiled_append.mpr ⟨m, hm, h⟩⟩

end
end Scan

section
variable {a b c x : Seg} {l l' : List Seg}

theorem Seg.Disjoint.union (ha : x.Disjoint a) (hb : x.Disjoint b) (hx : 0 < x.len)
    (hmeet : a.hi = b.lo) (hlo : c.lo = a.lo) (hhi : c.hi = b.hi) : x.Disjoint c := by
  simp only [Seg.Disjoint, Seg.hi] at *
  omega

theorem pairwise_widen (h : (l ++ a :: l').Pairwise Seg.Disjoint)
    (hw : ∀ x ∈ l ++ l', x.Disjoint c) : (l ++ c :: l').Pairwise Seg.Disjoint := by
  rw [pairwise_append, pairwise_cons] at h ⊢
  obtain ⟨hl, ⟨-, hl'⟩, hcross⟩ := h
  refine ⟨hl, ⟨fun y hy => ?_, hl'⟩, fun x hx y hy => ?_⟩
  · exact (hw y (by simp [hy])).symm
  · rcases mem_cons.mp hy with rfl | hy
    · exact hw x (by simp [hx])
    · exact hcross x hx y (by simp [hy])

end

section
variable {vmp vmp' : Arena} {sp : SegId} {pre old new post : List SegId}

theorem span_split (hL : Layout vmp) (hsp : sp ∈ vmp.kList) :
    ∃ pre inner post, vmp.aList = pre ++ sp :: (inner ++ post) ∧ vmp.isSpan sp = true ∧
      (∀ y ∈ inner, vmp.isSpan y = false) ∧ (∀ y ∈ post.head?, vmp.isSpan y = true) ∧
      vmp.kNext sp = post.headD seg0 := by
  have hnd := hL.nodup_aList
  have hspan : vmp.isSpan sp = true := by
    rw [hL.spans] at hsp
    exact (mem_filter.mp hsp).2
  obtain ⟨kpre, kpost, hk⟩ := append_of_mem hsp
  have hkn : vmp.kNext sp = kpost.headD seg0 := by
    have hndk := hL.nodup_anchor_kList
    rw [hk] at hndk
    rw [Arena.kNext, hk, Ring.next_split hndk]
  rw [hL.spans, filter_eq_append_iff] at hk
  obtain ⟨pre, rest, ha, -, hrest⟩ := hk
  obtain ⟨m, rest, rfl, -, -, hpost⟩ := filter_eq_cons_iff.mp hrest
  cases kpost with
  | nil =>
    refine ⟨pre ++ m, rest, [], by simp [ha], hspan, fun y hy => ?_, by simp, hkn⟩
    simpa using filter_eq_nil_iff.mp hpost y hy
  | cons k kpost =>
    obtain ⟨inner, post, rfl, hinner, hkspan, -⟩ := filter_eq_cons_iff.mp hpost
    refine ⟨pre ++ m, inner, k :: post, by simp [ha], hspan, fun y hy => ?_, by simpa using hkspan,
      hkn⟩
    simpa using hinner y hy

theorem Indexed.insertLaid {w : SegId} (hI : Indexed vmp [w]) (hw : w ∈ vmp.aList)
    (hL : Layout (vmemFreelistInsert vmp w)) : Indexed (vmemFreelistInsert vmp w) [] := by
  obtain ⟨hstart, hsize⟩ := hL.free_ne (x := w) (by simpa using hw) (by simp)
  refine hI.freelistInsert hw (by simp) ?_ ?_
  · simpa using hstart
  · simpa [Seg.vsSize] using hsize

end

/-- What the caller of `_vmem_extend_alloc` promises of the range it adds. -/
structure NewRange (vmp : Arena) (addr size : Word) : Prop extends NewSpan vmp addr size where
  below : addr.toNat + size.toNat < 2 ^ 64
  addr_aligned : vmp.vmQuantum.toNat ∣ addr.toNat
  size_aligned : vmp.vmQuantum.toNat ∣ size.toNat

/-- The new range, held as an allocated segment. -/
def gapSeg (addr size : Word) : Seg := ⟨addr, addr + size, .alloc, false⟩

theorem gapSeg_len (addr size : Word) : (gapSeg addr size).len = size.toNat := by
  rw [Seg.len, Seg.vsSize, gapSeg]
  congr 1
  bv_omega

namespace NewRange
variable {vmp : Arena} {addr size : Word}
section
variable (h : NewRange vmp addr size)
include h

theorem gap : Scan.Gap vmp.vmQuantum.toNat (gapSeg addr size) := by
  have hlen := gapSeg_len addr size
  have hpos : 0 < addr.toNat := by
    have := h.vaddr_ne
    bv_omega
  have hsize : 0 < size.toNat := by
    have := h.size_ne
    bv_omega
  refine ⟨rfl, hpos, h.addr_aligned, hlen ▸ hsize, hlen ▸ h.size_aligned, ?_⟩
  rw [Seg.hi, hlen]
  exact h.bound

theorem hi_eq : (gapSeg addr size).hi = (addr+size).toNat := by
  have := h.below
  rw [Seg.hi, gapSeg_len, Seg.lo, gapSeg]
  bv_omega

theorem disjoint_gap {sp : SegId} (hsp : sp ∈ vmp.kList) :
    (vmp.segs sp).Disjoint (gapSeg addr size) := by
  rw [Seg.Disjoint, Seg.hi, Seg.hi, gapSeg_len]
  exact h.disjoint sp hsp

section

variable {sp : SegId} (hL : Layout vmp) (hsp : sp ∈ vmp.kList) (hend : (vmp.segs sp).vsEnd = addr)

include hL hsp hend

theorem meet_end : (vmp.segs sp).hi = (gapSeg addr size).lo := by
  obtain ⟨-, hlo, hlen, hhi, -⟩ := hL.span_bounds hsp
  have hne := h.vaddr_ne
  simp only [Seg.hi, Seg.lo, Seg.len, Seg.vsSize, gapSeg] at *
  rw [hend] at hlen hhi ⊢
  bv_omega

theorem wide_end {c : Seg} (hstart : c.vsStart = (vmp.segs sp).vsStart)
    (hstop : c.vsEnd = addr+size) :
    c.lo = (vmp.segs sp).lo ∧ c.len = (vmp.segs sp).len+(gapSeg addr size).len ∧
      ∀ x ∈ vmp.kList, x ≠ sp → (vmp.segs x).Disjoint c := by
  have hmeet := h.meet_end hL hsp hend
  have hlo : c.lo = (vmp.segs sp).lo := by rw [Seg.lo, hstart, Seg.lo]
  have hlen : c.len = (vmp.segs sp).len+(gapSeg addr size).len := by
    have hbelow := h.below
    rw [gapSeg_len]
    simp only [Seg.hi, Seg.lo, Seg.len, Seg.vsSize, gapSeg] at *
    rw [hstart, hstop]
    rw [hend] at hmeet ⊢
    bv_omega
  refine ⟨hlo, hlen, fun x hx hne => ?_⟩
  refine (hL.spans_disjoint hx hsp hne).union (h.disjoint_gap hx) (hL.span_bounds hx).2.2.1 hmeet hlo ?_
  rw [Seg.hi, Seg.hi, hlo, hlen, ← hmeet, Seg.hi, Nat.add_assoc]

end

theorem meet_start {sp : SegId} (hstart : (vmp.segs sp).vsStart = addr+size) :
    (gapSeg addr size).hi = (vmp.segs sp).lo := by
  rw [h.hi_eq, Seg.lo, hstart]

theorem wide_start (hL : Layout vmp) {sp : SegId} (hsp : sp ∈ vmp.kList)
    (hstart : (vmp.segs sp).vsStart = addr+size) {c : Seg} (hlo : c.vsStart = addr)
    (hstop : c.vsEnd = (vmp.segs sp).vsEnd) :
    c.lo = (gapSeg addr size).lo ∧ c.len = (gapSeg addr size).len+(vmp.segs sp).len ∧
      ∀ x ∈ vmp.kList, x ≠ sp → (vmp.segs x).Disjoint c := by
  have hmeet := h.meet_start hstart
  have hlo' : c.lo = (gapSeg addr size).lo := by rw [Seg.lo, hlo, Seg.lo, gapSeg]
  have hlen : c.len = (gapSeg addr size).len+(vmp.segs sp).len := by
    obtain ⟨-, -, -, hhi, -⟩ := hL.span_bounds hsp
    have hbelow := h.below
    have hne := h.vaddr_ne
    rw [gapSeg_len]
    simp only [Seg.hi, Seg.lo, Seg.len, Seg.vsSize] at *
    rw [hlo, hstop]
    rw [hstart] at hhi ⊢
    bv_omega
  refine ⟨hlo', hlen, fun x hx hne => ?_⟩
  refine (h.disjoint_gap hx).union (hL.spans_disjoint hx hsp hne) (hL.span_bounds hx).2.2.1 hmeet
    hlo' ?_
  rw [Seg.hi, Seg.hi, hlo', hlen, ← hmeet, Seg.hi, Nat.add_assoc]

end
end NewRange

/-- Where a span of its own goes: behind the last one that is not imported and ends in front of
it. -/
structure SpanPlace (addr : Word) (l l' : List Seg) : Prop where
  before : ∀ a ∈ l.getLast?, a.vsImport = false ∧ a.vsEnd - 1 < addr
  behind : ∀ a ∈ l', ¬ (a.vsImport = false ∧ a.vsEnd - 1 < addr)

theorem SpanAdded.spanPlace {vmp vmp' : Arena} {addr size : Word} {pre post : List SegId}
    {sp x : SegId} (hL : Layout vmp) (hs : vmp.vmSource = none) (ha : vmp.aList = pre ++ post)
    (h : SpanAdded vmp vmp' pre sp x post addr size false) :
    SpanPlace addr ((pre.filter vmp.isSpan).map vmp.segs)
      ((post.filter vmp.isSpan).map vmp.segs) := by
  have hk : vmp.kList = pre.filter vmp.isSpan ++ post.filter vmp.isSpan := by
    rw [hL.spans, ha, filter_append]
  have hnd := hL.nodup_anchor_kList
  have hplace := h.place
  generalize pre.filter vmp.isSpan = kpre at *
  generalize post.filter vmp.isSpan = kpost at *
  rw [spanKnext, if_pos (by simp [hs])] at hplace
  dsimp only at hplace
  generalize hp : (fun kprev => !(vmp.segs kprev).vsImport &&
    decide ((vmp.segs kprev).vsEnd-1 < addr)) = p at hplace
  have hpiff : ∀ y, p y = true ↔ (vmp.segs y).vsImport = false ∧ (vmp.segs y).vsEnd-1 < addr := by
    simp [← hp]
  cases hfind : vmp.kList.reverse.find? p with
  | none =>
    rw [hfind, getD_none, Arena.kPrev, Arena.kNext, Ring.prev_next hnd (by simp)] at hplace
    have hnil : kpre = [] := by
      rcases eq_nil_or_concat kpre with rfl | ⟨front, k, rfl⟩
      · rfl
      · rw [concat_eq_append, getLastD_concat] at hplace
        exact absurd (hk ▸ by simp [hplace]) (nodup_cons.mp hnd).1
    subst hnil
    refine ⟨by simp, fun a ha => ?_⟩
    obtain ⟨y, hy, rfl⟩ := mem_map.mp ha
    rw [← hpiff]
    exact find?_eq_none.mp hfind y (by simp [hk, hy])
  | some k =>
    have hmem : k ∈ vmp.kList := mem_reverse.mp (mem_of_find?_eq_some hfind)
    rw [hfind, getD_some, Arena.kPrev, Arena.kNext,
      Ring.prev_next hnd (mem_cons_of_mem _ hmem)] at hplace
    rcases eq_nil_or_concat kpre with rfl | ⟨front, k', rfl⟩
    · rw [getLastD_nil] at hplace
      exact absurd (hplace ▸ hmem) (nodup_cons.mp hnd).1
    rw [concat_eq_append, getLastD_concat] at hplace
    subst hplace
    rw [concat_eq_append] at *
    constructor
    · simpa using (hpiff k').mp (find?_some hfind)
    · -- a later span that qualifies would have been found first
      have hnone : kpost.reverse.find? p = none := by
        rw [hk, reverse_append, find?_append] at hfind
        cases hrest : kpost.reverse.find? p with
        | none => rfl
        | some b =>
          have hb : b ∈ kpost := mem_reverse.mp (mem_of_find?_eq_some hrest)
          rw [hrest, some_or, some.injEq] at hfind
          subst hfind
          rw [hk] at hnd
          simp only [nodup_cons, nodup_append, mem_append, mem_cons] at hnd
          exact absurd rfl (hnd.2.2.2 b (by simp) b hb)
      intro a ha
      obtain ⟨y, hy, rfl⟩ := mem_map.mp ha
      rw [← hpiff]
      exact find?_eq_none.mp hnone y (by simp [hy])

/-- The span markers, in list order, once `[addr, addr + size)` has been added. The search is for
the last span that touches the range, but an arena with a source is not searched. -/
inductive SpansGrow (searched : Prop) (addr size : Word) : List Seg → List Seg → Prop
  | join {l l' : List Seg} {a b : Seg} (hend : a.vsEnd = addr) (hstart : b.vsStart = addr + size) :
      SpansGrow searched addr size (l ++ a :: b :: l') (l ++ { a with vsEnd := b.vsEnd } :: l')
  | moveEnd {l l' : List Seg} {a : Seg} (hend : a.vsEnd = addr)
      (hrest : ∀ b ∈ l', b.vsStart ≠ addr + size) :
      SpansGrow searched addr size (l ++ a :: l') (l ++ { a with vsEnd := addr + size } :: l')
  | moveStart {l l' : List Seg} {a : Seg} (hstart : a.vsStart = addr + size)
      (hprev : ∀ b ∈ l.getLast?, b.vsEnd ≠ addr) :
      SpansGrow searched addr size (l ++ a :: l') (l ++ { a with vsStart := addr } :: l')
  | new {l l' : List Seg}
      (hnone : searched → ∀ b ∈ l ++ l', b.vsEnd ≠ addr ∧ b.vsStart ≠ addr + size)
      (hplace : searched → SpanPlace addr l l') :
      SpansGrow searched addr size (l ++ l') (l ++ ⟨addr, addr + size, .span, false⟩ :: l')

/-- The effect of adding a range next to a span: it is now part of the free segment `w`. -/
structure Grown (vmp vmp' : Arena) (w : SegId) (addr size : Word) : Prop where
  layout : Layout vmp'
  indexed : Indexed vmp' []
  mem : w ∈ vmp'.aList
  free : (vmp'.segs w).vsType = .free
  range : (vmp'.segs w).lo ≤ addr.toNat ∧ addr.toNat + size.toNat ≤ (vmp'.segs w).hi
  keeps : Keeps vmp vmp'
  spans : SpansGrow (vmp.vmSource = none) addr size (vmp.kList.map vmp.segs)
    (vmp'.kList.map vmp'.segs)
  marks : ∀ y ∈ vmp'.aList, (vmp'.segs y).vsImport = true →
    y ∈ vmp.aList ∧ (vmp.segs y).vsImport = true
  conf : vmp'.toArenaConf = vmp.toArenaConf
  shape : vmp'.toHashShape = vmp.toHashShape
  kstat : vmp'.toVmemKstat = vmp.toVmemKstat
  perm : (vmp'.aList ++ vmp'.vmSegfree).Perm (vmp.aList ++ vmp.vmSegfree)
  count : vmp'.vmNsegfree - vmp'.vmSegfree.length = vmp.vmNsegfree - vmp.vmSegfree.length
  used : vmp.vmNsegfree - 2 ≤ vmp'.vmNsegfree

variable {vmp vmp₁ vmp' : Arena} {sp w o psp : SegId} {addr size : Word}
  {pre front inner post : List SegId}

theorem aPrev_headD (hL : Layout vmp) (pre post : List SegId) (ha : vmp.aList = pre ++ post) :
    vmp.aPrev (post.headD seg0) = pre.getLastD seg0 := by
  have hnd := hL.nodup_aList
  rw [ha] at hnd
  cases post with
  | nil =>
    rw [append_nil] at ha hnd
    rw [Arena.aPrev, ha]
    exact Ring.prev_anchor (nodup_cons.mp hnd).1
  | cons k post => rw [Arena.aPrev, ha, headD_cons, Ring.prev_split hnd]

theorem Indexed.setSpan (hI : Indexed vmp []) (ht : (vmp.segs sp).vsType = .span) {seg : Seg}
    (hseg : seg.vsType = .span) : Indexed (vmp.setSeg sp seg) [] :=
  ((hI.addPending (x := sp) fun _ => by simp [ht]).setPending (x := sp) (by simp)
    seg).dropPending fun _ => by simp [hseg]

/-- The segments in front of a marker stay, and those behind it with the marker are scanned anew. -/
theorem tiled_moved (hL : Layout vmp) {rest new : List SegId} (ha : vmp.aList = pre ++ sp :: rest)
    (hnew : new ⊆ rest) (hpost : post ⊆ rest) {c gap : Seg}
    (hlocal : ∀ s, Scan.Tiled vmp.vmQuantum.toNat s (vmp.segs sp :: rest.map vmp.segs) →
      Scan.Tiled vmp.vmQuantum.toNat s (c :: (new.map vmp.segs ++ gap :: post.map vmp.segs))) :
    Scan.Tiled vmp.vmQuantum.toNat Scan.init
      ((pre ++ sp :: new).map (update vmp.segs sp c) ++
        gap :: post.map (update vmp.segs sp c)) := by
  have hnd := hL.nodup_aList
  rw [ha] at hnd
  obtain ⟨hpre, hrest, -⟩ := Ring.nodup_split hnd
  have ht := hL.tiled
  rw [ha, map_append, map_cons] at ht
  obtain ⟨s, hs, ht⟩ := Scan.tiled_append.mp ht
  rw [map_append, map_cons, append_assoc, cons_append, update_self,
    Ring.map_update_of_not_mem hpre, Ring.map_update_of_not_mem fun hm => hrest (hnew hm),
    Ring.map_update_of_not_mem fun hm => hrest (hpost hm)]
  exact Scan.tiled_append.mpr ⟨s, hs, hlocal s ht⟩

/-- The range lies between the segments `before` and those in `after`. In `vmq` the marker `sp` has
been moved and has taken over those in `gone`, and nothing holds the range yet. -/
structure Opened (vmp vmq : Arena) (sp : SegId) (c : Seg) (addr size : Word)
    (before gone after : List SegId) : Prop where
  layout : Layout vmp
  indexed : Indexed vmq []
  new : NewRange vmp addr size
  type : c.vsType = .span
  mark : c.vsImport = (vmp.segs sp).vsImport
  kList : ∃ kpre kpost, vmp.kList = kpre ++ sp :: (gone ++ kpost) ∧ vmq.kList = kpre ++ sp :: kpost ∧
    SpansGrow (vmp.vmSource = none) addr size (vmp.kList.map vmp.segs)
      (kpre.map vmp.segs ++ c :: kpost.map vmp.segs)
  wide : ∀ x ∈ vmp.kList, x ≠ sp → x ∉ gone → (vmp.segs x).Disjoint c
  before_ne : before ≠ []
  aList : vmp.aList = before ++ (gone ++ after) ∧ vmq.aList = before ++ after
  tiled : Scan.Tiled vmp.vmQuantum.toNat Scan.init
    (before.map (update vmp.segs sp c) ++ gapSeg addr size ::
      after.map (update vmp.segs sp c))
  segs : vmq.segs = update vmp.segs sp c
  conf : vmq.toArenaConf = vmp.toArenaConf
  shape : vmq.toHashShape = vmp.toHashShape
  kstat : vmq.toVmemKstat = vmp.toVmemKstat
  perm : (vmq.aList ++ vmq.vmSegfree).Perm (vmp.aList ++ vmp.vmSegfree)
  count : vmq.vmNsegfree - vmq.vmSegfree.length = vmp.vmNsegfree - vmp.vmSegfree.length
  used : vmp.vmNsegfree ≤ vmq.vmNsegfree

namespace Opened
variable {vmq : Arena} {c seg : Seg} {before gone after : List SegId}
section
variable (h : Opened vmp vmq sp c addr size before gone after)
include h

theorem mem : sp ∈ vmp.kList ∧ gone ⊆ vmp.kList := by
  obtain ⟨kpre, kpost, hks, -⟩ := h.kList
  rw [hks]
  exact ⟨by simp, fun y hy => by simp [hy]⟩

theorem types (y : SegId) : (update vmp.segs sp c y).vsType = (vmp.segs y).vsType := by
  by_cases hy : y = sp
  · rw [hy, update_self, h.type, (h.layout.span_bounds h.mem.1).1]
  · rw [update_of_ne hy]

theorem seg_type (y : SegId) : (vmq.segs y).vsType = (vmp.segs y).vsType := by
  rw [h.segs, h.types]

theorem last_not_free (hprev : (vmp.segs (before.getLastD seg0)).vsType ≠ .free) :
    ∃ l last, before.map (update vmp.segs sp c) = l ++ [last] ∧ last.vsType ≠ .free := by
  rcases eq_nil_or_concat before with rfl | ⟨front, p, rfl⟩
  · exact absurd rfl h.before_ne
  · rw [concat_eq_append, getLastD_concat] at hprev
    exact ⟨_, _, by rw [concat_eq_append, map_append, map_singleton], by rwa [h.types]⟩

theorem head_not_free (hnext : (vmp.segs (after.headD seg0)).vsType ≠ .free) :
    ∀ vsp ∈ (after.map (update vmp.segs sp c)).head?, vsp.vsType ≠ .free := by
  cases after with
  | nil => simp
  | cons n back => simpa [h.types] using hnext

theorem filter_gone : gone.filter vmp.isSpan = gone := by
  refine filter_eq_self.mpr fun y hy => ?_
  simp [Arena.isSpan, (h.layout.span_bounds (h.mem.2 hy)).1]

end

end Opened

/-- The range has been opened, and in `vmp₁` the segment `w` has taken it up with the segments in
`mid`, which are free or markers that `sp` takes over. The others are in `front` and `back`. -/
structure Taken (vmp vmq vmp₁ : Arena) (sp w : SegId) (c : Seg) (addr size : Word)
    (before gone after front mid back : List SegId) : Prop
    extends Opened vmp vmq sp c addr size before gone after where
  pending : Indexed vmp₁ [w]
  conf₁ : vmp₁.toArenaConf = vmp.toArenaConf
  shape₁ : vmp₁.toHashShape = vmp.toHashShape
  kstat₁ : vmp₁.toVmemKstat = vmp.toVmemKstat
  kList₁ : vmp₁.kList = vmq.kList
  split : vmp.aList = front ++ (mid ++ back)
  taken : ∀ y ∈ mid, (vmp.segs y).vsType = .free ∨ (vmp.segs y).vsType = .span
  markers : mid.filter vmp.isSpan = gone
  aList₁ : vmp₁.aList = front ++ w :: back
  imports : w ∈ mid ∧ (vmp₁.segs w).vsImport = (vmp.segs w).vsImport ∨
    w ∉ vmp.aList ∧ (vmp₁.segs w).vsImport = false
  settled : Scan.Settled (gapSeg addr size) ((vmemFreelistInsert vmp₁ w).segs w)
    (before.map (update vmp.segs sp c)) (after.map (update vmp.segs sp c))
    (front.map (update vmp.segs sp c) ++ (vmemFreelistInsert vmp₁ w).segs w ::
      back.map (update vmp.segs sp c))
  segs₁ : ∀ y ≠ w, vmp₁.segs y = update vmp.segs sp c y
  perm₁ : (vmp₁.aList ++ vmp₁.vmSegfree).Perm (vmp.aList ++ vmp.vmSegfree)
  count₁ : vmp₁.vmNsegfree - vmp₁.vmSegfree.length = vmp.vmNsegfree - vmp.vmSegfree.length
  used₁ : vmp.vmNsegfree - 2 ≤ vmp₁.vmNsegfree

namespace Taken
variable {vmq : Arena} {c : Seg} {y : SegId} {before gone after mid back : List SegId}
section
variable (h : Taken vmp vmq vmp₁ sp w c addr size before gone after front mid back)
include h

theorem apart (hy : y ∈ front ++ back) : y ≠ w ∧ y ∉ mid := by
  have hnd := h.layout.nodup_aList
  have hnd₁ := h.layout.nodup_of_perm h.perm₁
  rw [h.split] at hnd
  rw [h.aList₁, append_assoc, cons_append] at hnd₁
  obtain ⟨hwfront, hwback, -⟩ := Ring.nodup_split hnd₁
  simp only [nodup_cons, nodup_append, mem_append] at hnd hwback hy ⊢
  grind

/-- The markers that are left, in the list of the spans and in that of all segments. -/
theorem kList_eq : vmq.kList = front.filter vmp.isSpan ++ back.filter vmp.isSpan := by
  obtain ⟨kpre, kpost, hks, hk, -⟩ := h.kList
  have hndk := h.layout.nodup_kList
  rw [hks] at hndk
  have hself : ∀ l : List SegId, (∀ y ∈ l, y ∉ gone) → l.filter (· ∉ gone) = l := fun l hl =>
    filter_eq_self.mpr (by simpa using hl)
  have hnone : gone.filter (· ∉ gone) = [] := by simp
  have hleft : vmp.kList.filter (· ∉ gone) = kpre ++ sp :: kpost := by
    simp only [nodup_append, nodup_cons, mem_append, mem_cons] at hndk
    rw [hks, filter_append, hself kpre (by grind), ← singleton_append, filter_append, filter_append,
      hnone, hself [sp] (by grind), hself kpost (by grind), nil_append, singleton_append]
  have hkept : ∀ l, l ⊆ front ++ back → ∀ y ∈ l.filter vmp.isSpan, y ∉ gone := by
    intro l hl y hy hyg
    rw [← h.markers] at hyg
    exact (h.apart (hl (mem_of_mem_filter hy))).2 (mem_of_mem_filter hyg)
  rw [hk, ← hleft, h.layout.spans, h.split]
  simp only [filter_append, h.markers, hnone, nil_append]
  rw [hself _ (hkept front (subset_append_left _ _)),
    hself _ (hkept back (subset_append_right _ _))]

theorem mem_kept (hy : y ∈ vmq.kList) : y ∈ front ++ back := by
  rw [h.kList_eq, mem_append] at hy
  exact mem_append.mpr (hy.imp mem_of_mem_filter mem_of_mem_filter)

theorem marker_kept : sp ∈ front ++ back := by
  obtain ⟨kpre, kpost, -, hk, -⟩ := h.kList
  exact h.mem_kept (by simp [hk])

theorem seg_eq (hy : y ≠ w) : (vmemFreelistInsert vmp₁ w).segs y = update vmp.segs sp c y := by
  rw [← h.segs₁ y hy]
  simp [hy]

theorem seg_other (hsp : y ≠ sp) (hw : y ≠ w) :
    (vmemFreelistInsert vmp₁ w).segs y = vmp.segs y := by
  rw [h.seg_eq hw, update_of_ne hsp]

theorem seg_marker : (vmemFreelistInsert vmp₁ w).segs sp = c := by
  rw [h.seg_eq (h.apart h.marker_kept).1, update_self]

theorem map_kept {l : List SegId} (hl : ∀ y ∈ l, y ∈ front ++ back) :
    l.map (vmemFreelistInsert vmp₁ w).segs = l.map (update vmp.segs sp c) :=
  map_congr_left fun y hy => h.seg_eq (h.apart (hl y hy)).1

theorem map_kList {kpre kpost : List SegId} (hk : vmq.kList = kpre ++ sp :: kpost) :
    vmq.kList.map (vmemFreelistInsert vmp₁ w).segs =
      kpre.map vmp.segs ++ c :: kpost.map vmp.segs := by
  have hnd : vmq.kList.Nodup := by
    rw [h.kList_eq, ← filter_append]
    refine Nodup.filter _ ((nodup_cons.mp h.layout.nodup_aList).2.sublist ?_)
    rw [h.split]
    exact (Sublist.refl _).append (sublist_append_right _ _)
  rw [h.map_kept fun y => h.mem_kept, hk, Ring.map_update_split (hk ▸ hnd)]

theorem isSpan_kept (hy : y ∈ front ++ back) :
    (vmemFreelistInsert vmp₁ w).isSpan y = vmp.isSpan y := by
  by_cases hys : y = sp
  · rw [hys, Arena.isSpan, h.seg_marker, h.type, Arena.isSpan, (h.layout.span_bounds h.mem.1).1]
  · rw [Arena.isSpan, h.seg_other hys (h.apart hy).1, Arena.isSpan]

theorem seg0_ne : seg0 ≠ sp ∧ seg0 ≠ w := by
  have hnd := h.layout.nodup_aList
  have hnd₁ := h.layout.nodup_of_perm h.perm₁
  have hsp := h.marker_kept
  rw [h.split] at hnd
  rw [h.aList₁, append_assoc, cons_append] at hnd₁
  obtain ⟨-, -, hw0, -⟩ := Ring.nodup_split hnd₁
  refine ⟨?_, hw0.symm⟩
  rintro rfl
  simp only [nodup_cons, mem_append] at hnd hsp
  tauto

theorem layout₁ : Layout (vmemFreelistInsert vmp₁ w) := by
  obtain ⟨kpre, kpost, hks, hk, -⟩ := h.kList
  have hk' : (vmemFreelistInsert vmp₁ w).kList = vmq.kList := by simpa using h.kList₁
  have ha' : (vmemFreelistInsert vmp₁ w).aList = front ++ w :: back := by simpa using h.aList₁
  refine ⟨by simpa [h.conf₁] using h.layout.quantum, ?_, ?_, ?_, ?_, ?_⟩
  · exact h.layout.nodup_of_perm (by simpa using h.perm₁)
  · rw [h.seg_other h.seg0_ne.1 h.seg0_ne.2, h.layout.anchor]
  · obtain ⟨-, ht⟩ := h.settled.tiled h.layout.quantum.pos h.new.gap (by simp) h.tiled
    rw [← h.map_kept (l := front) (by simp +contextual),
      ← h.map_kept (l := back) (by simp +contextual)] at ht
    rw [ha', map_append, map_cons]
    simpa [h.conf₁] using ht
  · rw [hk', ha', h.kList_eq, filter_append, filter_cons_of_neg (by simp [Arena.isSpan])]
    congr 1 <;> exact filter_congr fun y hy => (h.isSpan_kept (by simp [hy])).symm
  · have hd := h.layout.disjoint
    have hndk := h.layout.nodup_kList
    rw [hks] at hndk
    rw [hks, map_append, map_cons, map_append] at hd
    rw [hk', h.map_kList hk]
    refine pairwise_widen (a := vmp.segs sp) (hd.sublist (by simp)) fun x hx => ?_
    rw [← List.map_append, List.mem_map] at hx
    obtain ⟨y, hy, rfl⟩ := hx
    simp only [nodup_append, nodup_cons, mem_append, mem_cons] at hndk hy
    exact h.wide y (by simp only [hks, mem_append, mem_cons]; tauto) (by grind) (by grind)

theorem mem_old : y ∈ vmp.aList ↔ y ∈ mid ∨ y ∈ front ++ back := by simp [h.split, or_left_comm]

theorem mem_new : y ∈ vmp₁.aList ↔ y = w ∨ y ∈ front ++ back := by simp [h.aList₁, or_left_comm]

theorem not_fixed (hy : y ∈ sp :: w :: mid) : ¬ vmp.Fixed y := by
  rintro ⟨hya, hyt⟩
  rcases mem_cons.mp hy with rfl | hy
  · simp [(h.layout.span_bounds h.mem.1).1] at hyt
  · have hym : y ∈ mid := by
      rcases mem_cons.mp hy with rfl | hy
      · exact h.imports.elim And.left fun hout => absurd hya hout.1
      · exact hy
    rcases h.taken y hym with ht | ht <;> simp [ht] at hyt

theorem not_fixed₁ (hy : y ∈ sp :: w :: mid) : ¬ (vmemFreelistInsert vmp₁ w).Fixed y := by
  rintro ⟨-, hyt⟩
  by_cases hyw : y = w
  · simp [hyw] at hyt
  by_cases hys : y = sp
  · simp [hys, h.seg_marker, h.type] at hyt
  rw [h.seg_other hys hyw] at hyt
  rcases h.taken y (by simpa [hys, hyw] using hy) with ht | ht <;> simp [ht] at hyt

theorem keeps : Keeps vmp (vmemFreelistInsert vmp₁ w) := by
  have hchanged : ∀ y, y ∉ sp :: w :: mid → y ≠ sp ∧ y ≠ w ∧ y ∉ mid := by simp
  refine Keeps.of_changed (sp :: w :: mid) (fun y => h.not_fixed) (fun y => h.not_fixed₁) ?_ ?_
  · intro y hy
    obtain ⟨-, hyw, hym⟩ := hchanged y hy
    rw [(vmemFreelistInsert_frame vmp₁ w).1, h.mem_new, h.mem_old, or_iff_right hyw,
      or_iff_right hym]
  · intro y hy
    exact h.seg_other (hchanged y hy).1 (hchanged y hy).2.1

theorem marks (hy : y ∈ vmp₁.aList) (hm : ((vmemFreelistInsert vmp₁ w).segs y).vsImport = true) :
    y ∈ vmp.aList ∧ (vmp.segs y).vsImport = true := by
  rw [h.mem_old]
  by_cases hyw : y = w
  · subst hyw
    have hm : (vmp₁.segs y).vsImport = true := by simpa using hm
    rcases h.imports with ⟨hym, hsame⟩ | ⟨-, hno⟩
    · exact ⟨.inl hym, hsame ▸ hm⟩
    · simp [hno] at hm
  · refine ⟨.inr ((h.mem_new.mp hy).resolve_left hyw), ?_⟩
    rw [h.seg_eq hyw] at hm
    by_cases hys : y = sp
    · rwa [hys, update_self, h.mark, ← hys] at hm
    · rwa [update_of_ne hys] at hm

theorem grown : Grown vmp (vmemFreelistInsert vmp₁ w) w addr size := by
  obtain ⟨kpre, kpost, -, hk, hgrow⟩ := h.kList
  obtain ⟨hrange, -⟩ := h.settled.tiled h.layout.quantum.pos h.new.gap (by simp) h.tiled
  have hw : w ∈ vmp₁.aList := by simp [h.aList₁]
  exact
    { layout := h.layout₁
      indexed := h.pending.insertLaid hw h.layout₁
      mem := by simpa using hw
      free := by simp
      range := by rwa [Seg.hi, gapSeg_len] at hrange
      keeps := h.keeps
      spans := by
        rw [← h.map_kList hk, ← h.kList₁] at hgrow
        simpa using hgrow
      marks := fun y hy => h.marks (by simpa using hy)
      conf := by simpa using h.conf₁
      shape := by simpa using h.shape₁
      kstat := by simpa using h.kstat₁
      perm := by simpa using h.perm₁
      count := by simpa using h.count₁
      used := by simpa using h.used₁ }

end
end Taken

namespace Opened
variable {vmq : Arena} {c seg : Seg} {before gone after : List SegId}

/-- A free segment next to the range takes it up. -/
theorem absorb (h : Opened vmp vmq sp c addr size before gone after) (seg : Seg)
    (hfree : (vmp.segs w).vsType = .free) (hseg : seg.vsImport = (vmp.segs w).vsImport)
    (heq : vmp₁ = (vmemFreelistDelete vmq w).setSeg w seg) (front back : List SegId)
    (hside : before = front ++ [w] ∧ after = back ∨ before = front ∧ after = w :: back)
    (hlist : Scan.Settled (gapSeg addr size) { seg with vsType := .free }
      (before.map (update vmp.segs sp c)) (after.map (update vmp.segs sp c))
      (front.map (update vmp.segs sp c) ++ { seg with vsType := .free } ::
        back.map (update vmp.segs sp c))) :
    Grown vmp (vmemFreelistInsert vmp₁ w) w addr size := by
  obtain ⟨hold, ha⟩ := h.aList
  have ha' : vmq.aList = front ++ w :: back := by
    rw [ha]
    rcases hside with ⟨rfl, rfl⟩ | ⟨rfl, rfl⟩ <;> simp
  have hI := (h.indexed.freelistDelete (x := w) (by simp [ha']) (by simp)
    (by rwa [h.seg_type])).setPending
    (x := w) (by simp) seg
  have hspans : ∀ y ∈ gone, (vmp.segs y).vsType = .span := fun y hy =>
    (h.layout.span_bounds (h.mem.2 hy)).1
  obtain ⟨mid, hmid, hsplit⟩ : ∃ mid, (mid = w :: gone ∨ mid = gone ++ [w]) ∧
      vmp.aList = front ++ (mid ++ back) := by
    rcases hside with ⟨rfl, rfl⟩ | ⟨rfl, rfl⟩
    · exact ⟨_, .inl rfl, by simp [hold]⟩
    · exact ⟨_, .inr rfl, by simp [hold]⟩
  have hmem : ∀ y, y ∈ mid ↔ y = w ∨ y ∈ gone := by
    rcases hmid with rfl | rfl <;> simp [or_comm]
  have htaken : Taken vmp vmq vmp₁ sp w c addr size before gone after front mid back :=
    { h with
      pending := heq ▸ hI
      conf₁ := by simp [heq, h.conf]
      shape₁ := by simp [heq, h.shape]
      kstat₁ := by simp [heq, h.kstat]
      kList₁ := by simp [heq]
      split := hsplit
      taken := by
        intro y hy
        rcases (hmem y).mp hy with rfl | hy
        · exact .inl hfree
        · exact .inr (hspans y hy)
      markers := by
        have hno : [w].filter vmp.isSpan = [] := by simp [Arena.isSpan, hfree]
        rcases hmid with rfl | rfl
        · rw [← singleton_append, filter_append, hno, h.filter_gone, nil_append]
        · rw [filter_append, hno, h.filter_gone, append_nil]
      aList₁ := by simp [heq, ha']
      imports := .inl ⟨by simp [hmem], by simp [heq, hseg]⟩
      settled := by simpa [heq] using hlist
      segs₁ := fun y hy => by simp [heq, hy, h.segs]
      perm₁ := by simpa [heq] using h.perm
      count₁ := by simpa [heq] using h.count
      used₁ := by
        have hused := h.used
        simp only [heq, setSeg_frame, vmemFreelistDelete_frame]
        omega }
  exact htaken.grown

/-- The range becomes a segment of its own. -/
theorem create (h : Opened vmp vmq sp c addr size before [] after)
    (hprev : (vmp.segs (before.getLastD seg0)).vsType ≠ .free)
    (hnext : (vmp.segs (after.headD seg0)).vsType ≠ .free)
    (hcreate : vmemSegCreate vmq (before.getLastD seg0) addr (addr+size) = some (w, vmp₁)) :
    Grown vmp (vmemFreelistInsert vmp₁ w) w addr size := by
  obtain ⟨hold, ha⟩ := h.aList
  obtain ⟨rest, hstock, heq⟩ := vmemSegCreate_eq_some.mp hcreate
  have hnd := h.layout.nodup_of_perm h.perm
  rw [hstock] at hnd
  obtain ⟨hw, -⟩ := Ring.nodup_split hnd
  have hlist : vmp₁.aList = before ++ w :: after := by
    rw [ha] at hnd
    rw [heq, ha]
    exact Ring.insert_getLastD (hnd.sublist (by simp))
  have hI := h.indexed.segCreate hcreate (by
    rw [ha]
    rcases eq_nil_or_concat before with rfl | ⟨front, p, rfl⟩ <;> simp) hw
  have htaken : Taken vmp vmq vmp₁ sp w c addr size before [] after before [] after :=
    { h with
      pending := hI
      conf₁ := by simp [heq, h.conf]
      shape₁ := by simp [heq, h.shape]
      kstat₁ := by simp [heq, h.kstat]
      kList₁ := by simp [heq]
      split := hold
      taken := by simp
      markers := rfl
      aList₁ := hlist
      imports := .inr ⟨by rwa [hold, nil_append, ← ha], by simp [heq]⟩
      settled := .alone (h.last_not_free hprev) (h.head_not_free hnext)
        (by simp [heq, gapSeg]) (by simp [heq, gapSeg])
      segs₁ := fun y hy => by simp [heq, hy, h.segs]
      perm₁ := by
        refine Perm.trans ?_ h.perm
        rw [hlist, ha, hstock, heq, perm_iff_count]
        intro y
        simp only [count_append, count_cons]
        omega
      count₁ := by
        have hcount := h.count
        simp only [hstock, heq, length_cons] at hcount ⊢
        omega
      used₁ := by
        have hused := h.used
        simp only [heq]
        omega }
  exact htaken.grown

end Opened

section

variable (hL : Layout vmp) (hI : Indexed vmp []) (hnew : NewRange vmp addr size)
  (hsp : sp ∈ vmp.kList)

include hL hI hnew hsp

theorem extendEnd_grown (hend : (vmp.segs sp).vsEnd = addr)
    (hlast : ∀ kpre kpost, vmp.kList = kpre ++ sp :: kpost →
      ∀ b ∈ kpost, (vmp.segs b).vsStart ≠ addr+size)
    (h : extendEnd vmp sp addr (addr+size) = some (w, vmp₁)) :
    Grown vmp (vmemFreelistInsert vmp₁ w) w addr size := by
  obtain ⟨pre, inner, post, ha, hspan, hinner, hpost, hkn⟩ := span_split hL hsp
  obtain ⟨htype, -⟩ := hL.span_bounds hsp
  obtain ⟨hlo, hlen, hwide⟩ := hnew.wide_end (c := { vmp.segs sp with vsEnd := addr+size }) hL hsp
    hend rfl rfl
  obtain ⟨kpre, kpost, hks⟩ := append_of_mem hsp
  have hopen : Opened vmp (vmp.setEnd sp (addr+size)) sp { vmp.segs sp with vsEnd := addr+size }
      addr size (pre ++ sp :: inner) [] post := by
    refine ⟨hL, hI.setSpan htype htype, hnew, htype, rfl, ⟨kpre, kpost, hks, by simpa using hks,
      ?_⟩, fun x hx hne _ => hwide x hx hne, by simp, by simp [ha], ?_, by simp, by simp, by simp,
      by simp, by simp, by simp, by simp⟩
    · rw [hks, map_append, map_cons]
      exact .moveEnd hend (by simpa using hlast kpre kpost hks)
    · refine tiled_moved hL ha (by simp) (by simp) fun s ht => ?_
      rw [map_append] at ht
      refine Scan.tiled_growEnd hL.quantum.pos htype htype ?_ ?_ hnew.gap
        (hnew.meet_end hL hsp hend) hlo hlen ht
      · simpa [Arena.isSpan] using hinner
      · cases post <;> simp_all [Arena.isSpan]
  have hold : vmp.aPrev (vmp.kNext sp) = (pre ++ sp :: inner).getLastD seg0 := by
    rw [hkn, aPrev_headD hL (pre ++ sp :: inner) post (by simp [ha])]
  have hnext : (vmp.segs (post.headD seg0)).vsType ≠ .free := by
    cases post <;> simp_all [hL.anchor, Arena.isSpan]
  unfold extendEnd at h
  dsimp only at h
  rw [hold] at h
  rcases eq_nil_or_concat (pre ++ sp :: inner) with heq | ⟨front, o, heq⟩
  · simp at heq
  rw [concat_eq_append] at heq
  rw [heq] at hopen h
  rw [getLastD_concat, hopen.seg_type] at h
  split at h
  · -- the last segment of the span is free and takes up the new range
    rename_i hfree
    have hosp : o ≠ sp := by
      rintro rfl
      simp [htype] at hfree
    obtain ⟨rfl, rfl⟩ := Prod.mk.inj (some.inj h)
    refine hopen.absorb { vmp.segs o with vsEnd := addr+size } hfree rfl
      (by simp [hosp]) front post (.inl ⟨rfl, rfl⟩) ?_
    rw [map_append, map_singleton]
    exact .left (by rw [hopen.types, hfree]) (hopen.head_not_free hnext) (by simp [hosp]) rfl
  · rename_i hfree
    exact hopen.create (by rwa [getLastD_concat]) hnext (by rwa [getLastD_concat])

theorem extendStart_grown (hstart : (vmp.segs sp).vsStart = addr+size)
    (hprevend : (vmp.segs (vmp.kPrev sp)).vsEnd ≠ addr)
    (h : extendStart vmp sp addr (addr+size) = some (w, vmp₁)) :
    Grown vmp (vmemFreelistInsert vmp₁ w) w addr size := by
  obtain ⟨htype, -⟩ := hL.span_bounds hsp
  have hspa : sp ∈ vmp.aList := by
    rw [hL.spans] at hsp
    exact mem_of_mem_filter hsp
  obtain ⟨pre, post, ha⟩ := append_of_mem hspa
  obtain ⟨hlo, hlen, hwide⟩ := hnew.wide_start (c := { vmp.segs sp with vsStart := addr }) hL hsp
    hstart rfl rfl
  obtain ⟨kpre, kpost, hks⟩ := append_of_mem hsp
  have hopen : Opened vmp (vmp.setStart sp addr) sp { vmp.segs sp with vsStart := addr } addr size
      (pre ++ [sp]) [] post := by
    refine ⟨hL, hI.setSpan htype htype, hnew, htype, rfl, ⟨kpre, kpost, hks, by simpa using hks,
      ?_⟩, fun x hx hne _ => hwide x hx hne, by simp, by simp [ha], ?_, by simp, by simp, by simp,
      by simp, by simp, by simp, by simp⟩
    · rw [hks, map_append, map_cons]
      refine .moveStart hstart fun b hb => ?_
      rcases eq_nil_or_concat kpre with rfl | ⟨kpre, p, rfl⟩
      · simp at hb
      · have hnd := hL.nodup_anchor_kList
        rw [Arena.kPrev, hks, Ring.prev_split (hks ▸ hnd)] at hprevend
        obtain rfl : vmp.segs p = b := by simpa using hb
        simpa using hprevend
    · exact tiled_moved hL ha (by simp) (by simp) fun s ht => Scan.tiled_growStart hL.quantum.pos
        htype htype hnew.gap (hnew.meet_start hstart) hlo hlen ht
  have hnd := hL.nodup_aList
  rw [ha] at hnd
  have hnext : vmp.aNext sp = post.headD seg0 := by rw [Arena.aNext, ha, Ring.next_split hnd]
  have hprev : (vmp.segs ((pre ++ [sp]).getLastD seg0)).vsType ≠ .free := by simp [htype]
  unfold extendStart at h
  dsimp only at h
  rw [hnext, hopen.seg_type] at h
  split at h
  · -- the first segment of the span is free and takes up the new range
    rename_i hfree
    rcases post with _ | ⟨o, post⟩
    · simp [hL.anchor] at hfree
    rw [headD_cons] at hfree h
    have hosp : o ≠ sp := by
      rintro rfl
      simp [htype] at hfree
    obtain ⟨rfl, rfl⟩ := Prod.mk.inj (some.inj h)
    refine hopen.absorb { vmp.segs o with vsStart := addr } hfree rfl (by simp [hosp])
      (pre ++ [sp]) post (.inr ⟨rfl, rfl⟩) ?_
    exact .right (by rw [hopen.types, hfree]) (hopen.last_not_free hprev) rfl (by simp [hosp])
  · rename_i hfree
    exact hopen.create hprev hfree (by simpa using h)

end

theorem kPrev_split (hL : Layout vmp) (hsp : sp ∈ vmp.kList) (hpsp : vmp.kPrev sp ≠ seg0) :
    (∃ kpre kpost, vmp.kList = kpre ++ vmp.kPrev sp :: sp :: kpost) ∧
      ∃ pre inner post, vmp.aList = pre ++ vmp.kPrev sp :: (inner ++ sp :: post) ∧
        ∀ y ∈ inner, vmp.isSpan y = false := by
  have hndk := hL.nodup_anchor_kList
  obtain ⟨l, l', hk⟩ := append_of_mem hsp
  have hprev : vmp.kPrev sp = l.getLastD seg0 := by
    rw [Arena.kPrev, hk, Ring.prev_split (hk ▸ hndk)]
  rcases eq_nil_or_concat l with rfl | ⟨l, psp, rfl⟩
  · exact absurd hprev hpsp
  rw [concat_eq_append] at hk hprev
  rw [getLastD_concat] at hprev
  rw [hprev]
  have hk' : vmp.kList = l ++ psp :: sp :: l' := by simpa using hk
  have hpmem : psp ∈ vmp.kList := by simp [hk']
  obtain ⟨pre, inner, post, ha, -, hinner, -, hkn⟩ := span_split hL hpmem
  rw [Arena.kNext, hk', Ring.next_split (hk' ▸ hndk), headD_cons] at hkn
  rw [hk'] at hndk
  have hsp0 : sp ≠ seg0 := by
    rintro rfl
    exact (nodup_cons.mp hndk).1 (by simp)
  rcases post with _ | ⟨k, post⟩
  · exact absurd hkn hsp0
  rw [headD_cons] at hkn
  subst hkn
  exact ⟨⟨l, l', hk'⟩, pre, inner, post, ha, hinner⟩

theorem NewRange.wide_join (h : NewRange vmp addr size) (hL : Layout vmp)
    (hpsp : psp ∈ vmp.kList) (hsp : sp ∈ vmp.kList) (hend : (vmp.segs psp).vsEnd = addr)
    (hstart : (vmp.segs sp).vsStart = addr+size) {c : Seg}
    (hlo : c.vsStart = (vmp.segs psp).vsStart) (hstop : c.vsEnd = (vmp.segs sp).vsEnd) :
    c.lo = (vmp.segs psp).lo ∧
      c.len = (vmp.segs psp).len+(gapSeg addr size).len+(vmp.segs sp).len ∧
      ∀ x ∈ vmp.kList, x ≠ psp → x ≠ sp → (vmp.segs x).Disjoint c := by
  -- widen the first span by the gap, and then by the second span
  obtain ⟨hlo₁, hlen₁, hdis⟩ := h.wide_end (c := { vmp.segs psp with vsEnd := addr+size }) hL hpsp
    hend rfl rfl
  have hmeet := h.meet_end hL hpsp hend
  have hmeet' := h.meet_start hstart
  have hlo' : c.lo = (vmp.segs psp).lo := by rw [Seg.lo, hlo, Seg.lo]
  have hhi₁ : ({ vmp.segs psp with vsEnd := addr+size } : Seg).hi = (vmp.segs sp).lo := by
    rw [Seg.hi, hlo₁, hlen₁, ← hmeet', Seg.hi, ← hmeet, Seg.hi, Nat.add_assoc]
  have hlen : c.len = (vmp.segs psp).len+(gapSeg addr size).len+(vmp.segs sp).len := by
    obtain ⟨-, -, -, hhi, -⟩ := hL.span_bounds hsp
    have hpos := (hL.span_bounds hpsp).2.1
    rw [← hlen₁]
    simp only [Seg.hi, Seg.lo, Seg.len, Seg.vsSize] at hhi₁ hhi hpos ⊢
    rw [hlo, hstop]
    rw [hstart] at hhi hhi₁ ⊢
    bv_omega
  refine ⟨hlo', hlen, fun x hx hne hne' => ?_⟩
  refine (hdis x hx hne).union (hL.spans_disjoint hx hsp hne')
    (hL.span_bounds hx).2.2.1 hhi₁ (by rw [hlo', hlo₁]) ?_
  rw [Seg.hi, hlo', hlen, Seg.hi, ← hhi₁, Seg.hi, hlo₁, hlen₁]
  omega

theorem Indexed.destroyUnlisted {pend : List SegId} {x : SegId} (hI : Indexed vmp pend)
    (ht : (vmp.segs x).vsType = .span) : Indexed (vmemSegDestroy vmp x) pend :=
  ((hI.addPending (x := x) fun _ => by simp [ht]).segDestroy (x := x) (by simp)).dropPending
    fun _ => by simp [ht]

/-- The span that the two on either side of the gap become. -/
def joinedSpan (vmp : Arena) (psp sp : SegId) : Seg :=
  { vmp.segs psp with vsEnd := (vmp.segs sp).vsEnd }

/-- The new range lies between the spans `psp` and `sp`; the segments up to `sp` are `before` and
those behind it are `after`. -/
structure Closes (vmp : Arena) (psp sp : SegId) (addr size : Word) (before after : List SegId) :
    Prop where
  layout : Layout vmp
  indexed : Indexed (vmp.setEnd psp (vmp.segs sp).vsEnd) []
  new : NewRange vmp addr size
  kList : ∃ kpre kpost, vmp.kList = kpre ++ psp :: sp :: kpost
  meets : (vmp.segs psp).vsEnd = addr ∧ (vmp.segs sp).vsStart = addr + size
  prev_before : psp ∈ before
  aList : vmp.aList = before ++ sp :: after
  wide : ∀ x ∈ vmp.kList, x ≠ psp → x ≠ sp → (vmp.segs x).Disjoint (joinedSpan vmp psp sp)
  tiled : Scan.Tiled vmp.vmQuantum.toNat Scan.init
    (before.map (update vmp.segs psp (joinedSpan vmp psp sp)) ++ gapSeg addr size ::
      after.map (update vmp.segs psp (joinedSpan vmp psp sp)))

namespace Closes
variable {front back before after : List SegId} {p n : SegId}
section
variable (h : Closes vmp psp sp addr size before after)
include h

theorem prev_mem : psp ∈ vmp.kList := by
  obtain ⟨kpre, kpost, hk⟩ := h.kList
  simp [hk]

theorem mem : sp ∈ vmp.kList := by
  obtain ⟨kpre, kpost, hk⟩ := h.kList
  simp [hk]

theorem ne : psp ≠ sp := by
  obtain ⟨kpre, kpost, hk⟩ := h.kList
  have hnd := h.layout.nodup_kList
  rw [hk] at hnd
  rintro rfl
  simp [nodup_append] at hnd

theorem prev_type : (vmp.segs psp).vsType = .span :=
  (h.layout.span_bounds h.prev_mem).1

theorem type : (vmp.segs sp).vsType = .span :=
  (h.layout.span_bounds h.mem).1

theorem ne_of_free (hp : (vmp.segs p).vsType = .free) : p ≠ psp ∧ p ≠ sp := by
  constructor <;> rintro rfl
  · simp [h.prev_type] at hp
  · simp [h.type] at hp

theorem kList_erase :
    ∃ kpre kpost, vmp.kList = kpre ++ psp :: ([sp] ++ kpost) ∧
      vmp.kList.erase sp = kpre ++ psp :: kpost ∧
      SpansGrow (vmp.vmSource = none) addr size (vmp.kList.map vmp.segs)
        (kpre.map vmp.segs ++ joinedSpan vmp psp sp :: kpost.map vmp.segs) := by
  obtain ⟨kpre, kpost, hks⟩ := h.kList
  have hnd := h.layout.nodup_anchor_kList
  rw [hks, append_cons] at hnd
  refine ⟨kpre, kpost, hks, ?_, ?_⟩
  · rw [hks, append_cons, Ring.erase_split hnd, ← append_cons]
  · rw [hks, map_append, map_cons, map_cons]
    exact .join h.meets.1 h.meets.2

/-- The marker `sp` has been taken off the lists. -/
theorem opened :
    Opened vmp (vmemSegDestroy ((vmp.setEnd psp (vmp.segs sp).vsEnd).kDelete sp) sp) psp
      (joinedSpan vmp psp sp) addr size before [sp] after := by
  have hI : Indexed ((vmp.setEnd psp (vmp.segs sp).vsEnd).kDelete sp) [] :=
    h.indexed.ofSame rfl rfl rfl rfl rfl rfl rfl
  have hnd := h.layout.nodup_aList
  rw [h.aList] at hnd
  obtain ⟨kpre, kpost, hks, hk, hgrow⟩ := h.kList_erase
  refine ⟨h.layout, hI.destroyUnlisted (x := sp) (by simp [h.ne.symm, h.type]), h.new, h.prev_type,
    rfl, ⟨kpre, kpost, hks, by simpa using hk, hgrow⟩, fun x hx hne hsp => h.wide x hx hne
    (by simpa using hsp), ne_nil_of_mem h.prev_before, ⟨h.aList, ?_⟩, h.tiled, by
    simp [joinedSpan], by simp, by simp, by simp, ?_, ?_, by simp⟩
  · simp only [vmemSegDestroy_frame, kDelete_frame, setEnd_eq, setSeg_frame, h.aList]
    exact Ring.erase_split hnd
  · simp only [vmemSegDestroy_frame, kDelete_frame, setEnd_eq, setSeg_frame, h.aList,
      Ring.erase_split hnd]
    rw [perm_iff_count]
    intro y
    simp only [count_append, count_cons]
    omega
  · simp

end

theorem both (h : Closes vmp psp sp addr size (front ++ [p]) (n :: back))
    (hp : (vmp.segs p).vsType = .free) (hn : (vmp.segs n).vsType = .free) (hw : w = p)
    (heq : vmp₁ = vmemSegDestroy (vmemSegDestroy ((vmemFreelistDelete ((vmemFreelistDelete
      (vmp.setEnd psp (vmp.segs sp).vsEnd) p).setEnd p (vmp.segs n).vsEnd) n).kDelete sp) n) sp) :
    Grown vmp (vmemFreelistInsert vmp₁ w) w addr size := by
  subst hw
  obtain ⟨hwp, hws⟩ := h.ne_of_free hp
  obtain ⟨hnp, hns⟩ := h.ne_of_free hn
  have hnd := h.layout.nodup_aList
  rw [h.aList] at hnd
  have hwn : w ≠ n := by
    rintro rfl
    exact (Ring.nodup_split hnd).2.2.2 w (by simp) (by simp)
  have hI₁ := h.indexed.freelistDelete (x := w) (by simp [h.aList]) (by simp)
    (by simpa [hwp] using hp)
  have hI₂ := hI₁.setPending (x := w) (by simp) { vmp.segs w with vsEnd := (vmp.segs n).vsEnd }
  have hI₃ := hI₂.freelistDelete (x := n) (by simp [h.aList]) (by simp [hwn.symm])
    (by simpa [hwn.symm, hnp] using hn)
  have hI₄ : Indexed (vmemSegDestroy ((vmemFreelistDelete ((vmemFreelistDelete
      (vmp.setEnd psp (vmp.segs sp).vsEnd) w).setEnd w (vmp.segs n).vsEnd) n).kDelete sp) n)
      [w] := by
    have hk := (hI₃.ofSame rfl rfl rfl rfl rfl rfl rfl :
      Indexed (Arena.kDelete _ sp) _).segDestroy (x := n) (by simp)
    refine Indexed.dropPending (x := n) (by simpa [hwp] using hk) fun hm => absurd hm ?_
    simpa using (nodup_cons.mp h.layout.nodup_aList).2.not_mem_erase
  have hI₅ := hI₄.destroyUnlisted (x := sp) (by simp [hws.symm, h.ne.symm, h.type])
  have hlist : vmp₁.aList = front ++ w :: back := by
    have hnd₁ : (seg0 :: ((front ++ [w] ++ [sp]) ++ n :: back)).Nodup := by simpa using hnd
    have hnd₂ : (seg0 :: ((front ++ [w]) ++ sp :: back)).Nodup := hnd.sublist (by simp)
    have he₁ : (front ++ [w] ++ sp :: n :: back).erase n = front ++ [w] ++ sp :: back := by
      simpa using Ring.erase_split hnd₁
    simp only [heq, vmemSegDestroy_frame, kDelete_frame, vmemFreelistDelete_frame, setEnd_eq,
      setSeg_frame, h.aList]
    rw [he₁, Ring.erase_split hnd₂]
    simp
  have htaken : Taken vmp _ vmp₁ psp w (joinedSpan vmp psp sp) addr size (front ++ [w]) [sp]
      (n :: back) front [w, sp, n] back :=
    { h.opened with
      pending := heq ▸ hI₅
      conf₁ := by simp [heq]
      shape₁ := by simp [heq]
      kstat₁ := by simp [heq]
      kList₁ := by simp [heq]
      split := by simp [h.aList]
      taken := by simp [hp, hn, h.type]
      markers := by simp [Arena.isSpan, hp, hn, h.type]
      aList₁ := hlist
      imports := .inl ⟨by simp, by simp [heq, hwp]⟩
      settled := by
        rw [map_append, map_singleton, map_cons]
        exact .both (by simpa [hwp] using hp) (by simpa [hnp] using hn) (by simp [heq, hwp])
          (by simp [heq, hnp])
      segs₁ := fun y hy => by simp [heq, hy, joinedSpan]
      perm₁ := by
        rw [hlist, h.aList, heq, perm_iff_count]
        intro y
        simp only [vmemSegDestroy_frame, kDelete_frame, vmemFreelistDelete_frame, setEnd_eq,
          setSeg_frame, count_append, count_cons, count_nil]
        omega
      count₁ := by simp [heq]
      used₁ := by
        simp [heq]
        omega }
  exact htaken.grown

theorem alone (h : Closes vmp psp sp addr size before after)
    (hprev : (vmp.segs (before.getLastD seg0)).vsType ≠ .free)
    (hnext : (vmp.segs (after.headD seg0)).vsType ≠ .free) (hw : w = sp)
    (heq : vmp₁ = (((vmp.setEnd psp (vmp.segs sp).vsEnd).kDelete sp).setStart sp addr).setEnd sp
      (addr+size)) :
    Grown vmp (vmemFreelistInsert vmp₁ w) w addr size := by
  subst hw
  have hI₁ : Indexed ((vmp.setEnd psp (vmp.segs w).vsEnd).kDelete w) [] :=
    h.indexed.ofSame rfl rfl rfl rfl rfl rfl rfl
  have hI₂ := ((hI₁.addPending (x := w) fun _ => by simp [h.ne.symm, h.type]).setPending (x := w)
    (by simp) { vmp.segs w with vsStart := addr }).setPending (x := w) (by simp)
    ⟨addr, addr+size, .span, (vmp.segs w).vsImport⟩
  have htaken : Taken vmp _ vmp₁ psp w (joinedSpan vmp psp w) addr size before [w] after before [w]
      after :=
    { h.opened with
      pending := heq ▸ (by simpa [h.ne.symm, h.type] using hI₂)
      conf₁ := by simp [heq]
      shape₁ := by simp [heq]
      kstat₁ := by simp [heq]
      kList₁ := by simp [heq]
      split := h.aList
      taken := by simp [h.type]
      markers := by simp [Arena.isSpan, h.type]
      aList₁ := by simp [heq, h.aList]
      imports := .inl ⟨by simp, by simp [heq, h.ne.symm]⟩
      settled := .alone (h.opened.last_not_free hprev) (h.opened.head_not_free hnext)
        (by simp [heq, gapSeg]) (by simp [heq, gapSeg])
      segs₁ := fun y hy => by simp [heq, hy, joinedSpan]
      perm₁ := by simp [heq]
      count₁ := by simp [heq]
      used₁ := by simp [heq] }
  exact htaken.grown

end Closes

theorem extendJoin_grown (hL : Layout vmp) (hI : Indexed vmp []) (hnew : NewRange vmp addr size)
    (hsp : sp ∈ vmp.kList) (hend : (vmp.segs (vmp.kPrev sp)).vsEnd = addr)
    (hstart : (vmp.segs sp).vsStart = addr+size)
    (h : extendJoin vmp sp addr (addr+size) = (w, vmp₁)) :
    Grown vmp (vmemFreelistInsert vmp₁ w) w addr size := by
  have hpsp0 : vmp.kPrev sp ≠ seg0 := by
    intro he
    rw [he, hL.anchor] at hend
    exact hnew.vaddr_ne hend.symm
  obtain ⟨⟨kpre, kpost, hks⟩, pre, inner, after, ha, hinner⟩ := kPrev_split hL hsp hpsp0
  have hpsp : vmp.kPrev sp ∈ vmp.kList := hks ▸ by simp
  have ha' : vmp.aList = (pre ++ vmp.kPrev sp :: inner) ++ sp :: after := by simp [ha]
  have htype := (hL.span_bounds hpsp).1
  obtain ⟨hlo, hlen, hwide⟩ := hnew.wide_join (c := joinedSpan vmp (vmp.kPrev sp) sp) hL hpsp hsp
    hend hstart rfl rfl
  have hc : Closes vmp (vmp.kPrev sp) sp addr size (pre ++ vmp.kPrev sp :: inner) after := by
    refine ⟨hL, hI.setSpan htype htype, hnew, ⟨kpre, kpost, hks⟩, ⟨hend, hstart⟩, by simp, ha',
      hwide, tiled_moved hL ha (by simp) (by simp) fun s ht => ?_⟩
    rw [map_append, map_cons] at ht
    exact Scan.tiled_growJoin hL.quantum.pos htype (hL.span_bounds hsp).1 htype
      (by simpa [Arena.isSpan] using hinner) hnew.gap (hnew.meet_end hL hpsp hend)
      (hnew.meet_start hstart) hlo hlen ht
  have hnd := hL.nodup_aList
  rw [ha'] at hnd
  have hnext : vmp.aNext sp = after.headD seg0 := by rw [Arena.aNext, ha', Ring.next_split hnd]
  have hprev : vmp.aPrev sp = (pre ++ vmp.kPrev sp :: inner).getLastD seg0 := by
    rw [Arena.aPrev, ha', Ring.prev_split hnd]
  have hanchor : (vmp.segs seg0).vsType ≠ .free := by simp [hL.anchor]
  have htypes : ∀ y, ((vmp.setEnd (vmp.kPrev sp) (vmp.segs sp).vsEnd).segs y).vsType =
      (vmp.segs y).vsType := hc.opened.types
  unfold extendJoin at h
  dsimp only at h
  rw [hprev, hnext] at h
  generalize pre ++ vmp.kPrev sp :: inner = before at *
  simp only [htypes] at h
  rcases eq_nil_or_concat before with rfl | ⟨front, p, rfl⟩
  · simpa using hc.prev_before
  rw [concat_eq_append] at *
  simp only [getLastD_concat] at h
  split at h
  · rename_i hboth
    rcases after with _ | ⟨n, back⟩
    · exact absurd hboth.2 hanchor
    obtain ⟨hnp, -⟩ := hc.ne_of_free hboth.2
    obtain ⟨rfl, rfl⟩ := Prod.mk.inj h
    have hstop : ((vmemFreelistDelete (vmp.setEnd (vmp.kPrev sp) (vmp.segs sp).vsEnd) p).segs
        n).vsEnd = (vmp.segs n).vsEnd := by
      simp [show n ≠ vmp.kPrev sp from hnp]
    refine hc.both hboth.1 hboth.2 rfl ?_
    rw [← hstop]
    rfl
  · rename_i hboth
    split at h
    · rename_i hp
      obtain ⟨rfl, rfl⟩ := Prod.mk.inj h
      have hpp : p ≠ vmp.kPrev sp := (hc.ne_of_free hp).1
      refine hc.opened.absorb { vmp.segs p with vsEnd := addr+size } hp rfl
        (by simp [hpp]) front after (.inl ⟨rfl, rfl⟩) ?_
      rw [map_append, map_singleton]
      exact .left (by rw [hc.opened.types, hp])
        (hc.opened.head_not_free fun hn => hboth ⟨hp, hn⟩) (by simp [hpp]) rfl
    · rename_i hp
      split at h
      · rename_i hn
        rcases after with _ | ⟨n, back⟩
        · exact absurd hn hanchor
        cases h
        have hnp : n ≠ vmp.kPrev sp := (hc.ne_of_free hn).1
        refine hc.opened.absorb { vmp.segs n with vsStart := addr } hn rfl
          (by simp [hnp]) (front ++ [p]) back (.inr ⟨rfl, rfl⟩) ?_
        exact .right (by rw [hc.opened.types]; exact hn)
          (hc.opened.last_not_free (by simpa using hp)) rfl (by simp [hnp])
      · rename_i hn
        cases h
        exact hc.alone (by simpa using hp) hn rfl rfl

end Libumem.Vmem
