import Libumem.Vmem.Layout

/-!
# Coalescing segments

The arithmetic of `vmem_xfree` and `vmem_advance`: an allocated segment whose end has been rounded
up to the quantum takes up exactly its own range, and two such neighbours can be replaced by one
segment from the start of the first to the end of the second.
-/

namespace Libumem.Vmem
open Arith Lib Pow2
namespace Scan
variable {q : Nat} {s t : Scan} {a b c : Seg} {rest : List Seg}

/-- A segment of whole quanta. -/
structure Solid (q : Nat) (vsp : Seg) : Prop where
  type : vsp.vsType = .free ∨ vsp.vsType = .alloc
  len : q ∣ vsp.len

theorem Solid.step (hq : 0 < q) (h : Solid q a) (hs : Step q s a t) :
    s.Holds q a a.len ∧ t.pos = s.pos+a.len ∧ t.stop = s.stop ∧
      (a.vsType = .free → s.afterFree = false) ∧
      (t.afterFree = true ↔ a.vsType = .free) := by
  rcases h.type with ht | ht
  · obtain ⟨hold, -, hafter, rfl⟩ := (step_free ht).mp hs
    exact ⟨hold, rfl, rfl, fun _ => hafter, by simp [ht]⟩
  · obtain ⟨hold, rfl⟩ := (step_alloc ht).mp hs
    rw [roundUp_of_dvd hq h.len] at hold ⊢
    exact ⟨hold, rfl, rfl, by simp [ht], by simp [ht]⟩

theorem Solid.mk_step (hq : 0 < q) (h : Solid q a) (hold : s.Holds q a a.len)
    (hafter : a.vsType = .free → s.afterFree = false) :
    Step q s a ⟨s.pos+a.len, s.stop, a.vsType == .free⟩ := by
  rcases h.type with ht | ht
  · exact (step_free ht).mpr ⟨hold, h.len, hafter ht, by simp [ht]⟩
  · rw [step_alloc ht, roundUp_of_dvd hq h.len]
    exact ⟨hold, by simp [ht]⟩

theorem tiled_retype (hq : 0 < q) (ha : Solid q a) (hc : c.vsType = .free ∨ c.vsType = .alloc)
    (hstart : c.vsStart = a.vsStart) (hend : c.vsEnd = a.vsEnd)
    (hprev : c.vsType = .free → a.vsType = .free ∨ s.afterFree = false)
    (hnext : c.vsType = .free → ∀ vsp ∈ rest.head?, vsp.vsType ≠ .free)
    (h : Tiled q s (a :: rest)) : Tiled q s (c :: rest) := by
  obtain ⟨t, hs, hrest⟩ := tiled_cons.mp h
  obtain ⟨hold, hpos, hstop, hafter, -⟩ := ha.step hq hs
  have hlo : c.lo = a.lo := by rw [Seg.lo, hstart, Seg.lo]
  have hlen : c.len = a.len := by rw [Seg.len, Seg.vsSize, hstart, hend, Seg.len, Seg.vsSize]
  have hsolid : Solid q c := ⟨hc, hlen ▸ ha.len⟩
  refine tiled_cons.mpr ⟨_, hsolid.mk_step hq ⟨hlo.trans hold.start, hold.pos, hold.aligned,
    hlen ▸ hold.len_pos, hlen ▸ hold.room, hold.bound⟩ fun hcf => (hprev hcf).elim hafter id, ?_⟩
  refine tiled_congr_afterFree hrest (by rw [hpos, hlen]) hstop.symm fun hfree => .inr ?_
  exact hnext (by simpa using hfree)

section
variable (hq : 0 < q) (ha : Solid q a) (hb : Solid q b) (hstart : c.vsStart = a.vsStart)
  (hend : c.vsEnd = b.vsEnd) (h : Tiled q s (a :: b :: rest))
include hq ha hb hstart hend h

theorem len_merge : c.len = a.len+b.len := by
  obtain ⟨m, hsa, hrest⟩ := tiled_cons.mp h
  obtain ⟨t, hsb, -⟩ := tiled_cons.mp hrest
  obtain ⟨holda, hposa, -⟩ := ha.step hq hsa
  obtain ⟨holdb, -⟩ := hb.step hq hsb
  have h1 := holda.start
  have h2 := holdb.start
  have h3 := holdb.room
  have h4 := holdb.bound
  have h5 := holda.pos
  have h6 := holdb.len_pos
  rw [hposa] at h2 h3
  simp only [Seg.len, Seg.lo, Seg.vsSize] at *
  rw [hstart, hend]
  bv_omega

theorem range_merge : c.lo = a.lo ∧ a.hi = b.lo ∧ c.hi = b.hi := by
  have hlen := len_merge hq ha hb hstart hend h
  obtain ⟨m, hsa, hrest⟩ := tiled_cons.mp h
  obtain ⟨t, hsb, -⟩ := tiled_cons.mp hrest
  obtain ⟨holda, hposa, -⟩ := ha.step hq hsa
  obtain ⟨holdb, -⟩ := hb.step hq hsb
  have hlo : c.lo = a.lo := by rw [Seg.lo, hstart, Seg.lo]
  have hnext : b.lo = a.hi := by rw [holdb.start, hposa, ← holda.start, Seg.hi]
  refine ⟨hlo, hnext.symm, ?_⟩
  rw [Seg.hi, Seg.hi, hlo, hlen, hnext, Seg.hi, Nat.add_assoc]

end

theorem tiled_merge (hq : 0 < q) (ha : Solid q a) (hb : Solid q b)
    (hc : c.vsType = .free ∨ c.vsType = .alloc) (hstart : c.vsStart = a.vsStart)
    (hend : c.vsEnd = b.vsEnd) (hprev : c.vsType = .free → a.vsType = .free ∨ s.afterFree = false)
    (hnext : c.vsType = .free → ∀ vsp ∈ rest.head?, vsp.vsType ≠ .free)
    (h : Tiled q s (a :: b :: rest)) : Solid q c ∧ Tiled q s (c :: rest) := by
  have hlen := len_merge hq ha hb hstart hend h
  obtain ⟨m, hsa, hrest⟩ := tiled_cons.mp h
  obtain ⟨t, hsb, hrest⟩ := tiled_cons.mp hrest
  obtain ⟨holda, hposa, hstopa, hafter, -⟩ := ha.step hq hsa
  obtain ⟨holdb, hposb, hstopb, -, -⟩ := hb.step hq hsb
  have hlo : c.lo = a.lo := by rw [Seg.lo, hstart, Seg.lo]
  have hroom := holdb.room
  rw [hposa, hstopa] at hroom
  have hpos := holda.len_pos
  have hsolid : Solid q c := ⟨hc, hlen ▸ Nat.dvd_add ha.len hb.len⟩
  refine ⟨hsolid, tiled_cons.mpr ⟨_, hsolid.mk_step hq ⟨hlo.trans holda.start, holda.pos,
    holda.aligned, by omega, by omega, holda.bound⟩ fun hcf => (hprev hcf).elim hafter id, ?_⟩⟩
  refine tiled_congr_afterFree hrest ?_ ?_ fun hfree => .inr (hnext (by simpa using hfree))
  · change s.pos+c.len = t.pos
    omega
  · exact (hstopb.trans hstopa).symm

theorem tiled_round {qw : Word} (hq : IsPow2 qw) (ht : a.vsType = .alloc)
    (hct : c.vsType = .alloc) (hstart : c.vsStart = a.vsStart)
    (hend : c.vsEnd = p2roundup a.vsEnd qw) (h : Tiled qw.toNat s (a :: rest)) :
    Solid qw.toNat c ∧ Tiled qw.toNat s (c :: rest) := by
  obtain ⟨t, hs, hrest⟩ := tiled_cons.mp h
  obtain ⟨hold, rfl⟩ := (step_alloc ht).mp hs
  have hlo : c.lo = a.lo := by rw [Seg.lo, hstart, Seg.lo]
  have hlen : c.len = roundUp a.len qw.toNat := by
    have hstart' := hold.start
    have hpos := hold.pos
    have hroom := hold.room
    have hbound := hold.bound
    have hdvd : qw.toNat ∣ a.vsStart.toNat := by
      rw [← Seg.lo, hold.start]
      exact hold.aligned
    have hend' : a.vsEnd = a.vsStart+a.vsSize := by
      rw [Seg.vsSize]
      bv_omega
    have hsize : c.vsSize = p2roundup a.vsSize qw := by
      rw [Seg.vsSize, hstart, hend, hend', p2roundup_add_of_dvd hq hdvd]
      bv_omega
    rw [Seg.len, hsize, toNat_p2roundup_of_lt hq, Seg.len]
    rw [← Seg.len]
    omega
  have hsolid : Solid qw.toNat c := ⟨.inr hct, hlen ▸ dvd_roundUp _ _⟩
  refine ⟨hsolid, tiled_cons.mpr ⟨_, (step_alloc hct).mpr ⟨⟨hlo.trans hold.start, hold.pos,
    hold.aligned, ?_, ?_, hold.bound⟩, rfl⟩, ?_⟩⟩
  · rw [hlen]
    exact roundUp_pos hq.pos hold.len_pos
  · rw [roundUp_of_dvd hq.pos hsolid.len, hlen]
    exact hold.room
  · rw [roundUp_of_dvd hq.pos hsolid.len, hlen]
    exact hrest

theorem afterFree_of_runs {l : List Seg} (h : Runs (Step q) init l s) (hs : s.afterFree = true) :
    ∃ front last, l = front ++ [last] ∧ last.vsType = .free := by
  rcases List.eq_nil_or_concat l with rfl | ⟨front, last, rfl⟩
  · cases h
    simp [init] at hs
  · refine ⟨front, last, by simp, ?_⟩
    rw [List.concat_eq_append, Runs.append] at h
    obtain ⟨m, -, hlast⟩ := h
    rw [Runs.singleton] at hlast
    cases ht : last.vsType with
    | free => rfl
    | unset => simp [Step, ht] at hlast
    | span =>
      rw [step_span ht] at hlast
      simp [hlast.2] at hs
    | alloc =>
      rw [step_alloc ht] at hlast
      simp [hlast.2] at hs
    | rotor =>
      rw [step_marker (.inl ht)] at hlast
      simp [hlast] at hs
    | walker =>
      rw [step_marker (.inr ht)] at hlast
      simp [hlast] at hs

end Scan
end Libumem.Vmem
