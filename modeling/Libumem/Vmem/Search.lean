import Libumem.Vmem.Fit

/-!
# The freelists that `vmem_xalloc` searches

The search begins at the first list that can hold a segment of the size class of the request and
moves up through the lists that are not empty. It gives up when no segment of these lists has a
place for the request, and a best-fit search ends with a segment of the least size.
-/

namespace Libumem.Vmem
open List Arith Lib

/-- The first freelist above list `k` that is not empty, or 0. -/
def freelistAbove (vmp : Arena) (k : Nat) : Nat := lowbit (p2align vmp.vmFreemap ((1 : Word) <<< k))

section
variable {vmp : Arena} {k : Nat} {x : XallocArgs} {l : List SegId} {best : SegId × Word}

section

variable (hI : Indexed vmp [])

include hI

theorem freelist_eq_nil_iff {i : Nat} (hi : i<64) :
    vmp.vmFreelist (i+1) = [] ↔ vmp.vmFreemap.getLsbD i = false := by
  rw [hI.freemap i hi]
  simp

theorem freelist_eq_nil_of_lt {i : Nat} (hi : 64 < i) : vmp.vmFreelist i = [] := by
  rw [eq_nil_iff_forall_not_mem]
  intro v hv
  have hle : i≤64 := (hI.mem_freelist hv).2.2.2.2.2
  omega

theorem freelistAbove_eq_zero_iff :
    freelistAbove vmp k = 0 ↔ ∀ i, k < i → vmp.vmFreelist i = [] := by
  rw [freelistAbove, lowbit_p2align_eq_zero_iff]
  constructor
  · intro h i hk
    obtain ⟨i, rfl⟩ := Nat.exists_eq_succ_of_ne_zero (by omega : i ≠ 0)
    by_cases hi : i<64
    · exact (freelist_eq_nil_iff hI hi).mpr (h i hi (by omega))
    · exact freelist_eq_nil_of_lt hI (by omega)
  · intro h i hi hk
    exact (freelist_eq_nil_iff hI hi).mp (h (i+1) (by omega))

theorem freelistAbove_spec (hne : freelistAbove vmp k ≠ 0) :
    k < freelistAbove vmp k ∧ freelistAbove vmp k ≤ 64 ∧
      vmp.vmFreelist (freelistAbove vmp k) ≠ [] ∧
      ∀ i, k < i → i < freelistAbove vmp k → vmp.vmFreelist i = [] := by
  obtain ⟨f, hf⟩ := Nat.exists_eq_succ_of_ne_zero hne
  obtain ⟨hk, hlt, hset, hclear⟩ := lowbit_p2align_eq_succ hf
  rw [hf]
  refine ⟨by omega, by omega, ?_, fun i hki hif => ?_⟩
  · rw [Nat.succ_eq_add_one, ne_eq, freelist_eq_nil_iff hI hlt, hset]
    simp
  · obtain ⟨i, rfl⟩ := Nat.exists_eq_succ_of_ne_zero (by omega : i ≠ 0)
    exact (freelist_eq_nil_iff hI (by omega)).mpr (hclear i (by omega) (by omega))

theorem mem_freelist_of_free {v : SegId} (hv : v ∈ vmp.aList) (ht : (vmp.segs v).vsType = .free) :
    v ∈ vmp.vmFreelist (highbit (vmp.segs v).vsSize) :=
  (hI.free.mem _ v).mpr ⟨⟨hv, by simp, ht⟩, rfl⟩

theorem lt_highbit_iff {v : SegId} (hv : v ∈ vmp.aList) (ht : (vmp.segs v).vsType = .free)
    {k : Nat} : k < highbit (vmp.segs v).vsSize ↔ 2^k ≤ (vmp.segs v).len := by
  have hne := (hI.free_ne v hv (by simp) ht).2
  have hlen : (vmp.segs v).len ≠ 0 := by
    rw [Seg.len]
    bv_omega
  rw [highbit_eq hne, Nat.lt_succ_iff]
  exact Nat.le_log2 hlen

end

theorem xallocScan_eq_none {vbest : Option (SegId × Word)} :
    xallocScan vmp x l vbest = none ↔
      vbest = none ∧ ∀ v ∈ l, xallocPlace vmp x (vmp.segs v) = none := by
  induction l generalizing vbest with
  | nil => simp [xallocScan]
  | cons v l ih =>
    rw [xallocScan]
    split
    · rename_i hplace
      rw [ih]
      simp [hplace]
    · rename_i taddr hplace
      split
      · rename_i hany
        rw [ih]
        cases vbest with
        | none => simp at hany
        | some b => simp
      · split
        · simp [hplace]
        · rw [ih]
          simp [hplace]

/-- A best-fit scan ends with a segment of the least size, as long as no segment smaller than the
request is taken for one that fits. -/
theorem xallocScan_least (hbest : x.vmBestfit = true)
    (hfits : ∀ v ∈ l, xallocPlace vmp x (vmp.segs v) ≠ none → x.size ≤ vmp.vsSize v)
    {vbest : Option (SegId × Word)} (hv : ∀ b ∈ vbest, x.size ≤ vmp.vsSize b.1)
    (h : xallocScan vmp x l vbest = some best) :
    (∀ b ∈ vbest, vmp.vsSize best.1 ≤ vmp.vsSize b.1) ∧
      ∀ v ∈ l, xallocPlace vmp x (vmp.segs v) ≠ none → vmp.vsSize best.1 ≤ vmp.vsSize v := by
  induction l generalizing vbest with
  | nil =>
    rw [xallocScan] at h
    simp [h]
  | cons v l ih =>
    have hrest := @ih fun v hv => hfits v (mem_cons_of_mem _ hv)
    rw [xallocScan] at h
    split at h
    · rename_i hplace
      obtain ⟨hb, hl⟩ := hrest hv h
      refine ⟨hb, ?_⟩
      simpa [hplace] using hl
    · rename_i taddr hplace
      have hsize : x.size ≤ vmp.vsSize v := hfits v mem_cons_self (by simp [hplace])
      split at h
      · -- the segment is no smaller than the best so far
        rename_i hany
        obtain ⟨hsome, hle⟩ := Option.any_eq_true_iff_get _ _ |>.mp hany
        have hmem : vbest.get hsome ∈ vbest := Option.get_mem hsome
        obtain ⟨hb, hl⟩ := hrest hv h
        refine ⟨hb, fun y hy hp => ?_⟩
        rcases mem_cons.mp hy with rfl | hy
        · exact BitVec.le_trans (hb _ hmem) (of_decide_eq_true hle)
        · exact hl y hy hp
      · rename_i hany
        have hold : ∀ b ∈ vbest, vmp.vsSize v ≤ vmp.vsSize b.1 := by
          rintro b rfl
          simp only [Option.any_some, decide_eq_true_iff, BitVec.not_le] at hany
          exact BitVec.le_of_lt hany
        split at h
        · -- an exact fit ends the scan
          rename_i hexact
          cases h
          have heq : vmp.vsSize v = x.size := by simpa [hbest] using hexact
          refine ⟨hold, fun y hy hp => ?_⟩
          rw [heq]
          exact hfits y hy hp
        · obtain ⟨hb, hl⟩ := @hrest (some (v, taddr)) (by simpa using hsize) h
          have hle : vmp.vsSize best.1 ≤ vmp.vsSize v := hb (v, taddr) rfl
          refine ⟨fun b hm => BitVec.le_trans hle (hold b hm), fun y hy hp => ?_⟩
          rcases mem_cons.mp hy with rfl | hy
          · exact hle
          · exact hl y hy hp

end

theorem eq_one_shiftLeft {size : Word} (hsize : size ≠ 0) (hpow : size &&& (size-1) = 0) :
    size = (1 : Word) <<< size.toNat.log2 := by
  obtain ⟨k, hk, heq⟩ := isPow2_of_isP2 hsize hpow
  apply BitVec.eq_of_toNat_eq
  rw [heq, Nat.log2_two_pow, toNat_one_shiftLeft hk]

variable {vmp : Arena} {x : XallocArgs} {best : SegId × Word}

/-- The lists above `k` are searched one after the other. -/
theorem xallocSearch_above (hI : Indexed vmp []) {turns k : Nat} (hturns : 64 < k+turns) :
    match xallocSearch vmp x turns (freelistAbove vmp k) with
    | none => ∀ i, k < i → ∀ v ∈ vmp.vmFreelist i, xallocPlace vmp x (vmp.segs v) = none
    | some best => ∃ i, k < i ∧ xallocScan vmp x (vmp.vmFreelist i) none = some best ∧
        ∀ j, k < j → j < i → ∀ v ∈ vmp.vmFreelist j, xallocPlace vmp x (vmp.segs v) = none := by
  induction turns generalizing k with
  | zero =>
    rw [xallocSearch]
    intro i hi v hv
    rw [freelist_eq_nil_of_lt hI (by omega)] at hv
    simp at hv
  | succ turns ih =>
    rw [xallocSearch]
    by_cases hz : freelistAbove vmp k = 0
    · rw [if_pos hz]
      intro i hi v hv
      rw [(freelistAbove_eq_zero_iff hI).mp hz i hi] at hv
      simp at hv
    · rw [if_neg hz]
      obtain ⟨hk, -, -, hempty⟩ := freelistAbove_spec hI hz
      cases hscan : xallocScan vmp x (vmp.vmFreelist (freelistAbove vmp k)) none with
      | some best =>
        refine ⟨_, hk, hscan, fun j hkj hj v hv => ?_⟩
        rw [hempty j hkj hj] at hv
        simp at hv
      | none =>
        have hnone := (xallocScan_eq_none.mp hscan).2
        have hbelow : ∀ i, k < i → i ≤ freelistAbove vmp k → ∀ v ∈ vmp.vmFreelist i,
            xallocPlace vmp x (vmp.segs v) = none := by
          intro i hki hi v hv
          rcases hi.lt_or_eq with hlt | rfl
          · rw [hempty i hki hlt] at hv
            simp at hv
          · exact hnone v hv
        have hrest := ih (k := freelistAbove vmp k) (by omega)
        change match xallocSearch vmp x turns (freelistAbove vmp (freelistAbove vmp k)) with
          | none => _
          | some best => _
        generalize xallocSearch vmp x turns (freelistAbove vmp (freelistAbove vmp k)) = r at hrest ⊢
        cases r with
        | none =>
          intro i hki
          by_cases hi : i ≤ freelistAbove vmp k
          · exact hbelow i hki hi
          · exact hrest i (by omega)
        | some best =>
          obtain ⟨i, hi, hscan', hnone'⟩ := hrest
          refine ⟨i, by omega, hscan', fun j hkj hj => ?_⟩
          by_cases hle : j ≤ freelistAbove vmp k
          · exact hbelow j hkj hle
          · exact hnone' j (by omega) hj

theorem xallocFlist_eq (hsize : x.size ≠ 0) :
    ∃ k, xallocFlist vmp x = freelistAbove vmp k ∧ (k = x.size.toNat.log2 ∨
      k = x.size.toNat.log2+1 ∧ x.vmBestfit = false ∧ x.vmFirstfit = false ∧
        freelistAbove vmp k ≠ 0) := by
  rw [xallocFlist]
  split
  · rename_i hpow
    refine ⟨_, ?_, .inl rfl⟩
    rw [freelistAbove, ← eq_one_shiftLeft hsize hpow]
  · dsimp only
    split
    · refine ⟨_, ?_, .inl rfl⟩
      rw [highbit_eq hsize, Nat.add_sub_cancel, freelistAbove]
    · rename_i hlists
      simp only [Bool.or_eq_true, decide_eq_true_iff, beq_iff_eq, not_or,
        Bool.not_eq_true] at hlists
      obtain ⟨⟨⟨hmap, -⟩, hb⟩, hf⟩ := hlists
      refine ⟨_, ?_, .inr ⟨rfl, hb, hf, ?_⟩⟩
      · rw [highbit_eq hsize, freelistAbove]
      · rw [highbit_eq hsize] at hmap
        intro hz
        apply hmap
        rw [freelistAbove, lowbit_p2align_eq_zero_iff] at hz
        apply BitVec.eq_of_getLsbD_eq
        intro i hi
        rw [BitVec.getLsbD_ushiftRight]
        by_cases hlt : x.size.toNat.log2+1+i < 64
        · simp [hz _ hlt (by omega)]
        · simp [BitVec.getLsbD_of_ge vmp.vmFreemap _ (Nat.le_of_not_lt hlt)]

end Libumem.Vmem
