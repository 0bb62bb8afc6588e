import Libumem.Vmem.Invariant

/-!
# Arenas with segment structures in stock

`vmem_populate` leaves `VMEM_MINFREE` segment structures in an arena. With these in stock no
allocation and no new span runs out of them.
-/

namespace Libumem.Vmem
open List Option Arith Lib

/-- What `vmem_populate` sees to. -/
def Stocked (vmp : Arena) : Prop := vmemMinfree ≤ vmp.vmSegfree.length

theorem Stocked.two_le {vmp : Arena} (h : Stocked vmp) : 2 ≤ vmp.vmSegfree.length := by
  rw [Stocked, vmemMinfree] at h
  omega

section
variable {v : SegId}

theorem vmemSegCreate_isSome {vmp : Arena} (h : 1 ≤ vmp.vmSegfree.length) (vprev : SegId)
    (start stop : Word) :
    ∃ x vmp', vmemSegCreate vmp vprev start stop = some (x, vmp') ∧
      vmp.vmSegfree = x :: vmp'.vmSegfree := by
  cases hs : vmp.vmSegfree with
  | nil => simp [hs] at h
  | cons x rest => exact ⟨x, _, vmemSegCreate_eq_some.mpr ⟨rest, hs, rfl⟩, rfl⟩

theorem segRemainder_isSome {vmp : Arena} {n : Nat} (h : n+1 ≤ vmp.vmSegfree.length)
    (vprev : SegId) (start stop : Word) :
    ∃ vmp', segRemainder vmp vprev start stop = some vmp' ∧ n ≤ vmp'.vmSegfree.length := by
  unfold segRemainder
  split
  · obtain ⟨x, vmp', hc, hs⟩ := vmemSegCreate_isSome (Nat.le_of_add_left_le h) vprev start stop
    refine ⟨_, by rw [hc]; rfl, ?_⟩
    rw [hs, length_cons] at h
    simpa using h
  · exact ⟨vmp, rfl, by omega⟩

theorem vmemSegAlloc_isSome {vmp : Arena} (h : 2 ≤ vmp.vmSegfree.length) (addr size : Word) :
    ∃ x vmp', vmemSegAlloc vmp v addr size = some (x, vmp') := by
  unfold vmemSegAlloc
  dsimp only
  split
  · have hstock : 1 ≤ (vmp.setStart v (addr+p2roundup size vmp.vmQuantum)).vmSegfree.length := by
      simp only [setStart_eq, setSeg_frame]
      omega
    obtain ⟨x, vmp', hc, -⟩ := vmemSegCreate_isSome hstock
      ((vmp.setStart v (addr+p2roundup size vmp.vmQuantum)).aPrev v) addr (addr+size)
    exact ⟨_, _, by rw [hc]; rfl⟩
  · have hstock : 1+1 ≤ (vmemFreelistDelete vmp v).vmSegfree.length := by simpa using h
    obtain ⟨vmp₁, hr₁, hl₁⟩ := segRemainder_isSome hstock v (addr+p2roundup size vmp.vmQuantum)
      (vmp.segs v).vsEnd
    obtain ⟨vmp₂, hr₂, -⟩ :=
      segRemainder_isSome (n := 0) hl₁ (vmp₁.aPrev v) (vmp.segs v).vsStart addr
    exact ⟨_, _, by rw [hr₁, bind_eq_bind, bind_some, hr₂]; rfl⟩

theorem vmemSpanCreate_isSome {vmp : Arena} {vaddr size : Word} (h : 2 ≤ vmp.vmSegfree.length)
    (halign : (vaddr ||| (vaddr+size)) &&& (vmp.vmQuantum-1) = 0) (imported : Bool) :
    ∃ x vmp', vmemSpanCreate vmp vaddr size imported = some (x, vmp') := by
  unfold vmemSpanCreate
  dsimp only
  rw [if_neg (not_not.mpr halign)]
  obtain ⟨span, vmp₁, hc₁, hs₁⟩ := vmemSegCreate_isSome (Nat.le_of_succ_le h)
    (vmp.aPrev (spanKnext vmp vaddr imported)) vaddr (vaddr+size)
  rw [hs₁, length_cons] at h
  rw [hc₁, bind_eq_bind, bind_some]
  dsimp only
  generalize hmid : (vmp₁.setType span .span).kInsert
    ((vmp₁.setType span .span).kPrev (spanKnext vmp vaddr imported)) span = vmp₂
  have hstock : 1 ≤ vmp₂.vmSegfree.length := by
    rw [← hmid]
    simp only [kInsert_frame, setType_eq, setSeg_frame]
    omega
  obtain ⟨x, vmp₃, hc₃, -⟩ := vmemSegCreate_isSome hstock span vaddr (vaddr+size)
  exact ⟨_, _, by rw [hc₃]; rfl⟩

end

theorem putseg_all {vmp : Arena} (hw : WellFormed vmp) (stock : List SegId) (hnd : stock.Nodup)
    (hnew : ∀ v ∈ stock, v ∉ seg0 :: (vmp.aList ++ vmp.vmSegfree)) :
    let vmp' := stock.foldl vmemPutseg vmp
    WellFormed vmp' ∧ vmp'.vmSegfree = stock.reverse ++ vmp.vmSegfree ∧
      vmp'.aList = vmp.aList ∧ vmp'.kList = vmp.kList ∧ vmp'.segs = vmp.segs ∧
      vmp'.toArenaConf = vmp.toArenaConf := by
  induction stock generalizing vmp with
  | nil => simpa using hw
  | cons v stock ih =>
    obtain ⟨hv, hnd⟩ := nodup_cons.mp hnd
    have hout := hnew v mem_cons_self
    have hrest : ∀ w ∈ stock, w ∉ seg0 :: ((vmemPutseg vmp v).aList ++
        (vmemPutseg vmp v).vmSegfree) := by
      intro w hw' hm
      have hne : w ≠ v := fun he => hv (he ▸ hw')
      exact hnew w (mem_cons_of_mem _ hw') (by simpa [vmemPutseg, hne] using hm)
    obtain ⟨hw', hstock, ha, hk, hs, hc⟩ := ih (vmemPutseg_wellFormed hw hout) hnd hrest
    refine ⟨hw', ?_, ha, hk, hs, hc⟩
    rw [foldl_cons, hstock, reverse_cons, append_assoc]
    rfl

/-- Every range of whole quanta is the one span of some arena, and wholly free in it. -/
theorem exists_oneSpan {q base : Word} (hq : IsPow2 q) (qcacheMax size : Word) (hbase : base ≠ 0)
    (hsize : size ≠ 0) (hbound : base.toNat+size.toNat ≤ 2^64) (halign : q.toNat ∣ base.toNat)
    (hlen : q.toNat ∣ size.toNat) :
    ∃ vmp v, WellFormed vmp ∧ Stocked vmp ∧
      vmp.toArenaConf = (vmemCreate q none false false qcacheMax).toArenaConf ∧ v ∈ vmp.aList ∧
      vmp.segs v = ⟨base, base+size, .free, false⟩ ∧
      ∀ y ∈ vmp.aList, (vmp.segs y).vsType = .free → y = v := by
  obtain ⟨hw, hstock, ha, hk, hs, hc⟩ := putseg_all
    (vmemCreate_wellFormed hq none false false qcacheMax)
    ((range 10).map (· + 2)) (by decide) (by
      change ∀ v ∈ (range 10).map (· + 2), v ∉ [seg0, vmRotor]
      decide)
  generalize ((range 10).map (· + 2)).foldl vmemPutseg _ = vmp at *
  have hquantum : vmp.vmQuantum = q := by rw [hc]; rfl
  have hguard : (base ||| (base+size)) &&& (vmp.vmQuantum-1) = 0 := by
    rw [or_and_eq_zero_iff, hquantum, and_pred_eq_zero_iff _ hq, and_pred_eq_zero_iff _ hq]
    exact ⟨halign, dvd_toNat_add hq halign hlen⟩
  have hlen : vmp.vmSegfree.length = 10 := by
    rw [hstock]
    rfl
  obtain ⟨x, vmp', hcreate⟩ := vmemSpanCreate_isSome (by omega) hguard false
  have hnew : NewSpan vmp base size := ⟨hbase, hsize, hbound, by rw [hk]; simp [vmemCreate]⟩
  obtain ⟨hw', -, hconf, hx, hseg, -⟩ := vmemSpanCreate_keeps hw hnew hcreate
  obtain ⟨pre, sp, post, hsplit, -, hadd, -⟩ := vmemSpanCreate_added hw.layout hcreate
  refine ⟨vmp', x, hw', ?_, hconf.trans hc, hx, hseg, fun y hy ht => ?_⟩
  · rw [hadd.stock, length_cons, length_cons] at hlen
    rw [Stocked, vmemMinfree]
    omega
  · by_contra hne
    have hysp : y ≠ sp := by
      rintro rfl
      simp [hadd.span] at ht
    have hold : y ∈ vmp.aList := by
      rw [hsplit]
      rw [hadd.aList] at hy
      simpa [hysp, hne] using hy
    rw [hadd.others y hysp hne, hs] at ht
    rw [ha] at hold
    simp only [vmemCreate, mem_singleton] at hold
    subst hold
    simp [vmemCreate] at ht

end Libumem.Vmem
