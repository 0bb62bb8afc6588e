import Libumem.Lib.Buckets
import Libumem.Vmem.Frame

/-!
# The freelists and the hash index the segments

`Indexed vmp pend` says that the freelists hold exactly the free segments of the arena by size,
that `vm_freemap` records which of them are not empty, and that the hash holds exactly the
allocated segments, where the segments in `pend` are off all of these lists. Every operation on
one segment moves it on or off `pend`, and a critical section begins and ends with `pend` empty.
-/

namespace Libumem.Vmem
open Function List Arith Lib

theorem vmemSegCreate_eq_some {vmp vmp' : Arena} {vprev x : SegId} {start stop : Word} :
    vmemSegCreate vmp vprev start stop = some (x, vmp') ↔
      ∃ rest, vmp.vmSegfree = x :: rest ∧ vmp' = { vmp with
        vmSegfree := rest
        vmNsegfree := vmp.vmNsegfree-1
        segs := update vmp.segs x ⟨start, stop, .unset, false⟩
        aList := Ring.insert seg0 vmp.aList vprev x } := by
  unfold vmemSegCreate vmemGetseg
  cases hs : vmp.vmSegfree with
  | nil => simp
  | cons y rest =>
    simp only [Option.bind_eq_bind, Option.bind_some, Option.pure_def, Option.some.injEq,
      Prod.mk.injEq, cons.injEq]
    constructor
    · rintro ⟨rfl, rfl⟩
      exact ⟨rest, ⟨rfl, rfl⟩, rfl⟩
    · rintro ⟨_, ⟨rfl, rfl⟩, rfl⟩
      exact ⟨rfl, rfl⟩

structure Indexed (vmp : Arena) (pend : List SegId) : Prop where
  free : Buckets vmp.vmFreelist
    (fun vsp => vsp ∈ vmp.aList ∧ vsp ∉ pend ∧ (vmp.segs vsp).vsType = .free)
    (fun vsp => highbit (vmp.segs vsp).vsSize)
  free_ne : ∀ vsp ∈ vmp.aList, vsp ∉ pend → (vmp.segs vsp).vsType = .free →
    (vmp.segs vsp).vsStart ≠ 0 ∧ (vmp.segs vsp).vsSize ≠ 0
  freemap : ∀ i < vmemFreelists, vmp.vmFreemap.getLsbD i = !(vmp.vmFreelist (i + 1)).isEmpty
  hash : Buckets vmp.vmHashTable
    (fun vsp => vsp ∈ vmp.aList ∧ vsp ∉ pend ∧ (vmp.segs vsp).vsType = .alloc)
    (fun vsp => vmemHashIndex vmp (vmp.segs vsp).vsStart)

theorem freelistHeadSize_getLsbD {h i : Nat} (hpos : 0 < h) (hi : i<64) :
    (freelistHeadSize h).getLsbD i = decide (i+1 = h) := by
  rw [freelistHeadSize, BitVec.getLsbD_shiftLeft]
  by_cases hlt : i < h-1
  · have : i+1 ≠ h := by omega
    simp [hlt, this]
  · by_cases heq : i+1 = h
    · subst heq
      simp [hi]
    · have hsub : i-(h-1) ≠ 0 := by omega
      simp [hlt, heq, hi, BitVec.getLsbD_one, hsub]

namespace Indexed
variable {vmp vmp' : Arena} {pend pend' : List SegId} {x : SegId}

theorem transfer (h : Indexed vmp pend)
    (hfl : vmp'.vmFreelist = vmp.vmFreelist) (hfm : vmp'.vmFreemap = vmp.vmFreemap)
    (hht : vmp'.vmHashTable = vmp.vmHashTable) (hc : vmp'.toArenaConf = vmp.toArenaConf)
    (hs : vmp'.toHashShape = vmp.toHashShape)
    (hiff : ∀ y t, t = .free ∨ t = .alloc →
      (y ∈ vmp'.aList ∧ y ∉ pend' ∧ (vmp'.segs y).vsType = t ↔
        y ∈ vmp.aList ∧ y ∉ pend ∧ (vmp.segs y).vsType = t))
    (hseg : ∀ y ∈ vmp.aList, y ∉ pend → (vmp.segs y).vsType = .free ∨
      (vmp.segs y).vsType = .alloc → vmp'.segs y = vmp.segs y) : Indexed vmp' pend' where
  free := by
    rw [hfl]
    refine h.free.congr (fun y => hiff y _ (.inl rfl)) fun y hy => ?_
    rw [hseg y hy.1 hy.2.1 (.inl hy.2.2)]
  free_ne := fun y hm hp ht => by
    obtain ⟨hm', hp', ht'⟩ := (hiff y _ (.inl rfl)).mp ⟨hm, hp, ht⟩
    rw [hseg y hm' hp' (.inl ht')]
    exact h.free_ne y hm' hp' ht'
  freemap := by
    rw [hfl, hfm]
    exact h.freemap
  hash := by
    rw [hht]
    refine h.hash.congr (fun y => hiff y _ (.inr rfl)) fun y hy => ?_
    rw [hseg y hy.1 hy.2.1 (.inr hy.2.2), vmemHashIndex_congr hc hs]

section
variable {i : Nat} (h : Indexed vmp pend) (hm : x ∈ vmp.vmFreelist i)
include h hm

theorem mem_freelist :
    x ∈ vmp.aList ∧ x ∉ pend ∧ (vmp.segs x).vsType = .free ∧
      highbit (vmp.segs x).vsSize = i ∧ 0 < i ∧ i ≤ vmemFreelists := by
  obtain ⟨⟨hx, hp, ht⟩, hi⟩ := (h.free.mem i x).mp hm
  refine ⟨hx, hp, ht, hi, ?_⟩
  rw [← hi]
  exact ⟨highbit_pos (h.free_ne x hx hp ht).2, highbit_le _⟩

theorem freelistOf_eq : freelistOf vmp x = some i := by
  obtain ⟨-, -, -, hi, -, hle⟩ := h.mem_freelist hm
  rw [freelistOf, find?_range_eq_some]
  refine ⟨by simpa using hm, ?_, fun j hj => ?_⟩
  · simp only [mem_range]
    omega
  · have hmj : x ∉ vmp.vmFreelist j := fun hmj => by
      have := ((h.free.mem j x).mp hmj).2
      omega
    simp [hmj]

theorem vmemFreelistDelete_eq :
    (vmemFreelistDelete vmp x).vmFreelist =
        update vmp.vmFreelist i ((vmp.vmFreelist i).erase x) ∧
      (vmemFreelistDelete vmp x).vmFreemap =
        if vmp.vmFreelist i = [x] then vmp.vmFreemap ^^^ freelistHeadSize i
        else vmp.vmFreemap := by
  have hne : ∀ y ∈ vmp.vmFreelist i, startsAtZero vmp (some y) = false := fun y hy => by
    obtain ⟨hy, hp, ht, -⟩ := h.mem_freelist hy
    simpa [startsAtZero] using (h.free_ne y hy hp ht).1
  obtain ⟨pre, post, hsplit⟩ := append_of_mem hm
  have hx : x ∉ pre := by
    have := h.free.nodup i
    rw [hsplit] at this
    grind
  have hnext : freelistNext vmp i x = post.head? := by
    rw [freelistNext, hsplit, Ring.succ?_split hx]
  rw [vmemFreelistDelete, h.freelistOf_eq hm]
  refine ⟨rfl, ?_⟩
  rcases pre with _ | ⟨first, pre⟩
  · have hprev : freelistPrev vmp i x = none := by
      simp [freelistPrev, hsplit]
    rcases post with _ | ⟨last, post⟩
    · simp [hnext, hprev, hsplit, startsAtZero]
    · have hl := hne last (by simp [hsplit])
      simp [hnext, hprev, hsplit, hl]
  · have hfx : first ≠ x := fun he => hx (by simp [he])
    have hpx : x ∉ pre := fun he => hx (by simp [he])
    have hprev : freelistPrev vmp i x = some (pre.getLastD first) := by
      simp [freelistPrev, hsplit, hfx, Ring.predFrom?_split hpx]
    have hl := hne (pre.getLastD first) (by
      rw [hsplit]
      exact mem_append_left _ getLastD_mem_cons)
    simp only [hprev, hl, Bool.and_false, Bool.false_eq_true, if_false]
    rw [if_neg]
    simp [hsplit]

end

theorem freelistDelete (h : Indexed vmp pend) (hx : x ∈ vmp.aList) (hp : x ∉ pend)
    (ht : (vmp.segs x).vsType = .free) : Indexed (vmemFreelistDelete vmp x) (x :: pend) := by
  have hm := (h.free.mem (highbit (vmp.segs x).vsSize) x).mpr ⟨⟨hx, hp, ht⟩, rfl⟩
  obtain ⟨-, -, -, -, hpos, hle⟩ := h.mem_freelist hm
  obtain ⟨hfl, hfm⟩ := h.vmemFreelistDelete_eq hm
  refine ⟨?_, ?_, fun j hj => ?_, ?_⟩
  · rw [hfl]
    simp only [vmemFreelistDelete_frame]
    exact h.free.erase ⟨hx, hp, ht⟩ fun y => by
      simp only [mem_cons, not_or]
      tauto
  · simp only [vmemFreelistDelete_frame, mem_cons, not_or]
    exact fun y hy hp ht => h.free_ne y hy hp.2 ht
  · rw [hfl, hfm]
    have hold := h.freemap j hj
    generalize highbit (vmp.segs x).vsSize = i at *
    have hbit := freelistHeadSize_getLsbD hpos hj
    by_cases hji : j+1 = i
    · subst hji
      rw [update_self]
      have hne : vmp.vmFreelist (j+1) ≠ [] := fun hnil => by simp [hnil] at hm
      by_cases hsing : vmp.vmFreelist (j+1) = [x]
      · simp [hsing, hold, hbit]
      · have : (vmp.vmFreelist (j+1)).erase x ≠ [] := by
          rw [ne_eq, erase_eq_nil_iff]
          exact fun h => h.elim hne hsing
        rw [if_neg hsing, hold, isEmpty_eq_false_iff.mpr hne, isEmpty_eq_false_iff.mpr this]
    · rw [update_of_ne hji]
      split <;> simp [hold, hbit, hji]
  · simp only [vmemFreelistDelete_frame]
    refine h.hash.congr (fun y => ?_) fun y _ => vmemHashIndex_congr (by simp) (by simp) _
    simp only [mem_cons, not_or]
    have : y = x → (vmp.segs y).vsType ≠ .alloc := by
      rintro rfl
      simp [ht]
    tauto

/-- Putting a segment on the freelist of its size. -/
theorem freelistInsert (h : Indexed vmp (x :: pend)) (hx : x ∈ vmp.aList) (hp : x ∉ pend)
    (hstart : (vmp.segs x).vsStart ≠ 0) (hsize : (vmp.segs x).vsSize ≠ 0) :
    Indexed (vmemFreelistInsert vmp x) pend := by
  have hother : ∀ y, y ≠ x →
      (vmemFreelistInsert vmp x).segs y = vmp.segs y := fun y hy => by simp [hy]
  have hself : (vmemFreelistInsert vmp x).segs x = { vmp.segs x with vsType := .free } := by simp
  have hkey : highbit ((vmemFreelistInsert vmp x).segs x).vsSize = highbit (vmp.segs x).vsSize := by
    rw [hself]
    rfl
  refine ⟨?_, fun y hy hp' ht => ?_, fun j hj => ?_, ?_⟩
  · change Buckets (update vmp.vmFreelist (highbit (vmp.segs x).vsSize) (x ::
      vmp.vmFreelist (highbit (vmp.segs x).vsSize))) _ _
    rw [← hkey]
    refine h.free.insert (x := x) (fun y => highbit ((vmemFreelistInsert vmp x).segs y).vsSize)
      (by simp)
      (fun y => ?_) fun y hy => ?_
    · simp only [vmemFreelistInsert_frame, mem_cons, not_or]
      by_cases hyx : y = x
      · subst hyx
        simp [hx, hp]
      · simp [hyx]
    · rw [hother y fun he => hy.2.1 (by simp [he])]
  · by_cases hyx : y = x
    · subst hyx
      rw [hself]
      exact ⟨hstart, hsize⟩
    · rw [hother y hyx] at ht ⊢
      exact h.free_ne y (by simpa using hy) (by simp [hyx, hp']) ht
  · change (vmp.vmFreemap ||| freelistHeadSize (highbit (vmp.segs x).vsSize)).getLsbD j =
      !(update vmp.vmFreelist (highbit (vmp.segs x).vsSize)
        (x :: vmp.vmFreelist (highbit (vmp.segs x).vsSize)) (j+1)).isEmpty
    have hbit := freelistHeadSize_getLsbD (highbit_pos hsize) hj
    rw [BitVec.getLsbD_or, h.freemap j hj, hbit]
    by_cases hji : j+1 = highbit (vmp.segs x).vsSize
    · simp [hji]
    · simp [hji]
  · simp only [vmemFreelistInsert_frame]
    refine h.hash.congr (fun y => ?_) fun y hy => ?_
    · by_cases hyx : y = x
      · subst hyx
        simp
      · simp [hyx]
    · rw [update_of_ne fun he => hy.2.1 (by simp [he])]
      exact vmemHashIndex_congr (by simp) (by simp) _

theorem hashInsert (h : Indexed vmp (x :: pend)) (hx : x ∈ vmp.aList) (hp : x ∉ pend) :
    Indexed (vmemHashInsert vmp x) pend := by
  have hother : ∀ y, y ≠ x → (vmemHashInsert vmp x).segs y = vmp.segs y := fun y hy => by simp [hy]
  have hself : (vmemHashInsert vmp x).segs x = { vmp.segs x with vsType := .alloc } := by simp
  have hkey : vmemHashIndex (vmemHashInsert vmp x) ((vmemHashInsert vmp x).segs x).vsStart =
      vmemHashIndex vmp (vmp.segs x).vsStart := by
    rw [hself]
    exact vmemHashIndex_congr (by simp) (by simp) _
  have htab : (vmemHashInsert vmp x).vmHashTable =
      update vmp.vmHashTable (vmemHashIndex vmp (vmp.segs x).vsStart)
        (x :: vmp.vmHashTable (vmemHashIndex vmp (vmp.segs x).vsStart)) := by
    simp [vmemHashInsert, Arena.setSeg, vmemHashIndex]
  refine ⟨?_, fun y hy hp' ht => ?_, ?_, ?_⟩
  · simp only [vmemHashInsert_frame]
    refine h.free.congr (fun y => ?_) fun y hy => ?_
    · by_cases hyx : y = x
      · subst hyx
        simp
      · simp [hyx]
    · rw [update_of_ne fun he => hy.2.1 (by simp [he])]
  · by_cases hyx : y = x
    · subst hyx
      simp at ht
    · rw [hother y hyx] at ht ⊢
      exact h.free_ne y (by simpa using hy) (by simp [hyx, hp']) ht
  · simpa using h.freemap
  · rw [htab, ← hkey]
    refine h.hash.insert (x := x)
      (fun y => vmemHashIndex (vmemHashInsert vmp x) ((vmemHashInsert vmp x).segs y).vsStart)
      (by simp) (fun y => ?_) fun y hy => ?_
    · simp only [vmemHashInsert_frame, mem_cons, not_or]
      by_cases hyx : y = x
      · subst hyx
        simp [hx, hp]
      · simp [hyx]
    · rw [hother y fun he => hy.2.1 (by simp [he])]
      exact vmemHashIndex_congr (by simp) (by simp) _

theorem hashDelete (h : Indexed vmp pend) {addr size : Word}
    (hd : vmemHashDelete vmp addr size = some (x, vmp')) :
    x ∈ vmp.aList ∧ x ∉ pend ∧ (vmp.segs x).vsType = .alloc ∧ (vmp.segs x).vsStart = addr ∧
      (vmp.segs x).vsSize = size ∧ Indexed vmp' (x :: pend) ∧
      ∃ table, vmp' = { vmp with
        vmHashTable := table
        vkFree := vmp.vkFree+1
        vkMemInuse := vmp.vkMemInuse-size } := by
  unfold vmemHashDelete at hd
  dsimp only at hd
  split at hd
  · simp at hd
  · rename_i y hfind
    obtain ⟨hsz, hd⟩ := Option.ite_none_left_eq_some.mp hd
    simp only [Option.some.injEq, Prod.mk.injEq] at hd
    obtain ⟨rfl, rfl⟩ := hd
    have hmem := mem_of_find?_eq_some hfind
    have hstart : (vmp.segs y).vsStart = addr := by simpa using find?_some hfind
    obtain ⟨⟨hx, hp, ht⟩, hidx⟩ := (h.hash.mem _ y).mp hmem
    refine ⟨hx, hp, ht, hstart, by simpa [Arena.vsSize] using hsz, ⟨?_, ?_, h.freemap, ?_⟩, _, rfl⟩
    · refine h.free.congr (fun z => ?_) fun z _ => rfl
      have : z = y → (vmp.segs z).vsType ≠ .free := by
        rintro rfl
        simp [ht]
      simp only [mem_cons, not_or]
      tauto
    · simp only [mem_cons, not_or]
      exact fun z hz hp ht => h.free_ne z hz hp.2 ht
    · rw [← hidx]
      refine h.hash.erase ⟨hx, hp, ht⟩ fun z => ?_
      simp only [mem_cons, not_or]
      tauto

theorem setPending (h : Indexed vmp pend) (hx : x ∈ pend) (seg : Seg) :
    Indexed (vmp.setSeg x seg) pend := by
  refine h.transfer rfl rfl rfl rfl rfl (fun y t _ => ?_) fun y _ hp _ => ?_
  · by_cases hyx : y = x
    · subst hyx
      simp [hx]
    · simp [hyx]
  · have hyx : y ≠ x := by
      rintro rfl
      exact hp hx
    simp [hyx]

theorem setFree (h : Indexed vmp pend) {seg : Seg} (hold : (vmp.segs x).vsType = .free)
    (hnew : seg.vsType = .free) (hstart : seg.vsStart ≠ 0) (hsize : seg.vsSize ≠ 0)
    (hkey : highbit seg.vsSize = highbit (vmp.segs x).vsSize) :
    Indexed (vmp.setSeg x seg) pend := by
  refine ⟨?_, fun y hy hp ht => ?_, by simpa using h.freemap, ?_⟩ <;>
    simp only [setSeg_frame] at *
  · refine h.free.congr (fun y => ?_) fun y _ => ?_ <;>
    · by_cases hyx : y = x
      · subst hyx
        simp [hold, hnew, hkey]
      · simp [hyx]
  · by_cases hyx : y = x
    · subst hyx
      simpa using ⟨hstart, hsize⟩
    · rw [update_of_ne hyx] at ht ⊢
      exact h.free_ne y hy hp ht
  · refine h.hash.congr (fun y => ?_) fun y hy => ?_
    · by_cases hyx : y = x
      · subst hyx
        simp [hold, hnew]
      · simp [hyx]
    · have hyx : y ≠ x := by
        rintro rfl
        simp [hold] at hy
      rw [update_of_ne hyx]
      exact vmemHashIndex_congr (by simp) (by simp) _

theorem pendCongr (h : Indexed vmp pend) (hp : ∀ y, y ∈ pend' ↔ y ∈ pend) : Indexed vmp pend' :=
  h.transfer rfl rfl rfl rfl rfl (fun y t _ => by rw [hp y]) fun _ _ _ _ => rfl

theorem dropPending (h : Indexed vmp (x :: pend))
    (hx : x ∈ vmp.aList → (vmp.segs x).vsType ≠ .free ∧ (vmp.segs x).vsType ≠ .alloc) :
    Indexed vmp pend := by
  refine h.transfer rfl rfl rfl rfl rfl (fun y t ht => ?_) fun _ _ _ _ => rfl
  by_cases hyx : y = x
  · subst hyx
    rcases ht with rfl | rfl
    · simpa using fun hm _ => (hx hm).1
    · simpa using fun hm _ => (hx hm).2
  · simp [hyx]

theorem addPending (h : Indexed vmp pend)
    (hx : x ∈ vmp.aList → (vmp.segs x).vsType ≠ .free ∧ (vmp.segs x).vsType ≠ .alloc) :
    Indexed vmp (x :: pend) := by
  refine h.transfer rfl rfl rfl rfl rfl (fun y t ht => ?_) fun _ _ _ _ => rfl
  by_cases hyx : y = x
  · subst hyx
    rcases ht with rfl | rfl
    · simpa using fun hm _ => (hx hm).1
    · simpa using fun hm _ => (hx hm).2
  · simp [hyx]

theorem relink (h : Indexed vmp pend) {l : List SegId}
    (hl : ∀ y, y ∉ pend → (y ∈ l ↔ y ∈ vmp.aList)) : Indexed { vmp with aList := l } pend := by
  refine h.transfer rfl rfl rfl rfl rfl (fun y t _ => ?_) fun _ _ _ _ => rfl
  have := hl y
  tauto

theorem ofSame (h : Indexed vmp pend) (hfl : vmp'.vmFreelist = vmp.vmFreelist)
    (hfm : vmp'.vmFreemap = vmp.vmFreemap) (hht : vmp'.vmHashTable = vmp.vmHashTable)
    (hc : vmp'.toArenaConf = vmp.toArenaConf) (hs : vmp'.toHashShape = vmp.toHashShape)
    (ha : vmp'.aList = vmp.aList) (hg : vmp'.segs = vmp.segs) : Indexed vmp' pend :=
  h.transfer hfl hfm hht hc hs (fun y t _ => by rw [ha, hg]) fun y _ _ _ => by rw [hg]

theorem segDestroy (h : Indexed vmp pend) (hx : x ∈ pend) :
    Indexed (vmemSegDestroy vmp x) pend := by
  refine h.transfer rfl rfl rfl rfl rfl (fun y t _ => ?_) fun _ _ _ _ => rfl
  by_cases hyx : y = x
  · subst hyx
    simp [hx]
  · simp [mem_erase_of_ne hyx]

theorem absorb (h : Indexed vmp (x :: pend)) {a : SegId} (ha : a ∈ x :: pend)
    (hnd : vmp.aList.Nodup) (stop : Word) : Indexed (vmemSegDestroy (vmp.setEnd a stop) x) pend :=
  ((h.setPending ha { vmp.segs a with vsEnd := stop }).segDestroy
    mem_cons_self).dropPending fun hm => absurd hm (by simpa using hnd.not_mem_erase)

theorem segCreate (h : Indexed vmp pend) {vprev : SegId} {start stop : Word}
    (hc : vmemSegCreate vmp vprev start stop = some (x, vmp')) (hprev : vprev ∈ seg0 :: vmp.aList)
    (hx : x ∉ vmp.aList) : Indexed vmp' (x :: pend) := by
  obtain ⟨rest, -, rfl⟩ := vmemSegCreate_eq_some.mp hc
  refine h.transfer rfl rfl rfl rfl rfl (fun y t _ => ?_) fun y hy _ _ => ?_
  · by_cases hyx : y = x
    · subst hyx
      simp [hx]
    · simp [hyx, Ring.mem_insert hprev]
  · have hyx : y ≠ x := by
      rintro rfl
      exact hx hy
    simp [hyx]

end Indexed
end Libumem.Vmem
