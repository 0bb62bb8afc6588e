import Libumem.Vmem.Effect
import Libumem.Vmem.Import
import Libumem.Vmem.Run

/-!
# The critical sections keep an arena well formed

Each section of `vmem_add`, `_vmem_extend_alloc`, `vmem_alloc`, `vmem_xalloc` and
`vmem_nextfit_alloc` is taken apart once, into the few things that can happen to an arena. What a
section does is then read off from these.
-/

namespace Libumem.Vmem
open List Option Arith Lib Pow2
variable {vmp vmp' : Arena} {x v : SegId} {addr size : Word}

theorem WellFormed.ofStat (hw : WellFormed vmp) (stat : VmemKstat) :
    WellFormed { vmp with toVmemKstat := stat } :=
  ⟨hw.layout.ofSame rfl rfl rfl rfl rfl, hw.indexed.ofSame rfl rfl rfl rfl rfl rfl rfl, hw.rotor⟩

theorem WellFormed.ofCount (hw : WellFormed vmp) (count : Int) :
    WellFormed { vmp with vmNsegfree := count } :=
  ⟨hw.layout.ofSame rfl rfl rfl rfl rfl, hw.indexed.ofSame rfl rfl rfl rfl rfl rfl rfl, hw.rotor⟩

theorem Keeps.ofSame (ha : vmp'.aList = vmp.aList) (hs : vmp'.segs = vmp.segs) : Keeps vmp vmp' :=
  ⟨fun y => by rw [Arena.Fixed, ha, hs, Arena.Fixed], fun y _ => by rw [hs]⟩

/-- What `vmem_extend_unlocked` does: the range is added to a span next to it, or becomes a span of
its own, and is now part of the free segment `w`. -/
structure Extended (vmp vmp' : Arena) (w : SegId) (addr size : Word) : Prop where
  wellFormed : WellFormed vmp'
  keeps : Keeps vmp vmp'
  conf : vmp'.toArenaConf = vmp.toArenaConf
  mem : w ∈ vmp'.aList
  free : (vmp'.segs w).vsType = .free
  range : (vmp'.segs w).lo ≤ addr.toNat ∧ addr.toNat + size.toNat ≤ (vmp'.segs w).hi
  spans : SpansGrow (vmp.vmSource = none) addr size (vmp.kList.map vmp.segs)
    (vmp'.kList.map vmp'.segs)
  marks : ∀ y ∈ vmp'.aList, (vmp'.segs y).vsImport = true →
    y ∈ vmp.aList ∧ (vmp.segs y).vsImport = true
  kstat : vmp'.toVmemKstat = vmp.toVmemKstat.spanAdded size false

theorem Extended.room (h : Extended vmp vmp' x addr size) : size.toNat ≤ (vmp'.segs x).len := by
  have hrange := h.range
  rw [Seg.hi] at hrange
  omega

theorem vmemSpanCreate_extended (hw : WellFormed vmp) (hnew : NewSpan vmp addr size)
    (hnone : vmp.vmSource = none → ∀ sp ∈ vmp.kList, (vmp.segs sp).vsEnd ≠ addr ∧
      (vmp.segs sp).vsStart ≠ addr+size)
    (h : vmemSpanCreate vmp addr size false = some (x, vmp')) : Extended vmp vmp' x addr size := by
  obtain ⟨hw', hk, hconf, hx, hseg, -⟩ := vmemSpanCreate_keeps hw hnew h
  obtain ⟨pre, sp, post, ha, -, hadd, -⟩ := vmemSpanCreate_added hw.layout h
  obtain ⟨hmap, hmap'⟩ := hadd.map_kList hw.layout ha
  refine ⟨hw', hk, hconf, hx, by rw [hseg], ?_, ?_, fun y hy hm => ?_, hadd.kstat⟩
  · rw [hseg, Seg.hi, Seg.len, vsSize_range]
    exact ⟨le_rfl, le_rfl⟩
  · rw [hmap, hmap']
    refine .new (fun hs => ?_) fun hs => hadd.spanPlace hw.layout hs ha
    rw [← hmap]
    simpa using hnone hs
  · have hne : y ≠ sp ∧ y ≠ x := by
      constructor <;> rintro rfl
      · simp [hadd.span] at hm
      · simp [hseg] at hm
    have hmem : y ∈ vmp.aList := by
      rw [hadd.aList] at hy
      simpa [hne.1, hne.2, ha] using hy
    rw [hadd.segs_of_mem hw.layout hmem] at hm
    exact ⟨hmem, hm⟩

theorem find?_reverse_last {addr stop : Word} {kpre kpost : List SegId} {sp : SegId}
    (hnd : vmp.kList.Nodup) (hk : vmp.kList = kpre ++ sp :: kpost)
    (h : vmp.kList.reverse.find? (fun span =>
      (vmp.segs span).vsEnd == addr || (vmp.segs span).vsStart == stop) = some sp) :
    ∀ b ∈ kpost, (vmp.segs b).vsEnd ≠ addr ∧ (vmp.segs b).vsStart ≠ stop := by
  intro b hb
  rw [hk] at hnd h
  rw [reverse_append, reverse_cons, append_assoc, find?_append] at h
  cases hrest : kpost.reverse.find? (fun span =>
      (vmp.segs span).vsEnd == addr || (vmp.segs span).vsStart == stop) with
  | none => simpa using find?_eq_none.mp hrest b (by simp [hb])
  | some c =>
    have hc : c ∈ kpost := mem_reverse.mp (mem_of_find?_eq_some hrest)
    rw [hrest, some_or, some.injEq] at h
    subst h
    simp only [nodup_append, nodup_cons] at hnd
    exact absurd hc hnd.2.1.1

theorem vmemExtendUnlocked_extended (hw : WellFormed vmp) (hnew : NewRange vmp addr size)
    (h : vmemExtendUnlocked vmp addr (addr+size) = some (x, vmp')) :
    Extended vmp vmp' x addr size := by
  have hdiff : addr+size-addr = size := add_sub_cancel_left addr size
  unfold vmemExtendUnlocked at h
  dsimp only at h
  split at h
  · rename_i hfind
    rw [hdiff] at h
    refine vmemSpanCreate_extended hw hnew.toNewSpan (fun _ => ?_) h
    simpa using hfind
  · rename_i span hfind
    have hsp : span ∈ vmp.kList := mem_reverse.mp (mem_of_find?_eq_some hfind)
    have hmeet := find?_some hfind
    simp only [Bool.or_eq_true, beq_iff_eq] at hmeet
    obtain ⟨⟨w, vmp₁⟩, hsome, h⟩ := bind_eq_some_iff.mp h
    cases h
    have hg : Grown vmp (vmemFreelistInsert vmp₁ w) w addr size := by
      unfold extendSpan at hsome
      split at hsome
      · rename_i hboth
        exact extendJoin_grown hw.layout hw.indexed hnew hsp hboth.1 hboth.2
          (some.inj hsome)
      · rename_i hboth
        split at hsome
        · rename_i hend
          exact extendEnd_grown hw.layout hw.indexed hnew hsp hend
            (fun kpre kpost hk b hb => (find?_reverse_last hw.layout.nodup_kList hk hfind b hb).2) hsome
        · rename_i hend
          have hstart := hmeet.resolve_left hend
          exact extendStart_grown hw.layout hw.indexed hnew hsp hstart
            (fun he => hboth ⟨he, hstart⟩) hsome
    have hw' : WellFormed (vmemFreelistInsert vmp₁ w) :=
      ⟨hg.layout, hg.indexed, rotor_of_keeps hw hg.keeps⟩
    refine ⟨hw'.ofStat _, ⟨hg.keeps.fixed, hg.keeps.segs⟩, hg.conf, hg.mem, hg.free, hg.range,
      hg.spans, hg.marks, ?_⟩
    rw [hdiff, hg.kstat]
    rfl

theorem fits_start (hw : WellFormed vmp) (hv : v ∈ vmp.aList) (ht : (vmp.segs v).vsType = .free)
    (hsize : size ≠ 0) (hle : size.toNat ≤ (vmp.segs v).len) :
    Fits vmp.vmQuantum (vmp.segs v) (vmp.segs v).vsStart size := by
  obtain ⟨pre, post, ha⟩ := append_of_mem hv
  obtain ⟨s, t, -, hs, -⟩ := hw.layout.scan_at ha
  obtain ⟨hold, -⟩ := (Scan.step_free ht).mp hs
  refine ⟨le_refl _, ?_, by bv_omega, Nat.add_le_add_left hle _⟩
  rw [← Seg.lo, hold.start]
  exact hold.aligned

theorem extendAllocSpan_extended (hw : WellFormed vmp) (hnew : NewRange vmp addr size)
    (h : extendAllocSpan vmp addr size = some (x, vmp')) : Extended vmp vmp' x addr size := by
  unfold extendAllocSpan at h
  split at h
  · rename_i hs
    exact vmemSpanCreate_extended hw hnew.toNewSpan (fun hn => by simp [hn] at hs) h
  · exact vmemExtendUnlocked_extended hw hnew h

/-- What the caller of `_vmem_extend_alloc` promises. -/
structure ExtendArgs (vmp : Arena) (vaddr size alloc : Word) : Prop
    extends NewRange vmp vaddr size where
  alloc_ne : alloc ≠ 0
  alloc_le : alloc ≤ size

section
variable {pre post : List SegId}

/-- Moving the rotor behind an allocated segment that follows it joins nothing. -/
theorem vmemAdvance_past_alloc (hnd : (seg0 :: vmp.aList).Nodup)
    (hanchor : (vmp.segs seg0).vsType ≠ .free) (ha : vmp.aList = pre ++ vmRotor :: x :: post)
    (hx : (vmp.segs x).vsType = .alloc) :
    vmemAdvance vmp vmRotor (some x) =
      ({ vmp with aList := pre ++ x :: vmRotor :: post }, none) := by
  rw [ha] at hnd
  have hprev : vmp.aPrev vmRotor = pre.getLastD seg0 := by
    rw [Arena.aPrev, ha, Ring.prev_split hnd]
  have hnext : vmp.aNext vmRotor = x := by
    rw [Arena.aNext, ha, Ring.next_split hnd, headD_cons]
  have hnd' : (seg0 :: ((pre ++ [x]) ++ post)).Nodup := hnd.sublist (by simp)
  have hlink : advanceLink vmp vmRotor (some x) =
      { vmp with aList := pre ++ x :: vmRotor :: post } := by
    have hlist : Ring.insert seg0 (vmp.aList.erase vmRotor) x vmRotor =
        pre ++ x :: vmRotor :: post := by
      have hins := Ring.insert_getLastD (x := vmRotor) hnd'
      rw [getLastD_concat] at hins
      rw [ha, Ring.erase_split hnd]
      simpa using hins
    rw [← hlist]
    rfl
  have hjoin : advanceJoin { vmp with aList := pre ++ x :: vmRotor :: post } (pre.getLastD seg0) x =
      { vmp with aList := pre ++ x :: vmRotor :: post } := by
    simp [advanceJoin, hx]
  unfold vmemAdvance
  dsimp only
  rw [hprev, hnext, hlink, hjoin]
  by_cases hfree : (vmp.segs (pre.getLastD seg0)).vsType = .free
  · -- the segment in front of the rotor is followed by an allocated one
    rcases eq_nil_or_concat pre with rfl | ⟨front, p, rfl⟩
    · exact absurd hfree hanchor
    rw [concat_eq_append] at *
    rw [getLastD_concat] at hfree ⊢
    have hafter : Ring.next seg0 (front ++ p :: x :: vmRotor :: post) p = x := by
      have hnd'' : (seg0 :: (front ++ p :: x :: vmRotor :: post)).Nodup := by
        refine Perm.nodup_iff ?_ |>.mp hnd
        rw [append_assoc]
        exact ((Perm.swap x vmRotor post).cons p |>.append_left front).cons seg0
      rw [Ring.next_split hnd'', headD_cons]
    have hwhole : isWholeImport { vmp with aList := (front ++ [p]) ++ x :: vmRotor :: post } p =
        false := by
      rw [append_assoc, singleton_append, isWholeImport, Arena.aNext, hafter]
      simp [hx]
    rw [if_pos hfree]
    dsimp only
    rw [hwhole]
    rfl
  · rw [if_neg hfree, if_neg (by simp [hx])]

/-- "Instead of moving the rotor, we create the new segment structure behind the rotor." The result
is the same as that of a search that stops at the segment behind the rotor. -/
theorem vmemNextfitAlloc_fast (hw : WellFormed vmp) (ha : vmp.aList = pre ++ vmRotor :: v :: post)
    (ht : (vmp.segs v).vsType = .free) (hlt : p2roundup size vmp.vmQuantum < vmp.vsSize v)
    (hsame : p2samehighbit (vmp.vsSize v) (vmp.vsSize v-p2roundup size vmp.vmQuantum) = true)
    (nosleep : Bool) : vmemNextfitAlloc vmp size nosleep = nextfitTake vmp v size := by
  have hnd := hw.layout.nodup_aList
  rw [ha] at hnd
  have hnext : vmp.aNext vmRotor = v := by
    rw [Arena.aNext, ha, Ring.next_split hnd, headD_cons]
  have hvprev : (vmp.setStart v ((vmp.segs v).vsStart+p2roundup size vmp.vmQuantum)).aPrev v =
      vmRotor := by
    have hnd' : (seg0 :: ((pre ++ [vmRotor]) ++ v :: post)).Nodup := by simpa using hnd
    have hp := Ring.prev_split hnd'
    rw [getLastD_concat] at hp
    change Ring.prev seg0 vmp.aList v = _
    rw [ha]
    simpa using hp
  have hrprev : (vmp.setStart v ((vmp.segs v).vsStart+p2roundup size vmp.vmQuantum)).aPrev
      vmRotor = pre.getLastD seg0 := by
    change Ring.prev seg0 vmp.aList vmRotor = _
    rw [ha, Ring.prev_split hnd]
  have hguard : (p2samehighbit ((vmp.segs v).vsEnd-(vmp.segs v).vsStart)
      ((vmp.segs v).vsEnd-(vmp.segs v).vsStart-p2roundup size vmp.vmQuantum) &&
        (vmp.segs v).vsStart == (vmp.segs v).vsStart) = true := by
    rw [Bool.and_eq_true]
    exact ⟨hsame, beq_self_eq_true _⟩
  unfold vmemNextfitAlloc nextfitTake vmemSegAlloc
  dsimp only
  rw [hnext, if_pos ⟨ht, hlt, hsame⟩, if_pos hguard, hvprev, hrprev]
  cases hs : vmp.vmSegfree with
  | nil => simp [vmemSegCreate, vmemGetseg, hs]
  | cons x rest =>
    have hcreate : ∀ vprev, vmemSegCreate (vmp.setStart v ((vmp.segs v).vsStart +
        p2roundup size vmp.vmQuantum)) vprev (vmp.segs v).vsStart ((vmp.segs v).vsStart+size) = _ :=
      fun vprev => vmemSegCreate_eq_some.mpr ⟨rest, hs, rfl⟩
    rw [hcreate, hcreate]
    simp only [Option.bind_eq_bind, Option.bind_some, Option.pure_def]
    have hx := hw.layout.not_mem_of_segfree hs
    have hlist : Ring.insert seg0 vmp.aList vmRotor x = pre ++ vmRotor :: x :: v :: post := by
      have hnd' : (seg0 :: ((pre ++ [vmRotor]) ++ v :: post)).Nodup := by simpa using hnd
      have hins := Ring.insert_getLastD (x := x) hnd'
      rw [getLastD_concat] at hins
      rw [ha]
      simpa using hins
    have hlist' : Ring.insert seg0 vmp.aList (pre.getLastD seg0) x =
        pre ++ x :: vmRotor :: v :: post := by
      rw [ha, Ring.insert_getLastD hnd]
    have hfresh : (seg0 :: (pre ++ vmRotor :: x :: v :: post)).Nodup := by
      rw [ha] at hx
      simp only [mem_append, mem_cons, not_or, nodup_cons, nodup_append] at hx hnd ⊢
      grind
    have hv0 : v ≠ seg0 := by
      rintro rfl
      simp at hnd
    rw [@vmemAdvance_past_alloc _ x pre (v :: post)]
    · simp only [← hlist']
      rfl
    · simpa [hlist] using hfresh
    · simp [hx.2.symm, hv0.symm, hw.layout.anchor]
    · simp [hlist]
    · simp

end

/-- What the critical sections of the allocation functions do to an arena, with the blocks that are
allocated, imported and handed back on the way. -/
inductive Acts : Arena → Arena → List Block → List Block → List Block → Prop
  /-- Segment structures are set aside, or nothing happens. -/
  | count (vmp : Arena) (count : Int) : Acts vmp { vmp with vmNsegfree := count } [] [] []
  | alloc {vmp vmp' : Arena} {v x : SegId} {addr size : Word} (hv : v ∈ vmp.aList)
      (ht : (vmp.segs v).vsType = .free) (fits : Fits vmp.vmQuantum (vmp.segs v) addr size)
      (h : vmemSegAlloc vmp v addr size = some (x, vmp')) : Acts vmp vmp' [⟨addr, size⟩] [] []
  | advance {vmp : Arena} {walker after : SegId} (hmem : walker ∈ vmp.aList)
      (hm : vmp.isMarker walker = true) (hplace : vmp.Place walker (some after)) :
      Acts vmp (vmemAdvance vmp walker (some after)).1 [] []
        (vmemAdvance vmp walker (some after)).2.toList
  | span {vmp vmp' : Arena} {vaddr size : Word} {x : SegId} (imported : Bool)
      (hnew : NewSpan vmp vaddr size) (hsource : imported = true → vmp.vmSource.isSome = true)
      (h : vmemSpanCreate vmp vaddr size imported = some (x, vmp')) :
      Acts vmp vmp' [] (if imported then [⟨vaddr, size⟩] else []) []
  | extend {vmp vmp' : Arena} {addr size : Word} {x : SegId} (hsource : vmp.vmSource = none)
      (hnew : NewRange vmp addr size)
      (h : vmemExtendUnlocked vmp addr (addr + size) = some (x, vmp')) : Acts vmp vmp' [] [] []
  | trans {vmp vmp' vmp'' : Arena} {a a' i i' r r' : List Block} (h : Acts vmp vmp' a i r)
      (h' : Acts vmp' vmp'' a' i' r') : Acts vmp vmp'' (a' ++ a) (i' ++ i) (r' ++ r)

namespace Acts
variable {a i r : List Block}

theorem refl (vmp : Arena) : Acts vmp vmp [] [] [] := .count vmp vmp.vmNsegfree

theorem wellFormed (h : Acts vmp vmp' a i r) (hw : WellFormed vmp) :
    WellFormed vmp' ∧ vmp'.toArenaConf = vmp.toArenaConf := by
  induction h with
  | count => exact ⟨hw.ofCount _, rfl⟩
  | alloc hv ht fits h =>
    obtain ⟨hw', -, hconf⟩ := vmemSegAlloc_adds hw hv ht fits h
    exact ⟨hw', hconf⟩
  | advance hmem hm hplace =>
    obtain ⟨hw', -, hconf⟩ := vmemAdvance_keeps hw hmem hm hplace rfl
    exact ⟨hw', hconf⟩
  | span _ hnew _ h =>
    obtain ⟨hw', -, hconf, -⟩ := vmemSpanCreate_keeps hw hnew h
    exact ⟨hw', hconf⟩
  | extend _ hnew h =>
    have hext := vmemExtendUnlocked_extended hw hnew h
    exact ⟨hext.wellFormed, hext.conf⟩
  | trans _ _ ih ih' =>
    obtain ⟨hw', hconf⟩ := ih hw
    obtain ⟨hw'', hconf'⟩ := ih' hw'
    exact ⟨hw'', hconf'.trans hconf⟩

end Acts

/-- What the sections do that serve an allocation: they add no spans but imported ones. -/
inductive Serves : Arena → Arena → List Block → List Block → List Block → Prop
  | count (vmp : Arena) (count : Int) : Serves vmp { vmp with vmNsegfree := count } [] [] []
  | alloc {vmp vmp' : Arena} {v x : SegId} {addr size : Word} (hv : v ∈ vmp.aList)
      (ht : (vmp.segs v).vsType = .free) (fits : Fits vmp.vmQuantum (vmp.segs v) addr size)
      (h : vmemSegAlloc vmp v addr size = some (x, vmp')) : Serves vmp vmp' [⟨addr, size⟩] [] []
  | advance {vmp : Arena} {walker after : SegId} (hmem : walker ∈ vmp.aList)
      (hm : vmp.isMarker walker = true) (hplace : vmp.Place walker (some after)) :
      Serves vmp (vmemAdvance vmp walker (some after)).1 [] []
        (vmemAdvance vmp walker (some after)).2.toList
  | imported {vmp vmp' : Arena} {vaddr size : Word} {x : SegId} (hnew : NewSpan vmp vaddr size)
      (hsource : vmp.vmSource.isSome = true)
      (h : vmemSpanCreate vmp vaddr size true = some (x, vmp')) :
      Serves vmp vmp' [] [⟨vaddr, size⟩] []
  | trans {vmp vmp' vmp'' : Arena} {a a' i i' r r' : List Block} (h : Serves vmp vmp' a i r)
      (h' : Serves vmp' vmp'' a' i' r') : Serves vmp vmp'' (a' ++ a) (i' ++ i) (r' ++ r)

namespace Serves
variable {a i r : List Block}

theorem refl (vmp : Arena) : Serves vmp vmp [] [] [] := .count vmp vmp.vmNsegfree

theorem acts (h : Serves vmp vmp' a i r) : Acts vmp vmp' a i r := by
  induction h with
  | count vmp count => exact .count vmp count
  | alloc hv ht fits h => exact .alloc hv ht fits h
  | advance hmem hm hplace => exact .advance hmem hm hplace
  | imported hnew hsource h => exact .span true hnew (fun _ => hsource) h
  | trans _ _ ih ih' => exact ih.trans ih'

end Serves

theorem extendAllocSpan_acts (hnew : NewRange vmp addr size)
    (h : extendAllocSpan vmp addr size = some (x, vmp')) : Acts vmp vmp' [] [] [] := by
  unfold extendAllocSpan at h
  split at h
  · exact .span false hnew.toNewSpan (by simp) h
  · rename_i hs
    exact .extend (by simpa using hs) hnew h

theorem vmemExtendAlloc_acts {vaddr alloc : Word} (hw : WellFormed vmp)
    (hargs : ExtendArgs vmp vaddr size alloc)
    (h : vmemExtendAlloc vmp vaddr size alloc = some (vmp', addr)) :
    Acts vmp vmp' [⟨addr, alloc⟩] [] [] := by
  unfold vmemExtendAlloc at h
  obtain ⟨⟨w, vmp₁⟩, hsome, h⟩ := bind_eq_some_iff.mp h
  obtain ⟨⟨x, vmp₂⟩, halloc, h⟩ := bind_eq_some_iff.mp h
  cases h
  have hext := extendAllocSpan_extended hw hargs.toNewRange hsome
  have hfits := fits_start hext.wellFormed hext.mem hext.free hargs.alloc_ne
    (le_trans hargs.alloc_le hext.room)
  exact (extendAllocSpan_acts hargs.toNewRange hsome).trans
    (.alloc hext.mem hext.free hfits halloc)

theorem vmemAdd_acts {vaddr : Word} (hnew : NewSpan vmp vaddr size)
    (h : vmemAdd vmp vaddr size = some vmp') : Acts vmp vmp' [] [] [] := by
  unfold vmemAdd at h
  split at h
  · simp at h
  · obtain ⟨⟨y, vmp₁⟩, hspan, h⟩ := bind_eq_some_iff.mp h
    cases h
    exact .span false hnew (by simp) hspan

section
variable {r : AllocResult}

theorem size_le_of_instantFit (hw : WellFormed vmp) {flist : Nat}
    (hflist : flist = if size &&& (size-1) = 0 then lowbit (p2align vmp.vmFreemap size)
      else if highbit size < vmemFreelists then
        lowbit (p2align vmp.vmFreemap ((1 : Word) <<< highbit size)) else 0)
    (hne : flist ≠ 0) (hv : v ∈ vmp.vmFreelist flist) :
    size ≠ 0 ∧ size.toNat ≤ (vmp.segs v).len := by
  obtain ⟨-, -, -, hbit, -⟩ := hw.indexed.mem_freelist hv
  obtain ⟨f, rfl⟩ := Nat.exists_eq_succ_of_ne_zero hne
  have hlen := two_pow_le_of_highbit hbit
  split at hflist
  · rename_i hpow
    have hsize : size ≠ 0 := by
      rintro rfl
      simp [p2align, lowbit] at hflist
    obtain ⟨-, hle, -⟩ := lowbit_p2align (isPow2_of_isP2 hsize hpow) hflist.symm
    exact ⟨hsize, hle.trans hlen⟩
  · rename_i hpow
    have hsize : size ≠ 0 := by
      rintro rfl
      simp at hpow
    split at hflist
    · rename_i hlt
      obtain ⟨-, hle, -⟩ := lowbit_p2align (isPow2_shiftLeft hlt) hflist.symm
      rw [toNat_one_shiftLeft hlt] at hle
      exact ⟨hsize, (lt_two_pow_highbit size).le.trans (hle.trans hlen)⟩
    · exact absurd hflist hne

theorem vmemAlloc_serves (hw : WellFormed vmp) (h : vmemAlloc vmp size = some (vmp', r)) :
    Serves vmp vmp' (r.allocs size) [] r.returns := by
  unfold vmemAlloc at h
  dsimp only at h
  generalize hflist : (if size &&& (size-1) = 0 then lowbit (p2align vmp.vmFreemap size)
      else if highbit size < vmemFreelists then
        lowbit (p2align vmp.vmFreemap ((1 : Word) <<< highbit size)) else 0) = flist at h
  split at h
  · cases h
    exact .refl vmp
  · rename_i hne
    split at h
    · simp at h
    · rename_i vsp rest hlist
      have hv : vsp ∈ vmp.vmFreelist flist := by simp [hlist]
      obtain ⟨ha, -, ht, -⟩ := hw.indexed.mem_freelist hv
      obtain ⟨hsize, hle⟩ := size_le_of_instantFit hw hflist.symm hne hv
      obtain ⟨⟨x, vmp₁⟩, halloc, h⟩ := bind_eq_some_iff.mp h
      cases h
      exact .alloc ha ht (fits_start hw ha ht hsize hle) halloc

end

/-- What `vmem_xalloc` knows when it calls `vm_source_alloc`. -/
structure Importing (conf : Arena) (x : XallocArgs) (asize : Word) : Prop where
  panics : xallocPanics conf x = false
  size_ne : x.size ≠ 0
  asize_eq : ∀ sq ∈ conf.vmSource, asize = xallocAsize conf x sq
  source : conf.vmSource.isSome = true
  enough : ¬ asize < x.size

variable {x : XallocArgs} {r : AllocResult} {asize vaddr : Word} {resv : Int}
  {pre post : List SegId} {m : SegId}

theorem vmemXalloc_serves (hw : WellFormed vmp) (hx : x.Bounded vmp)
    (h : vmemXalloc vmp x = some (vmp', r)) :
    Serves vmp vmp' (r.allocs x.size) [] r.returns ∧
      ∀ asize resv, r = .importing asize resv → Importing vmp x asize := by
  unfold vmemXalloc at h
  split at h
  · simp at h
  rename_i hpanics
  split at h
  · rename_i vbest addr hsearch
    obtain ⟨ha, ht, hplace⟩ := xallocSearch_spec hw.indexed hsearch
    have hsize : x.size ≠ 0 := fun hz => by simp [xallocSearch_zero hz] at hsearch
    obtain ⟨⟨y, vmp₁⟩, halloc, h⟩ := bind_eq_some_iff.mp h
    cases h
    obtain ⟨pre, post, hsplit⟩ := append_of_mem ha
    obtain ⟨s, t, -, hs, -⟩ := hw.layout.scan_at hsplit
    have hfits := xallocPlace_fits hw.layout.quantum ht hs (by simpa using hpanics) hx hsize hplace
    exact ⟨.alloc ha ht hfits halloc, by simp⟩
  · split at h
    · simp at h
    rename_i hsize
    split at h
    · split at h
      · cases h
        exact ⟨.refl vmp, by simp⟩
      · rename_i sq hsq
        dsimp only at h
        split at h
        · split at h
          · cases h
            exact ⟨.refl vmp, by simp⟩
          · simp at h
        · rename_i henough
          cases h
          refine ⟨.count vmp _, fun asize resv he => ?_⟩
          obtain ⟨rfl, -⟩ := AllocResult.importing.inj he
          exact ⟨by simpa using hpanics, hsize, by simp [hsq], by simp [hsq], henough⟩
    · cases h
      exact ⟨.refl vmp, by simp⟩

/-- What a source may answer to an import of `asize` bytes with alignment `align`: nothing, or a
new block on its own quantum of at least that size. -/
structure SourceBlock (vmp : Arena) (asize vaddr size : Word) : Prop where
  span : NewSpan vmp vaddr size
  aligned : ∀ sq ∈ vmp.vmSource, sq.toNat ∣ vaddr.toNat
  enough : asize ≤ size

theorem import_fits {sq size : Word} (hq : IsPow2 vmp.vmQuantum) (hsq : IsPow2 sq)
    (hsource : vmp.vmSource = some sq) (hle : xallocAlign vmp x ≤ sq)
    (himp : Importing vmp x asize) (hb : SourceBlock vmp asize vaddr size) :
    Fits vmp.vmQuantum ⟨vaddr, vaddr+size, .free, true⟩
      (p2phaseup vaddr (xallocAlign vmp x) x.phase) x.size := by
  obtain ⟨hdalign, hdphase, -⟩ := dvd_of_not_panics hq himp.panics
  have hne : xallocAlign vmp x ≠ 0 := by
    rw [xallocAlign]
    split
    · intro hz
      have := hq.pos
      rw [hz] at this
      simp at this
    · assumption
  have hphase : x.phase < xallocAlign vmp x := by
    have hp := himp.panics
    simp only [xallocPanics, Bool.or_eq_false_iff, Bool.and_eq_false_iff, decide_eq_false_iff_not]
      at hp
    rcases hp.1.1 with h0 | hlt
    · bv_omega
    · rw [xallocAlign]
      split
      · rename_i hz
        rw [hz] at hlt
        exact absurd (by bv_omega) hlt
      · bv_omega
  have hoff := importOffset_le hsq (hb.aligned sq (by simp [hsource])) hle hphase
  have hasize : asize = p2roundup (x.size+x.phase) sq := by
    rw [himp.asize_eq sq (by simp [hsource]), xallocAsize, if_neg (by bv_omega)]
  have hroom := add_phase_le_asize x.phase hsq (by bv_omega) himp.size_ne
    (hasize ▸ himp.enough)
  rw [← hasize] at hroom
  have hlen : (⟨vaddr, vaddr+size, .free, true⟩ : Seg).len = size.toNat := gapSeg_len vaddr size
  have hbound := hb.span.bound
  have henough : asize.toNat ≤ size.toNat := hb.enough
  have hpos : 0 < x.size.toNat := by
    have := himp.size_ne
    bv_omega
  have haddr : (p2phaseup vaddr (xallocAlign vmp x) x.phase).toNat =
      vaddr.toNat+(importOffset (xallocAlign vmp x) x.phase vaddr).toNat := by
    rw [p2phaseup_eq_importOffset, BitVec.toNat_add, Nat.mod_eq_of_lt (by omega)]
  refine ⟨?_, dvd_p2phaseup hq _ hdalign hdphase, hpos, ?_⟩
  · rw [haddr]
    exact Nat.le_add_right _ _
  · rw [haddr, Seg.hi, hlen]
    change _ ≤ vaddr.toNat+size.toNat
    omega

section

variable (hw : WellFormed vmp)

include hw

theorem vmemXallocImported_serves {sq : Word} (hsq : IsPow2 sq) (hsource : vmp.vmSource = some sq)
    (himp : Importing vmp x asize) {size : Word}
    (hanswer : vaddr ≠ 0 → SourceBlock vmp asize vaddr size ∧ xallocAlign vmp x ≤ sq)
    (h : vmemXallocImported vmp x size resv vaddr = some (vmp', r)) :
    Serves vmp vmp' (r.allocs x.size) (if vaddr = 0 then [] else [⟨vaddr, size⟩]) r.returns := by
  unfold vmemXallocImported at h
  dsimp only at h
  have hcount := Serves.count vmp (vmp.vmNsegfree+resv)
  split at h
  · rename_i hv
    cases h
    rw [if_pos hv]
    exact hcount
  · rename_i hv
    obtain ⟨hb, hle⟩ := hanswer hv
    obtain ⟨⟨w, vmp₁⟩, hspan, h⟩ := bind_eq_some_iff.mp h
    obtain ⟨⟨y, vmp₂⟩, halloc, h⟩ := bind_eq_some_iff.mp h
    cases h
    have hnew : NewSpan { vmp with vmNsegfree := vmp.vmNsegfree+resv } vaddr size :=
      ⟨hb.span.vaddr_ne, hb.span.size_ne, hb.span.bound, hb.span.disjoint⟩
    obtain ⟨hw₁, -, hconf, hmem, hseg, -⟩ :=
      vmemSpanCreate_keeps (hw.ofCount (vmp.vmNsegfree+resv)) hnew hspan
    have hconf' : vmp₁.toArenaConf = vmp.toArenaConf := hconf
    have halign : xallocAlign vmp₁ x = xallocAlign vmp x := by
      rw [xallocAlign, hconf', xallocAlign]
    have hfits := import_fits hw.layout.quantum hsq hsource hle himp hb
    rw [if_neg hv]
    rw [hseg, halign] at halloc ⊢
    have hspan' := hcount.trans (Serves.imported hnew (by simp [hsource]) hspan)
    exact hspan'.trans (.alloc hmem (by rw [hseg]) (by rw [hseg, hconf']; exact hfits) halloc)

theorem nextfitTake_serves (hv : v ∈ vmp.aList) (ht : (vmp.segs v).vsType = .free)
    (hsize : size ≠ 0) (hle : size ≤ vmp.vsSize v) (h : nextfitTake vmp v size = some (vmp', r)) :
    Serves vmp vmp' (r.allocs size) [] r.returns := by
  unfold nextfitTake at h
  simp only [Option.bind_eq_bind, Option.bind_eq_some_iff, Prod.exists, Option.pure_def,
    some.injEq, Prod.mk.injEq] at h
  obtain ⟨x, vmp₁, halloc, rfl, rfl⟩ := h
  have hfits := fits_start hw hv ht hsize hle
  obtain ⟨hw₁, hadds, -⟩ := vmemSegAlloc_adds hw hv ht hfits halloc
  have hx : vmp₁.Fixed x := (hadds.fixed x).mpr (.inl rfl)
  have hxr : x ≠ vmRotor := by
    rintro rfl
    have := hadds.type
    simp [hw₁.rotor.2] at this
  have hmove := Serves.advance hw₁.rotor.1 (isMarker_iff.mpr (.inl hw₁.rotor.2))
    (by simpa [Arena.Place] using ⟨.inr hx.1, hxr⟩ : vmp₁.Place vmRotor (some x))
  simpa [AllocResult.allocs, AllocResult.returns] using
    (Serves.alloc hv ht hfits halloc).trans hmove

theorem nextfitAdvanced_serves {nosleep : Bool} (hsize : size ≠ 0)
    (h : nextfitAdvanced vmp size nosleep = some (vmp', r)) :
    Serves vmp vmp' (r.allocs size) [] r.returns := by
  unfold nextfitAdvanced at h
  dsimp only at h
  split at h
  · rename_i hfree
    have hv : vmp.aPrev vmRotor ∈ vmp.aList := by
      refine (mem_cons.mp (Ring.prev_mem vmp.aList)).resolve_left fun he => ?_
      have he' : vmp.aPrev vmRotor = seg0 := he
      simp [he', hw.layout.anchor] at hfree
    exact nextfitTake_serves hw hv hfree.1 hsize hfree.2 h
  · split at h <;>
    · cases h
      exact .refl vmp

theorem rotor_place : vmp.Place vmRotor (some (vmp.aNext vmRotor)) := by
  obtain ⟨pre, post, ha⟩ := append_of_mem hw.rotor.1
  have hnd := hw.layout.nodup_aList
  rw [ha] at hnd
  have hne : vmp.aNext vmRotor ≠ vmRotor := by
    obtain ⟨-, hpost, h0, -⟩ := Ring.nodup_split hnd
    rw [Arena.aNext, ha, Ring.next_split hnd]
    rcases post with _ | ⟨n, post⟩
    · exact h0.symm
    · exact fun he => hpost (by simp [← he])
  have hmem : vmp.aNext vmRotor ∈ seg0 :: vmp.aList := Ring.next_mem _
  simpa [Arena.Place] using ⟨mem_cons.mp hmem, hne⟩

theorem nextfitSearch_serves {nosleep : Bool} (hsize : size ≠ 0)
    (h : nextfitSearch vmp size nosleep = some (vmp', r)) :
    Serves vmp vmp' (r.allocs size) [] r.returns := by
  unfold nextfitSearch at h
  dsimp only at h
  split at h
  · rename_i vsp hfind
    have hmem := mem_of_find?_eq_some hfind
    have hfree := find?_some hfind
    simp only [Bool.and_eq_true, decide_eq_true_iff] at hfree
    exact nextfitTake_serves hw (Ring.mem_of_mem_around hmem) hfree.1 hsize hfree.2 h
  · have hmove := Serves.advance hw.rotor.1 (isMarker_iff.mpr (.inl hw.rotor.2)) (rotor_place hw)
    split at h
    · rename_i block hreleased
      cases h
      rw [hreleased] at hmove
      exact hmove
    · rename_i hreleased
      rw [hreleased] at hmove
      have hrest := nextfitAdvanced_serves (hmove.acts.wellFormed hw).1 hsize h
      simpa using hmove.trans hrest

theorem vmemNextfitAlloc_serves {nosleep : Bool} (hsize : size ≠ 0)
    (hround : size.toNat+vmp.vmQuantum.toNat ≤ 2^64)
    (h : vmemNextfitAlloc vmp size nosleep = some (vmp', r)) :
    Serves vmp vmp' (r.allocs size) [] r.returns := by
  by_cases hfast : (vmp.segs (vmp.aNext vmRotor)).vsType = .free ∧
      p2roundup size vmp.vmQuantum < vmp.vsSize (vmp.aNext vmRotor) ∧
      p2samehighbit (vmp.vsSize (vmp.aNext vmRotor))
        (vmp.vsSize (vmp.aNext vmRotor)-p2roundup size vmp.vmQuantum) = true
  · obtain ⟨pre, post, ha⟩ := append_of_mem hw.rotor.1
    have hnd := hw.layout.nodup_aList
    rw [ha] at hnd
    have hnext : vmp.aNext vmRotor = post.headD seg0 := by
      rw [Arena.aNext, ha, Ring.next_split hnd]
    rw [hnext] at hfast
    rcases post with _ | ⟨v, post⟩
    · simp [hw.layout.anchor] at hfast
    rw [headD_cons] at hfast
    obtain ⟨hfree, hlt, hsame⟩ := hfast
    rw [vmemNextfitAlloc_fast hw ha hfree hlt hsame] at h
    refine nextfitTake_serves hw (by simp [ha]) hfree hsize ?_ h
    have hq := hw.layout.quantum
    have hup : roundUp size.toNat vmp.vmQuantum.toNat < 2^64 := by
      have := roundUp_lt (n := size.toNat) hq.pos
      omega
    have heq := toNat_p2roundup_of_lt hq hup
    have hge := le_roundUp (n := size.toNat) hq.pos
    have hlt' : (p2roundup size vmp.vmQuantum).toNat < (vmp.vsSize v).toNat := hlt
    change size.toNat ≤ (vmp.vsSize v).toNat
    omega
  · unfold vmemNextfitAlloc at h
    dsimp only at h
    rw [if_neg hfast] at h
    exact nextfitSearch_serves hw hsize h

end

end Libumem.Vmem
