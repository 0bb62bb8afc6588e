import Libumem.Vmem.Held

/-!
# Every run keeps the arena well formed

The steps of a run that callers may take, the arguments for which no sum in the allocation code
wraps around, and the invariant of the runs that only use such arguments.
-/

namespace Libumem.Vmem
open List Option Arith Lib Pow2

/-- What `vm_source_alloc` may answer to a call: nothing, or a new block of the size that was
asked for, in an arena whose imports are aligned to at most the quantum of the source. -/
def Call.Answered (vmp : Arena) (answer : Block) : Call → Prop
  | .importing x asize _ => answer.addr ≠ 0 →
      SourceBlock vmp asize answer.addr answer.size ∧
      (vmp.vmcXalloc = false → answer.size = asize) ∧ ∀ sq ∈ vmp.vmSource, xallocAlign vmp x ≤ sq
  | _ => True

/-- What the callers of an arena keep to. -/
def Op.Admissible (s : Sys) : Op → Prop
  | .add vaddr size => NewSpan s.arena vaddr size
  | .extendAlloc vaddr size len => ExtendArgs s.arena vaddr size len
  | .alloc _ _ | .xalloc _ => True
  | .resume call answer => call.Answered s.arena answer
  | .xfree vaddr size => ⟨vaddr, size⟩ ∈ s.live
  | .walk walker => walker ∉ seg0 :: (s.arena.aList ++ s.arena.vmSegfree)
  | .advance walker afterme => walker ∈ s.arena.aList ∧
      (s.arena.segs walker).vsType = .walker ∧ s.arena.Place walker afterme
  | .putseg vsp => vsp ∉ seg0 :: (s.arena.aList ++ s.arena.vmSegfree)

/-- A size that `vmem_nextfit_alloc` can round up to the quantum. -/
def NextfitSize (vmp : Arena) (size : Word) : Prop :=
  size ≠ 0 ∧ size.toNat + vmp.vmQuantum.toNat ≤ 2 ^ 64

/-- Arguments for which no sum in the allocation code wraps around. -/
def Op.InRange (s : Sys) : Op → Prop
  | .alloc size vmflag => vmflag.vmNextfit = true → NextfitSize s.arena size
  | .xalloc x => x.Bounded s.arena
  | _ => True

/-- One step of a run whose operations meet `ok`. -/
def Sys.Moves (ok : Sys → Op → Prop) (s : Sys) (op : Op) (s' : Sys) : Prop :=
  ok s op ∧ s.step op = some s'

/-- The state that every run keeps: the arena is well formed, no two free segments are neighbours,
and the blocks that callers hold are the allocated segments and do not overlap. -/
structure Sys.Sound (s : Sys) : Prop where
  wellFormed : WellFormed s.arena
  free_apart : ∀ pre a b post, s.arena.aList = pre ++ a :: b :: post →
    ¬ ((s.arena.segs a).vsType = .free ∧ (s.arena.segs b).vsType = .free)
  held : Held s.arena s.live

section
variable {vmp vmp' : Arena} {call : Call} {answer : Block} {r : AllocResult}

theorem vmemCreate_wellFormed {quantum : Word} (hq : IsPow2 quantum) (source : Option Word)
    (sourceFree xalloc : Bool) (qcacheMax : Word) :
    WellFormed (vmemCreate quantum source sourceFree xalloc qcacheMax) := by
  have hty : ∀ y ∈ (vmemCreate quantum source sourceFree xalloc qcacheMax).aList,
      ((vmemCreate quantum source sourceFree xalloc qcacheMax).segs y).vsType = .rotor := by
    simp [vmemCreate]
  refine ⟨⟨hq, ?_, rfl, ?_, rfl, Pairwise.nil⟩, ⟨.empty ?_, ?_, ?_, .empty ?_⟩, ?_⟩
  · simp [vmemCreate, seg0, vmRotor]
  · exact ⟨Scan.init, ⟨Scan.init, (Scan.step_marker (.inl rfl)).mpr rfl, rfl⟩, rfl⟩
  · rintro y ⟨hy, -, ht⟩
    simp [hty y hy] at ht
  · intro y hy _ ht
    simp [hty y hy] at ht
  · simp [vmemCreate]
  · rintro y ⟨hy, -, ht⟩
    simp [hty y hy] at ht
  · exact ⟨mem_singleton.mpr rfl, hty vmRotor (mem_singleton.mpr rfl)⟩

theorem vmemPutseg_wellFormed (hw : WellFormed vmp) {vsp : SegId}
    (hnew : vsp ∉ seg0 :: (vmp.aList ++ vmp.vmSegfree)) : WellFormed (vmemPutseg vmp vsp) := by
  have hL := hw.layout
  refine ⟨⟨hL.quantum, ?_, hL.anchor, hL.tiled, hL.spans, hL.disjoint⟩,
    hw.indexed.ofSame rfl rfl rfl rfl rfl rfl rfl, hw.rotor⟩
  have hperm : (seg0 :: (vmp.aList ++ vsp :: vmp.vmSegfree)).Perm
      (vsp :: seg0 :: (vmp.aList ++ vmp.vmSegfree)) := by
    rw [perm_iff_count]
    intro y
    simp only [count_append, count_cons]
    omega
  exact hperm.nodup_iff.mpr (nodup_cons.mpr ⟨hnew, hL.nodup⟩)

@[simp] theorem vmemWalkInsert_aList {walker : SegId} :
    (vmemWalkInsert vmp walker).aList = walker :: vmp.aList := by
  simp [vmemWalkInsert, Arena.aInsert, Ring.insert_anchor]

@[simp] theorem vmemWalkInsert_segs_self {walker : SegId} :
    (vmemWalkInsert vmp walker).segs walker = ⟨0, 0, .walker, false⟩ := by
  simp [vmemWalkInsert, Arena.aInsert]

@[simp] theorem vmemWalkInsert_segs_of_ne {walker y : SegId} (hy : y ≠ walker) :
    (vmemWalkInsert vmp walker).segs y = vmp.segs y := by
  simp [vmemWalkInsert, Arena.aInsert, hy]

theorem vmemWalkInsert_wellFormed (hw : WellFormed vmp) {walker : SegId}
    (hnew : walker ∉ seg0 :: (vmp.aList ++ vmp.vmSegfree)) :
    WellFormed (vmemWalkInsert vmp walker) := by
  obtain ⟨h0, hout, -⟩ : walker ≠ seg0 ∧ walker ∉ vmp.aList ∧ walker ∉ vmp.vmSegfree := by
    simpa using hnew
  have hrotor : vmRotor ≠ walker := fun he => hout (he ▸ hw.rotor.1)
  have hL : Layout (vmp.setSeg walker ⟨0, 0, .walker, false⟩) := by
    refine hw.layout.replace vmp.aList [] [] [] (by simp)
      (by simp) rfl rfl hw.layout.nodup (fun y hy => ?_) (by simp) (by simp) (by simp)
    have hne : y ≠ walker := by
      rintro rfl
      simp [h0, hout] at hy
    simp [hne]
  refine ⟨hL.insertMarker (by simp [Arena.isMarker]) hnew mem_cons_self, ?_, ?_⟩
  · refine hw.indexed.transfer rfl rfl rfl rfl rfl (fun y t ht => ?_) fun y hy _ _ => ?_
    · rw [vmemWalkInsert_aList]
      by_cases hy : y = walker
      · subst hy
        rcases ht with rfl | rfl <;> simp [hout]
      · simp [hy]
    · exact vmemWalkInsert_segs_of_ne fun he => hout (he ▸ hy)
  · rw [vmemWalkInsert_aList, vmemWalkInsert_segs_of_ne hrotor]
    exact ⟨mem_cons_of_mem _ hw.rotor.1, hw.rotor.2⟩

/-- How the section of a call may end. -/
def Call.Ends : Call → AllocResult → Prop
  | .instant _ _, .done _ none | .instant _ _, .xalloc => True
  | .nextfit _ _, .done _ _ | .nextfit _ _, .xalloc | .nextfit _ _, .retry
  | .nextfit _ _, .released _ => True
  | .search _ _, .done _ _ | .search _ _, .xalloc | .search _ _, .retry
  | .search _ _, .released _ => True
  | .advanced _ _, .done _ _ | .advanced _ _, .xalloc | .advanced _ _, .retry => True
  | .xalloc _, .done _ none | .xalloc _, .null | .xalloc _, .importing _ _
  | .xalloc _, .retry => True
  | .importing _ _ _, .done _ none | .importing _ _ _, .retry => True
  | _, _ => False

theorem nextfitTake_ends {vsp : SegId} {size : Word} (h : nextfitTake vmp vsp size = some (vmp', r)) :
    ∃ addr block, r = .done addr block := by
  obtain ⟨⟨_, _⟩, -, h⟩ := bind_eq_some_iff.mp h
  cases h
  exact ⟨_, _, rfl⟩

theorem nextfitAdvanced_ends {size : Word} {nosleep : Bool}
    (h : nextfitAdvanced vmp size nosleep = some (vmp', r)) :
    (∃ addr block, r = .done addr block) ∨ r = .xalloc ∨ r = .retry := by
  unfold nextfitAdvanced at h
  dsimp only at h
  split at h
  · exact .inl (nextfitTake_ends h)
  · split at h <;> simp_all

theorem nextfitSearch_ends {size : Word} {nosleep : Bool}
    (h : nextfitSearch vmp size nosleep = some (vmp', r)) :
    (∃ addr block, r = .done addr block) ∨ r = .xalloc ∨ r = .retry ∨ ∃ block, r = .released block := by
  unfold nextfitSearch at h
  dsimp only at h
  split at h
  · exact .inl (nextfitTake_ends h)
  · split at h
    · cases h
      simp
    · rcases nextfitAdvanced_ends h with h | h | h <;> simp [h]

theorem vmemAlloc_ends {size : Word} (h : vmemAlloc vmp size = some (vmp', r)) :
    (∃ addr, r = .done addr none) ∨ r = .xalloc := by
  unfold vmemAlloc at h
  dsimp only at h
  generalize (if size &&& (size-1) = 0 then _ else _) = flist at h
  split at h
  · cases h
    simp
  · split at h
    · simp at h
    · obtain ⟨⟨_, _⟩, -, h⟩ := bind_eq_some_iff.mp h
      cases h
      exact .inl ⟨_, rfl⟩

theorem vmemXalloc_ends {x : XallocArgs} (h : vmemXalloc vmp x = some (vmp', r)) :
    (∃ addr, r = .done addr none) ∨ r = .null ∨ (∃ asize resv, r = .importing asize resv) ∨
      r = .retry := by
  unfold vmemXalloc at h
  split at h
  · simp at h
  split at h
  · obtain ⟨⟨_, _⟩, -, h⟩ := bind_eq_some_iff.mp h
    cases h
    exact .inl ⟨_, rfl⟩
  · split at h
    · simp at h
    split at h
    · split at h
      · cases h
        simp
      · dsimp only at h
        split at h
        · split at h
          · cases h
            simp
          · simp at h
        · cases h
          simp
    · cases h
      simp

theorem vmemXallocImported_ends {x : XallocArgs} {asize vaddr : Word} {resv : Int}
    (h : vmemXallocImported vmp x asize resv vaddr = some (vmp', r)) :
    (∃ addr, r = .done addr none) ∨ r = .retry := by
  unfold vmemXallocImported at h
  dsimp only at h
  split at h
  · cases h
    simp
  · obtain ⟨⟨_, _⟩, -, h⟩ := bind_eq_some_iff.mp h
    obtain ⟨⟨_, _⟩, -, h⟩ := bind_eq_some_iff.mp h
    cases h
    exact .inl ⟨_, rfl⟩

theorem vmemNextfitAlloc_ends {size : Word} {nosleep : Bool}
    (h : vmemNextfitAlloc vmp size nosleep = some (vmp', r)) :
    (∃ addr block, r = .done addr block) ∨ r = .xalloc ∨ r = .retry ∨
      ∃ block, r = .released block := by
  unfold vmemNextfitAlloc at h
  dsimp only at h
  split at h
  · obtain ⟨⟨_, _⟩, -, h⟩ := bind_eq_some_iff.mp h
    cases h
    exact .inl ⟨_, _, rfl⟩
  · exact nextfitSearch_ends h

theorem Call.exec_ends (h : call.exec vmp answer = some (vmp', r)) : call.Ends r := by
  cases call with
  | instant size nosleep =>
    rcases vmemAlloc_ends h with ⟨addr, rfl⟩ | rfl <;> trivial
  | nextfit size nosleep =>
    rcases vmemNextfitAlloc_ends h with ⟨addr, block, rfl⟩ | rfl | rfl | ⟨block, rfl⟩ <;> trivial
  | search size nosleep =>
    rcases nextfitSearch_ends h with ⟨addr, block, rfl⟩ | rfl | rfl | ⟨block, rfl⟩ <;> trivial
  | advanced size nosleep =>
    rcases nextfitAdvanced_ends h with ⟨addr, block, rfl⟩ | rfl | rfl <;> trivial
  | xalloc x =>
    rcases vmemXalloc_ends h with ⟨addr, rfl⟩ | rfl | ⟨asize, resv, rfl⟩ | rfl <;> trivial
  | importing x asize resv =>
    rcases vmemXallocImported_ends h with ⟨addr, rfl⟩ | rfl <;> trivial

/-- What a waiting call knows of its arguments. -/
def Call.Ready (vmp : Arena) : Call → Prop
  | .instant _ _ => True
  | .nextfit size _ => NextfitSize vmp size
  | .search size _ | .advanced size _ => size ≠ 0
  | .xalloc x => x.Bounded vmp
  | .importing x asize _ => x.Bounded vmp ∧ Importing vmp x asize

theorem Call.Ready.congr (hc : vmp'.toArenaConf = vmp.toArenaConf) (h : call.Ready vmp) :
    call.Ready vmp' := by
  have halign : ∀ x, xallocAlign vmp' x = xallocAlign vmp x := fun x => by
    rw [xallocAlign, hc, xallocAlign]
  have hplain : plainArgs vmp' = plainArgs vmp := by
    funext size bestfit firstfit nosleep
    rw [plainArgs, hc, plainArgs]
  have hbound : ∀ x : XallocArgs, x.Bounded vmp → x.Bounded vmp' := fun x hx => by
    rwa [XallocArgs.Bounded, halign, hplain]
  cases call with
  | instant size nosleep => trivial
  | nextfit size nosleep =>
    simp only [Call.Ready, NextfitSize] at h ⊢
    rwa [hc]
  | search size nosleep => exact h
  | advanced size nosleep => exact h
  | xalloc x => exact hbound x h
  | importing x asize resv =>
    obtain ⟨hx, himp⟩ := h
    refine ⟨hbound x hx, ?_, himp.size_ne, ?_, ?_, himp.enough⟩
    · rw [← himp.panics, xallocPanics, halign, hc, xallocPanics]
    · rw [hc]
      intro sq hsq
      rw [himp.asize_eq sq hsq]
      simp only [xallocAsize, halign]
    · rw [hc]
      exact himp.source

theorem plainArgs_bounded (size : Word) (bestfit firstfit nosleep : Bool) :
    (plainArgs vmp size bestfit firstfit nosleep).Bounded vmp :=
  .inr ⟨bestfit, firstfit, nosleep, rfl⟩

theorem Call.rest_ready (hr : call.Ready vmp) (he : call.Ends r)
    (himp : ∀ asize resv, r = .importing asize resv → Importing vmp (call.args vmp) asize) :
    ∀ c ∈ call.rest vmp r, c.Ready vmp := by
  have hagain : call.again.Ready vmp := by
    cases call with
    | instant size nosleep => trivial
    | nextfit size nosleep => exact hr.1
    | search size nosleep => exact hr
    | advanced size nosleep => exact hr
    | xalloc x => exact hr
    | importing x asize resv => exact hr.1
  intro c hc
  cases r with
  | done addr block => simp [Call.rest] at hc
  | null => simp [Call.rest] at hc
  | retry =>
    rw [Call.rest] at hc
    split at hc
    · simp at hc
    · obtain rfl := mem_singleton.mp hc
      exact hagain
  | importing asize resv =>
    obtain rfl := mem_singleton.mp hc
    refine ⟨?_, himp asize resv rfl⟩
    cases call with
    | xalloc x => exact hr
    | importing x asize resv => exact hr.1
    | _ => exact plainArgs_bounded _ _ _ _
  | xalloc =>
    obtain rfl := mem_singleton.mp hc
    cases call with
    | xalloc x => exact hr
    | importing x asize resv => exact hr.1
    | _ => exact plainArgs_bounded _ _ _ _
  | released block =>
    obtain rfl := mem_singleton.mp hc
    cases call with
    | nextfit size nosleep => exact hr.1
    | search size nosleep => exact hr
    | _ => exact he.elim

theorem Call.exec_serves (hw : WellFormed vmp) (hsq : ∀ sq ∈ vmp.vmSource, IsPow2 sq)
    (hr : call.Ready vmp) (ha : call.Answered vmp answer)
    (h : call.exec vmp answer = some (vmp', r)) :
    Serves vmp vmp' (r.allocs (call.args vmp).size) (call.imports answer) r.returns ∧
      ∀ asize resv, r = .importing asize resv → Importing vmp (call.args vmp) asize := by
  have hend := Call.exec_ends h
  have hnot : (∀ asize resv, ¬ call.Ends (.importing asize resv)) → ∀ asize resv,
      r = .importing asize resv → Importing vmp (call.args vmp) asize := fun hn asize resv he =>
    absurd (he ▸ hend) (hn asize resv)
  cases call with
  | instant size nosleep => exact ⟨vmemAlloc_serves hw h, hnot fun _ _ => id⟩
  | nextfit size nosleep => exact ⟨vmemNextfitAlloc_serves hw hr.1 hr.2 h, hnot fun _ _ => id⟩
  | search size nosleep => exact ⟨nextfitSearch_serves hw hr h, hnot fun _ _ => id⟩
  | advanced size nosleep => exact ⟨nextfitAdvanced_serves hw hr h, hnot fun _ _ => id⟩
  | xalloc x => exact vmemXalloc_serves hw hr h
  | importing x asize resv =>
    obtain ⟨sq, hsource⟩ := isSome_iff_exists.mp hr.2.source
    refine ⟨?_, hnot fun _ _ => id⟩
    exact vmemXallocImported_serves hw (hsq sq hsource) hsource hr.2
      (fun hne => ⟨(ha hne).1, (ha hne).2.2 sq hsource⟩) h

end

theorem Sys.Sound.in_span {s : Sys} (h : s.Sound) {b : Block} (hb : b ∈ s.live) :
    ∃ sp ∈ s.arena.kList.map s.arena.segs, sp.lo ≤ b.addr.toNat ∧
      b.addr.toNat+b.size.toNat ≤ sp.hi := by
  obtain ⟨y, hy, ht, rfl⟩ := (h.held.mem b).mp hb
  obtain ⟨pre, post, hl⟩ := append_of_mem hy
  obtain ⟨sp, hsp, -, hin⟩ := h.wellFormed.layout.in_span hl (.inl ht)
  exact ⟨_, mem_map_of_mem hsp, hin⟩

/-- What carries the induction over a run. -/
structure Sys.Invariant (s : Sys) : Prop where
  wellFormed : WellFormed s.arena
  held : Held s.arena s.live
  calls : ∀ call ∈ s.calls, call.Ready s.arena
  source : ∀ sq ∈ s.arena.vmSource, IsPow2 sq

theorem Sys.Invariant.sound {s : Sys} (h : s.Invariant) : s.Sound :=
  ⟨h.wellFormed, fun _ _ _ _ hl hf => h.wellFormed.layout.free_apart hl hf.1 hf.2, h.held⟩

section
variable {s s' : Sys}

theorem allocCalls_ready {vmp : Arena} {size : Word} {vmflag : Vmflag}
    (h : vmflag.vmNextfit = true → NextfitSize vmp size) :
    ∀ call ∈ allocCalls vmp size vmflag, call.Ready vmp := by
  intro call hc
  unfold allocCalls at hc
  split at hc
  · simp at hc
  split at hc
  · rename_i hnext
    obtain rfl := mem_singleton.mp hc
    exact h hnext
  split at hc
  · obtain rfl := mem_singleton.mp hc
    exact plainArgs_bounded _ _ _ _
  · obtain rfl := mem_singleton.mp hc
    trivial

theorem Held.walk {vmp : Arena} {live : List Block} {walker : SegId} (h : Held vmp live)
    (hnew : walker ∉ vmp.aList) : Held (vmemWalkInsert vmp walker) live := by
  refine h.congr (fun y => ?_) fun y hy _ => vmemWalkInsert_segs_of_ne fun he => hnew (he ▸ hy.1)
  rw [Arena.Fixed, vmemWalkInsert_aList, Arena.Fixed]
  by_cases hy : y = walker
  · subst hy
    simp [hnew]
  · simp [hy]

/-- What a step does to the arena and to the records about it. -/
inductive Sys.Change (s s' : Sys) : Prop
  | acts {a i r : List Block} (h : Acts s.arena s'.arena a i r) (live : s'.live = a ++ s.live)
      (imported : s'.imported = i ++ s.imported) (returned : s'.returned = r ++ s.returned)
  | free {vaddr size : Word} {released : Option Block} (mem : (⟨vaddr, size⟩ : Block) ∈ s.live)
      (h : vmemXfree s.arena vaddr size = some (s'.arena, released))
      (live : s'.live = s.live.erase ⟨vaddr, size⟩) (imported : s'.imported = s.imported)
      (returned : s'.returned = released.toList ++ s.returned)
  | unlink {walker : SegId} {released : Option Block} (mem : walker ∈ s.arena.aList)
      (type : (s.arena.segs walker).vsType = .walker)
      (h : vmemAdvance s.arena walker none = (s'.arena, released)) (live : s'.live = s.live)
      (imported : s'.imported = s.imported) (returned : s'.returned = released.toList ++ s.returned)
  | link {walker : SegId} (new : walker ∉ seg0 :: (s.arena.aList ++ s.arena.vmSegfree))
      (h : s'.arena = vmemWalkInsert s.arena walker) (live : s'.live = s.live)
      (imported : s'.imported = s.imported) (returned : s'.returned = s.returned)
  | stock {vsp : SegId} (new : vsp ∉ seg0 :: (s.arena.aList ++ s.arena.vmSegfree))
      (h : s'.arena = vmemPutseg s.arena vsp) (live : s'.live = s.live)
      (imported : s'.imported = s.imported) (returned : s'.returned = s.returned)

theorem Sys.Invariant.change (h : s.Invariant) {op : Op} (hadm : op.Admissible s)
    (hs : s.step op = some s') : Sys.Change s s' := by
  have hw := h.wellFormed
  cases op with
  | add vaddr size =>
    obtain ⟨vmp, hadd, hs⟩ := bind_eq_some_iff.mp hs
    cases hs
    exact .acts (vmemAdd_acts hadm hadd) rfl rfl rfl
  | extendAlloc vaddr size alloc =>
    obtain ⟨⟨vmp, addr⟩, hext, hs⟩ := bind_eq_some_iff.mp hs
    cases hs
    exact .acts (vmemExtendAlloc_acts hw hadm hext) rfl rfl rfl
  | alloc size vmflag | xalloc x =>
    cases hs
    exact .acts (.refl s.arena) rfl rfl rfl
  | resume call answer =>
    obtain ⟨hmem, hs⟩ := ite_none_right_eq_some.mp hs
    obtain ⟨⟨vmp, r⟩, hexec, hs⟩ := bind_eq_some_iff.mp hs
    cases hs
    exact .acts (Call.exec_serves hw h.source (h.calls call hmem) hadm hexec).1.acts rfl rfl rfl
  | xfree vaddr size =>
    obtain ⟨⟨vmp, released⟩, hfree, hs⟩ := bind_eq_some_iff.mp hs
    cases hs
    exact .free hadm hfree rfl rfl rfl
  | walk walker =>
    cases hs
    exact .link hadm rfl rfl rfl rfl
  | advance walker afterme =>
    cases hs
    obtain ⟨hmem, ht, hplace⟩ := hadm
    cases afterme with
    | none => exact .unlink hmem ht rfl rfl rfl rfl
    | some after => exact .acts (.advance hmem (isMarker_iff.mpr (.inr ht)) hplace) rfl rfl rfl
  | putseg vsp =>
    cases hs
    exact .stock hadm rfl rfl rfl rfl

theorem Sys.Change.keeps (hs : Sys.Change s s') (hw : WellFormed s.arena) (hh : Held s.arena s.live) :
    WellFormed s'.arena ∧ Held s'.arena s'.live ∧ s'.arena.toArenaConf = s.arena.toArenaConf := by
  cases hs with
  | acts hacts hlive =>
    obtain ⟨hw', hconf⟩ := hacts.wellFormed hw
    rw [hlive]
    exact ⟨hw', hacts.held hw hh, hconf⟩
  | free _ hfree hlive =>
    obtain ⟨hw', ⟨v, hv, ht, hstart, hsize, hd⟩, hconf⟩ := vmemXfree_drops hw hfree
    have hblock := hh.drops hw.layout hd hv ht
    rw [Seg.block, hstart, hsize] at hblock
    rw [hlive]
    exact ⟨hw', hblock, hconf⟩
  | unlink hmem ht hadv hlive =>
    obtain ⟨hw', hd, hconf⟩ := vmemAdvance_drops hw hmem ht hadv
    rw [hlive]
    exact ⟨hw', hh.drops_marker hd (by simp [ht]), hconf⟩
  | link hnew harena hlive =>
    rw [harena, hlive]
    exact ⟨vmemWalkInsert_wellFormed hw hnew, hh.walk fun hm => hnew (by simp [hm]), rfl⟩
  | stock hnew harena hlive =>
    rw [harena, hlive]
    exact ⟨vmemPutseg_wellFormed hw hnew, hh.keeps (Keeps.ofSame rfl rfl), rfl⟩

section

variable {op : Op} (h : s.Invariant) (hadm : op.Admissible s) (hok : op.InRange s)
  (hs : s.step op = some s')

include h hadm hok hs

theorem Sys.Invariant.calls_step : ∀ call ∈ s'.calls, call.Ready s.arena := by
  cases op with
  | add vaddr size =>
    obtain ⟨vmp, -, hs⟩ := bind_eq_some_iff.mp hs
    cases hs
    exact h.calls
  | extendAlloc vaddr size alloc =>
    obtain ⟨⟨vmp, addr⟩, -, hs⟩ := bind_eq_some_iff.mp hs
    cases hs
    exact h.calls
  | alloc size vmflag =>
    cases hs
    exact fun call hc =>
      (mem_append.mp hc).elim (allocCalls_ready hok call) (h.calls call)
  | xalloc x =>
    cases hs
    exact fun call hc => (mem_cons.mp hc).elim (fun he => he ▸ hok) (h.calls call)
  | resume call answer =>
    obtain ⟨hmem, hs⟩ := ite_none_right_eq_some.mp hs
    obtain ⟨⟨vmp, r⟩, hexec, hs⟩ := bind_eq_some_iff.mp hs
    cases hs
    have hr := h.calls call hmem
    have himp := (Call.exec_serves h.wellFormed h.source hr hadm hexec).2
    exact fun c hc => (mem_append.mp hc).elim
      (Call.rest_ready hr (Call.exec_ends hexec) himp c)
      fun hc => h.calls c (mem_of_mem_erase hc)
  | xfree vaddr size =>
    obtain ⟨⟨vmp, released⟩, -, hs⟩ := bind_eq_some_iff.mp hs
    cases hs
    exact h.calls
  | walk walker | advance walker afterme | putseg vsp =>
    cases hs
    exact h.calls

theorem Sys.Invariant.step : s'.Invariant := by
  obtain ⟨hw, hh, hconf⟩ := (h.change hadm hs).keeps h.wellFormed h.held
  refine ⟨hw, hh, fun call hc => (h.calls_step hadm hok hs call hc).congr hconf, ?_⟩
  rw [hconf]
  exact h.source

end

end

instance (vmp : Arena) (vaddr size : Word) : Decidable (NewSpan vmp vaddr size) :=
  decidable_of_iff (vaddr ≠ 0 ∧ size ≠ 0 ∧ vaddr.toNat + size.toNat ≤ 2 ^ 64 ∧
      ∀ sp ∈ vmp.kList, (vmp.segs sp).hi ≤ vaddr.toNat ∨
        vaddr.toNat + size.toNat ≤ (vmp.segs sp).lo)
    ⟨fun h => ⟨h.1, h.2.1, h.2.2.1, h.2.2.2⟩, fun h => ⟨h.1, h.2, h.3, h.4⟩⟩

instance (vmp : Arena) (vaddr size alloc : Word) : Decidable (ExtendArgs vmp vaddr size alloc) :=
  decidable_of_iff (NewSpan vmp vaddr size ∧ vaddr.toNat + size.toNat < 2 ^ 64 ∧
      vmp.vmQuantum.toNat ∣ vaddr.toNat ∧ vmp.vmQuantum.toNat ∣ size.toNat ∧ alloc ≠ 0 ∧
      alloc ≤ size)
    ⟨fun h => ⟨⟨h.1, h.2.1, h.2.2.1, h.2.2.2.1⟩, h.2.2.2.2.1, h.2.2.2.2.2⟩,
      fun h => ⟨h.1.1, h.1.2, h.1.3, h.1.4, h.2, h.3⟩⟩

instance (vmp : Arena) (asize vaddr size : Word) : Decidable (SourceBlock vmp asize vaddr size) :=
  decidable_of_iff (NewSpan vmp vaddr size ∧ (∀ sq ∈ vmp.vmSource, sq.toNat ∣ vaddr.toNat) ∧
      asize ≤ size)
    ⟨fun h => ⟨h.1, h.2.1, h.2.2⟩, fun h => ⟨h.1, h.2, h.3⟩⟩

instance (vmp : Arena) (answer : Block) : ∀ call : Call, Decidable (call.Answered vmp answer)
  | .instant _ _ | .nextfit _ _ | .search _ _ | .advanced _ _ | .xalloc _ =>
    inferInstanceAs (Decidable True)
  | .importing x asize _ => inferInstanceAs (Decidable (answer.addr ≠ 0 →
      SourceBlock vmp asize answer.addr answer.size ∧
      (vmp.vmcXalloc = false → answer.size = asize) ∧ ∀ sq ∈ vmp.vmSource, xallocAlign vmp x ≤ sq))

instance (vmp : Arena) (walker : SegId) (afterme : Option SegId) :
    Decidable (vmp.Place walker afterme) :=
  inferInstanceAs (Decidable (∀ after ∈ afterme, after ∈ seg0 :: vmp.aList ∧ after ≠ walker))

instance (s : Sys) : ∀ op : Op, Decidable (op.Admissible s)
  | .add vaddr size => inferInstanceAs (Decidable (NewSpan s.arena vaddr size))
  | .extendAlloc vaddr size len => inferInstanceAs (Decidable (ExtendArgs s.arena vaddr size len))
  | .alloc _ _ | .xalloc _ => inferInstanceAs (Decidable True)
  | .resume call answer => inferInstanceAs (Decidable (call.Answered s.arena answer))
  | .xfree vaddr size => inferInstanceAs (Decidable ((⟨vaddr, size⟩ : Block) ∈ s.live))
  | .walk walker => inferInstanceAs (Decidable (walker ∉ seg0 :: (_ ++ _)))
  | .advance walker afterme => inferInstanceAs (Decidable (walker ∈ s.arena.aList ∧
      (s.arena.segs walker).vsType = .walker ∧ s.arena.Place walker afterme))
  | .putseg vsp => inferInstanceAs (Decidable (vsp ∉ seg0 :: (_ ++ _)))

instance (vmp : Arena) (x : XallocArgs) : Decidable (x.Bounded vmp) :=
  inferInstanceAs (Decidable (_ ∧ _ ∨ ∃ bestfit firstfit nosleep,
    x = plainArgs vmp x.size bestfit firstfit nosleep))

instance (s : Sys) : ∀ op : Op, Decidable (op.InRange s)
  | .alloc size vmflag =>
    inferInstanceAs (Decidable (vmflag.vmNextfit = true → size ≠ 0 ∧ _ ≤ 2 ^ 64))
  | .xalloc x => inferInstanceAs (Decidable (x.Bounded s.arena))
  | .add _ _ | .extendAlloc _ _ _ | .resume _ _ | .xfree _ _ | .walk _ | .advance _ _
  | .putseg _ => inferInstanceAs (Decidable True)

/-- Segment structures for a new arena. -/
def stockOps : List Op := (List.range 8).map fun i => .putseg (i + 2)

variable {quantum : Word} {source : Option Word} {sourceFree xalloc : Bool} {qcacheMax : Word}

theorem Sys.create_invariant (hq : IsPow2 quantum) (hsq : ∀ sq ∈ source, IsPow2 sq) :
    (Sys.create quantum source sourceFree xalloc qcacheMax).Invariant where
  wellFormed := vmemCreate_wellFormed hq source sourceFree xalloc qcacheMax
  held := by
    refine ⟨fun b => ⟨by simp [Sys.create], ?_⟩, Pairwise.nil⟩
    rintro ⟨y, hy, ht, -⟩
    obtain rfl : y = vmRotor := by simpa [Sys.create, vmemCreate] using hy
    simp [Sys.create, vmemCreate] at ht
  calls := by simp [Sys.create]
  source := hsq

/-- In every run whose sizes, alignments and bounds are in range, the arena stays well formed and
no two live allocations overlap. -/
theorem run_sound (hq : IsPow2 quantum) (hsq : ∀ sq ∈ source, IsPow2 sq) {ops : List Op} {s : Sys}
    (h : Runs (Sys.Moves fun s op => op.Admissible s ∧ op.InRange s)
      (Sys.create quantum source sourceFree xalloc qcacheMax) ops s) : s.Sound := by
  have hinv := h.invariant (P := Sys.Invariant)
    (fun s op s' hs hm => hs.step hm.1.1 hm.1.2 hm.2) (Sys.create_invariant hq hsq)
  exact hinv.sound

def observe (s : Sys) : List Block × List Seg := (s.live, s.arena.kList.map s.arena.segs)

theorem not_sound_of_observe {s : Sys} {live : List Block} {spans : List Seg}
    (h : observe s = (live, spans))
    (hb : ∃ b ∈ live, ∀ sp ∈ spans, ¬ (sp.lo ≤ b.addr.toNat ∧ b.addr.toNat+b.size.toNat ≤ sp.hi)) :
    ¬ s.Sound := by
  cases h
  obtain ⟨b, hb, hout⟩ := hb
  intro hs
  obtain ⟨sp, hsp, hin⟩ := hs.in_span hb
  exact hout sp hsp hin

/-- A walker passes an allocation that meets every constraint of `vmem_xalloc`, next to one made
with the rotor. -/
theorem run_sound_example : ∃ s, Runs (Sys.Moves fun s op => op.Admissible s ∧ op.InRange s)
    (Sys.create 8 none false false 0) (stockOps ++ [.add 0x1000 0x1000,
      .alloc 24 ⟨true, false, false, true⟩, .resume (.nextfit 24 true) ⟨0, 0⟩,
      .xalloc ⟨64, 128, 32, 256, 0x1100, 0x1800, true, false, true⟩,
      .resume (.xalloc ⟨64, 128, 32, 256, 0x1100, 0x1800, true, false, true⟩) ⟨0, 0⟩,
      .walk 20, .advance 20 (some 1), .xfree 0x1000 24, .advance 20 none]) s ∧
    s.live = [⟨0x1120, 64⟩] ∧ s.Sound :=
  (exists_runs (P := fun s op => Op.Admissible s op ∧ Op.InRange s op) (f := Sys.step) _ _ Sys.live _
    (by decide +kernel)).imp fun _ h => ⟨h.1, h.2, run_sound ⟨3, by decide⟩ (by simp) h.1⟩

/-- A size that rounds up to zero, bounds that are crossed, and a size that leaves no room for the
alignment each make an allocation that overlaps another one or sticks out of its span. -/
theorem run_unsound :
    (∃ s, Runs (Sys.Moves fun s op => op.Admissible s) (Sys.create 8 none false false 0)
      (stockOps ++ [.add 0x1000 0x1000,
        .alloc 8 ⟨true, false, false, true⟩, .resume (.nextfit 8 true) ⟨0, 0⟩,
        .alloc (-1) ⟨true, false, false, true⟩, .resume (.nextfit (-1) true) ⟨0, 0⟩,
        .alloc 8 ⟨true, false, false, true⟩, .resume (.nextfit 8 true) ⟨0, 0⟩]) s ∧
      s.live = [⟨0x1008, 8⟩, ⟨0x1008, -1⟩, ⟨0x1000, 8⟩] ∧ ¬ s.Sound) ∧
    (∃ s, Runs (Sys.Moves fun s op => op.Admissible s) (Sys.create 8 none false false 0)
      (stockOps ++ [.add 0x1000 0x8000,
        .xalloc ⟨0x8000, 8, 0, 0, 0x5000, 0x3000, false, false, true⟩,
        .resume (.xalloc ⟨0x8000, 8, 0, 0, 0x5000, 0x3000, false, false, true⟩) ⟨0, 0⟩]) s ∧
      s.live = [⟨0x5000, 0x8000⟩] ∧ ¬ s.Sound) ∧
    (∃ s, Runs (Sys.Moves fun s op => op.Admissible s) (Sys.create 8 none false false 0)
      (stockOps ++ [.add 8 0xfffffffffffffff0,
        .xalloc ⟨0xfffffffffffff000, 0x2000, 0, 0, 0, 0, false, true, true⟩,
        .resume (.xalloc ⟨0xfffffffffffff000, 0x2000, 0, 0, 0, 0, false, true, true⟩) ⟨0, 0⟩]) s ∧
      s.live = [⟨0x2000, 0xfffffffffffff000⟩] ∧ ¬ s.Sound) := by
  refine ⟨?_, ?_, ?_⟩
  · refine (exists_runs (P := fun s op => Op.Admissible s op) (f := Sys.step) _ _ Sys.live _
      (by decide +kernel)).imp fun s h => ⟨h.1, h.2, fun hs => ?_⟩
    exact absurd (h.2 ▸ hs.held.apart) (by decide)
  · exact (exists_runs (P := fun s op => Op.Admissible s op) (f := Sys.step) _ _ observe
      ([⟨0x5000, 0x8000⟩], [⟨0x1000, 0x9000, .span, false⟩]) (by decide +kernel)).imp
      fun s h => ⟨h.1, congrArg Prod.fst h.2, not_sound_of_observe h.2 (by decide)⟩
  · exact (exists_runs (P := fun s op => Op.Admissible s op) (f := Sys.step) _ _ observe
      ([⟨0x2000, 0xfffffffffffff000⟩], [⟨8, 0xfffffffffffffff8, .span, false⟩])
      (by decide +kernel)).imp
      fun s h => ⟨h.1, congrArg Prod.fst h.2, not_sound_of_observe h.2 (by decide)⟩

end Libumem.Vmem
