import Libumem.Update.Machine

/-!
# What the list operations keep

Each cache is inactive, has work requested or is active, and which of the three it is can be read
from its flags, from whether it is on the list and from whether a thread works on it. The
operations on the flags and the list keep that, for the threads as they are.
-/

namespace Libumem.Update
open List Lib
section
variable {f g : Uflags}

theorem active_iff : f &&& umuActive ≠ 0 ↔ f.getLsbD 31 = true := by
  have h : umuActive = BitVec.twoPow 32 31 := by decide
  rw [h, BitVec.and_twoPow]
  cases f.getLsbD 31 with
  | false => simp
  | true => simp

theorem notify_iff : f &&& umuNotify ≠ 0 ↔ f.getLsbD 27 = true := by
  have h : umuNotify = BitVec.twoPow 32 27 := by decide
  rw [h, BitVec.and_twoPow]
  cases f.getLsbD 27 with
  | false => simp
  | true => exact ⟨fun _ => rfl, fun _ => by decide⟩

theorem getLsbD_umuActive (i : Nat) : umuActive.getLsbD i = decide (i = 31) := by
  have h : umuActive = BitVec.twoPow 32 31 := by decide
  rw [h, BitVec.getLsbD_twoPow]
  simp [eq_comm]

theorem getLsbD_umuNotify (i : Nat) : umuNotify.getLsbD i = decide (i = 27) := by
  have h : umuNotify = BitVec.twoPow 32 27 := by decide
  rw [h, BitVec.getLsbD_twoPow]
  simp [eq_comm]

theorem getLsbD_clear {i : Nat} (hi : i<32) :
    (f &&& ~~~g).getLsbD i = (f.getLsbD i && !g.getLsbD i) := by
  rw [BitVec.getLsbD_and, BitVec.getLsbD_not, decide_eq_true hi, Bool.true_and]

/-- Some work is asked for. -/
def Asks (f : Uflags) : Prop := ∃ i, i ≠ 31 ∧ i ≠ 27 ∧ f.getLsbD i = true

theorem Asks.ne_zero (h : Asks f) : f ≠ 0 := by
  rintro rfl
  obtain ⟨i, -, -, hi⟩ := h
  simp at hi

theorem Asks.or (h : Asks f) : Asks (f ||| g) := by
  obtain ⟨i, h31, h27, hi⟩ := h
  exact ⟨i, h31, h27, by simp [hi]⟩

theorem Asks.clear (h : Asks f) (hg : ∀ i, i ≠ 31 → i ≠ 27 → g.getLsbD i = false) :
    Asks (f &&& ~~~g) := by
  obtain ⟨i, h31, h27, hi⟩ := h
  refine ⟨i, h31, h27, ?_⟩
  rw [getLsbD_clear (BitVec.lt_of_getLsbD hi), hi, hg i h31 h27]
  rfl

theorem Asks.clear_active (h : Asks f) : Asks (f &&& ~~~umuActive) :=
  h.clear fun i h31 _ => by rw [getLsbD_umuActive, decide_eq_false h31]

theorem Asks.clear_notify (h : Asks f) : Asks (f &&& ~~~umuNotify) :=
  h.clear fun i _ h27 => by rw [getLsbD_umuNotify, decide_eq_false h27]

theorem asks_of_ne_zero (h : f ≠ 0) (h31 : f.getLsbD 31 = false) (h27 : f.getLsbD 27 = false) :
    Asks f := by
  by_contra hno
  apply h
  apply BitVec.eq_of_getLsbD_eq
  intro i _
  rw [BitVec.ofNat_eq_ofNat, BitVec.getLsbD_zero]
  by_contra hi
  apply hno
  refine ⟨i, ?_, ?_, by simpa using hi⟩
  · rintro rfl
    exact hi h31
  · rintro rfl
    exact hi h27

end

/-- The three states of a cache, for its flags, whether it is on the list, and whether a thread
works on it. -/
inductive CacheState (f : Uflags) (linked worked : Prop) : Prop
  | inactive (flags : f = 0) (off : ¬ linked) (idle : ¬ worked)
  | requested (asks : Asks f) (unmarked : f.getLsbD 31 = false) (quiet : f.getLsbD 27 = false)
    (on : linked) (idle : ¬ worked)
  | active (asks : Asks f) (marked : f.getLsbD 31 = true) (off : ¬ linked) (busy : worked)

variable {α : Type*} [DecidableEq α]
section
variable (s : Sys α)

omit [DecidableEq α] in
@[simp] theorem uflags_assert (p : Bool) : (s.assert p).uflags = s.uflags := rfl

@[simp] theorem uflags_setUflags_self (cp : α) (f : Uflags) : (s.setUflags cp f).uflags cp = f := by
  simp [Sys.setUflags]

end

/-- The threads and what they share besides the flags and the list are the same. -/
structure SameThreads (s s' : Sys α) : Prop where
  caches : s'.caches = s.caches
  updateThr : s'.updateThr = s.updateThr
  stUpdateThr : s'.stUpdateThr = s.stUpdateThr
  reaping : s'.reaping = s.reaping
  lock : s'.lock = s.lock
  threads : s'.threads = s.threads

omit [DecidableEq α] in
theorem SameThreads.refl (s : Sys α) : SameThreads s s := ⟨rfl, rfl, rfl, rfl, rfl, rfl⟩

omit [DecidableEq α] in
theorem SameThreads.trans {s s' s'' : Sys α} (h : SameThreads s s') (h' : SameThreads s' s'') :
    SameThreads s s'' :=
  ⟨h'.caches.trans h.caches, h'.updateThr.trans h.updateThr, h'.stUpdateThr.trans h.stUpdateThr,
    h'.reaping.trans h.reaping, h'.lock.trans h.lock, h'.threads.trans h.threads⟩

/-- The list is a ring, every cache is in one of the three states, and no `ASSERT` has failed, where
`W` says which caches are worked on. -/
structure Listed (s : Sys α) (W : α → Prop) (l : List α) : Prop where
  ring : s.links.Ring none (l.map some)
  state : ∀ cp, CacheState (s.uflags cp) (cp ∈ l) (W cp)
  asserts : s.asserts = true

namespace Listed
variable {s : Sys α} {W W' : α → Prop} {l : List α} {cp : α}

omit [DecidableEq α] in
theorem next_eq_none_iff (h : Listed s W l) : s.links.next (some cp) = none ↔ cp ∉ l := by
  rw [h.ring.next_eq_none_iff]
  simp

omit [DecidableEq α] in
theorem linked_iff (h : Listed s W l) : s.linked cp = true ↔ cp ∈ l := by
  rw [Sys.linked, Option.isSome_iff_ne_none, ne_eq, h.next_eq_none_iff, not_not]

omit [DecidableEq α] in
theorem active_iff (h : Listed s W l) : s.uflags cp &&& umuActive ≠ 0 ↔ W cp := by
  rw [Update.active_iff]
  cases h.state cp with
  | inactive flags off idle => simp [flags, idle]
  | requested asks unmarked quiet on idle =>
    rw [unmarked]
    exact iff_of_false Bool.false_ne_true idle
  | active asks marked off busy => exact iff_of_true marked busy

omit [DecidableEq α] in
theorem not_mem_of_active (h : Listed s W l) (hw : W cp) : cp ∉ l := by
  cases h.state cp with
  | inactive flags off idle => exact absurd hw idle
  | requested asks unmarked quiet on idle => exact absurd hw idle
  | active asks marked off busy => exact off

theorem setUflags (h : Listed s W l) (hW : ∀ c, c ≠ cp → (W' c ↔ W c)) {f : Uflags}
    (hf : CacheState f (cp ∈ l) (W' cp)) : Listed (s.setUflags cp f) W' l where
  ring := h.ring
  state c := by
    by_cases hc : c = cp
    · subst hc
      simpa [Sys.setUflags] using hf
    · simpa [Sys.setUflags, hc, hW c hc] using h.state c
  asserts := h.asserts

omit [DecidableEq α] in
theorem assert (h : Listed s W l) {p : Bool} (hp : p = true) : Listed (s.assert p) W l where
  ring := h.ring
  state := h.state
  asserts := by simp [Sys.assert, h.asserts, hp]

theorem enqueue (h : Listed s W l) (hcp : cp ∉ l) (hw : ¬ W' cp) (hW : ∀ c, c ≠ cp → (W' c ↔ W c))
    {f : Uflags} (asks : Asks f) (unmarked : f.getLsbD 31 = false)
    (quiet : f.getLsbD 27 = false) : Listed ((s.setUflags cp f).enqueue cp) W' (l ++ [cp]) where
  ring := by
    rw [map_append]
    apply h.ring.pushBack
    simpa using hcp
  state c := by
    by_cases hc : c = cp
    · subst hc
      apply CacheState.requested
      · simpa [Sys.enqueue, Sys.setUflags] using asks
      · simpa [Sys.enqueue, Sys.setUflags] using unmarked
      · simpa [Sys.enqueue, Sys.setUflags] using quiet
      · simp
      · exact hw
    · simpa [Sys.enqueue, Sys.setUflags, hc, hW c hc] using h.state c
  asserts := h.asserts

theorem addUpdateUnlocked (h : Listed s W l) (cp : α) {flags : Uflags}
    (hflags : flags &&& umuNotify = 0) :
    (∃ l', Listed (s.addUpdateUnlocked cp flags) W l') ∧
      SameThreads s (s.addUpdateUnlocked cp flags) := by
  have h27 : (flags &&& ~~~umuActive).getLsbD 27 = false := by
    have : flags.getLsbD 27 = false := by
      exact Bool.eq_false_of_not_eq_true (mt notify_iff.mpr (not_not.mpr hflags))
    rw [getLsbD_clear (by decide), this, Bool.false_and]
  have h31 : (flags &&& ~~~umuActive).getLsbD 31 = false := by
    rw [getLsbD_clear (by decide), getLsbD_umuActive, decide_eq_true rfl, Bool.not_true,
      Bool.and_false]
  unfold Sys.addUpdateUnlocked
  dsimp only
  by_cases h0 : flags &&& ~~~umuActive = 0
  · rw [if_pos h0]
    exact ⟨⟨l, h⟩, .refl s⟩
  rw [if_neg h0]
  have hasks := asks_of_ne_zero h0 h31 h27
  by_cases hact : s.uflags cp &&& umuActive ≠ 0
  · rw [if_pos hact]
    refine ⟨⟨l, h.setUflags (fun _ _ => Iff.rfl) ?_⟩, ⟨rfl, rfl, rfl, rfl, rfl, rfl⟩⟩
    have hw := h.active_iff.mp hact
    apply CacheState.active
    · rw [BitVec.or_comm]
      exact hasks.or
    · rw [BitVec.getLsbD_or, Update.active_iff.mp hact, Bool.true_or]
    · exact h.not_mem_of_active hw
    · exact hw
  rw [if_neg hact]
  cases h.state cp with
  | inactive flags off idle =>
    have hl : ¬ s.linked cp = true := mt h.linked_iff.mp off
    rw [if_neg hl]
    refine ⟨⟨l ++ [cp], ?_⟩, ⟨rfl, rfl, rfl, rfl, rfl, rfl⟩⟩
    exact (h.assert (by simpa using flags)).enqueue off idle (fun _ _ => Iff.rfl) hasks h31 h27
  | requested asks unmarked quiet on idle =>
    rw [if_pos (h.linked_iff.mpr on)]
    refine ⟨⟨l, ?_⟩, ⟨rfl, rfl, rfl, rfl, rfl, rfl⟩⟩
    apply (h.assert (by simpa using asks.ne_zero)).setUflags (fun _ _ => Iff.rfl)
    apply CacheState.requested
    · exact asks.or
    · rw [BitVec.getLsbD_or, unmarked, h31]
      rfl
    · rw [BitVec.getLsbD_or, quiet, h27]
      rfl
    · exact on
    · exact idle
  | active asks marked off busy =>
    exact absurd (h.active_iff.mpr busy) hact

theorem updateall (h : Listed s W l) {flags : Uflags} (hflags : flags &&& umuNotify = 0) :
    (∃ l', Listed (s.updateall flags) W l') ∧ SameThreads s (s.updateall flags) := by
  unfold Sys.updateall
  generalize s.caches = cs
  induction cs generalizing s l with
  | nil => exact ⟨⟨l, h⟩, .refl s⟩
  | cons cp cs ih =>
    obtain ⟨⟨l', h'⟩, hsame⟩ := h.addUpdateUnlocked cp hflags
    obtain ⟨hl, hsame'⟩ := ih h'
    exact ⟨hl, hsame.trans hsame'⟩

theorem dequeue (pre post : List α) (h : Listed s W (pre ++ cp :: post)) {f : Uflags}
    (hW : ∀ c, c ≠ cp → (W' c ↔ W c)) (hf : CacheState f False (W' cp)) :
    Listed ((s.dequeue cp).setUflags cp f) W' (pre ++ post) where
  ring := by
    have hring := h.ring
    rw [map_append, map_cons] at hring
    rw [map_append]
    exact hring.unlink
  state c := by
    have hnd : (pre ++ cp :: post).Nodup :=
      List.Nodup.of_map some (nodup_cons.mp h.ring.nodup).2
    by_cases hc : c = cp
    · subst hc
      have hout : (c ∈ pre ++ post) = False := by
        rw [eq_iff_iff, iff_false, mem_append]
        rintro (hmem | hmem)
        · exact (nodup_append.mp hnd).2.2 c hmem c mem_cons_self rfl
        · exact (nodup_cons.mp (nodup_append.mp hnd).2.1).1 hmem
      rw [hout]
      simpa [Sys.dequeue, Sys.setUflags] using hf
    · have hmem : c ∈ pre ++ post ↔ c ∈ pre ++ cp :: post := by
        simp [hc]
      rw [hW c hc, hmem]
      simpa [Sys.dequeue, Sys.setUflags, hc] using h.state c
  asserts := h.asserts

section

variable (h : Listed s W l)

include h

/-- One turn of `umem_remove_updates`. When it returns, the cache is inactive. -/
theorem removeTurn {t : Tid}
    (hworker : W cp → (s.updateThr ≠ none ∨ s.stUpdateThr ≠ none) ∧ s.updateThr ≠ some t ∧
      s.stUpdateThr ≠ some t) :
    ∃ l', Listed (s.removeTurn t cp).1 W l' ∧ SameThreads s (s.removeTurn t cp).1 ∧
      ((s.removeTurn t cp).2 = true → (s.removeTurn t cp).1.uflags cp = 0 ∧ cp ∉ l') := by
  unfold Sys.removeTurn
  by_cases hact : s.uflags cp &&& umuActive ≠ 0
  · have hw := h.active_iff.mp hact
    obtain ⟨hthere, hself⟩ := hworker hw
    rw [if_pos hact]
    have hoff : s.linked cp = false :=
      Bool.eq_false_of_not_eq_true (mt h.linked_iff.mp (h.not_mem_of_active hw))
    have hstate : CacheState (s.uflags cp ||| umuNotify) (cp ∈ l) (W cp) := by
      cases h.state cp with
      | inactive flags off idle => exact absurd hw idle
      | requested asks unmarked quiet on idle => exact absurd hw idle
      | active asks marked off busy =>
        refine .active asks.or ?_ off busy
        rw [BitVec.getLsbD_or, marked, Bool.true_or]
    refine ⟨l, ?_, ⟨rfl, rfl, rfl, rfl, rfl, rfl⟩, ?_⟩
    · have h1 := (h.assert (p := !s.linked cp) (by rw [hoff]; rfl)).setUflags
        (fun _ _ => Iff.rfl) hstate
      have h2 := h1.assert (p := decide (s.updateThr ≠ none ∨ s.stUpdateThr ≠ none))
        (decide_eq_true hthere)
      exact h2.assert (p := decide (s.updateThr ≠ some t ∧ s.stUpdateThr ≠ some t))
        (decide_eq_true hself)
    · simp
  · rw [if_neg hact]
    have hidle : ¬ W cp := mt h.active_iff.mpr hact
    cases h.state cp with
    | inactive flags off idle =>
      have hoff : s.linked cp = false := Bool.eq_false_of_not_eq_true (mt h.linked_iff.mp off)
      dsimp only
      rw [hoff, if_neg Bool.false_ne_true]
      refine ⟨l, h.assert ?_, ⟨rfl, rfl, rfl, rfl, rfl, rfl⟩, fun _ => ⟨flags, off⟩⟩
      simp [hoff, flags]
    | requested asks unmarked quiet on idle =>
      obtain ⟨pre, post, rfl⟩ := append_of_mem on
      have h' := dequeue pre post h (fun _ _ => Iff.rfl) (.inactive rfl not_false hidle)
      have hflags : ((s.dequeue cp).setUflags cp 0).uflags cp = 0 := by
        simp [Sys.setUflags]
      have hout : cp ∉ pre ++ post := by
        cases h'.state cp with
        | inactive flags off idle => exact off
        | requested asks unmarked quiet on idle => exact absurd hflags asks.ne_zero
        | active asks marked off busy => exact off
      have hoff : ((s.dequeue cp).setUflags cp 0).linked cp = false :=
        Bool.eq_false_of_not_eq_true (mt h'.linked_iff.mp hout)
      dsimp only
      rw [if_pos (h.linked_iff.mpr on)]
      refine ⟨pre ++ post, h'.assert ?_, ⟨rfl, rfl, rfl, rfl, rfl, rfl⟩, fun _ => ⟨hflags, hout⟩⟩
      exact decide_eq_true ⟨by rw [hoff]; rfl, hflags⟩
    | active asks marked off busy => exact absurd busy hidle

theorem clearNotify (hw : W cp) :
    ∃ f, (if s.uflags cp &&& umuNotify ≠ 0 then s.setUflags cp (s.uflags cp &&& ~~~umuNotify)
      else s) = s.setUflags cp f ∧ Asks f ∧ f.getLsbD 31 = true ∧ f.getLsbD 27 = false := by
  have hbits : Asks (s.uflags cp) ∧ (s.uflags cp).getLsbD 31 = true := by
    cases h.state cp with
    | inactive flags off idle => exact absurd hw idle
    | requested asks unmarked quiet on idle => exact absurd hw idle
    | active asks marked off busy => exact ⟨asks, marked⟩
  obtain ⟨hasks, h31⟩ := hbits
  by_cases hn : s.uflags cp &&& umuNotify ≠ 0
  · refine ⟨s.uflags cp &&& ~~~umuNotify, if_pos hn, hasks.clear_notify, ?_, ?_⟩
    · rw [getLsbD_clear (by decide), h31, getLsbD_umuNotify]
      rfl
    · rw [getLsbD_clear (by decide), getLsbD_umuNotify, decide_eq_true rfl, Bool.not_true,
        Bool.and_false]
  · refine ⟨s.uflags cp, ?_, hasks, h31, Bool.eq_false_of_not_eq_true (mt notify_iff.mpr hn)⟩
    rw [if_neg hn, Sys.setUflags, Function.update_eq_self]

theorem releaseCache (cp : α) :
    (∃ l', Listed (s.releaseCache cp) (fun c => W c ∧ c ≠ cp) l') ∧
      SameThreads s (s.releaseCache cp) := by
  unfold Sys.releaseCache
  by_cases hw : W cp
  · obtain ⟨f, heq, hasks, h31, h27⟩ := h.clearNotify hw
    have hout := h.not_mem_of_active hw
    have h1 : Listed (s.setUflags cp f) W l :=
      h.setUflags (fun _ _ => Iff.rfl) (.active hasks h31 hout hw)
    have hnull := h1.ring.outside (some cp) (by simpa using hout)
    rw [heq]
    dsimp only
    rw [uflags_setUflags_self, if_pos (Update.active_iff.mpr h31)]
    refine ⟨⟨l ++ [cp], ?_⟩, ⟨rfl, rfl, rfl, rfl, rfl, rfl⟩⟩
    rw [uflags_assert, uflags_setUflags_self]
    apply (h1.assert (decide_eq_true hnull)).enqueue hout
    · simp
    · intro c hc
      simp [hc]
    · exact hasks.clear_active
    · rw [getLsbD_clear (by decide), getLsbD_umuActive, decide_eq_true rfl, Bool.not_true,
        Bool.and_false]
    · rw [getLsbD_clear (by decide), h27, Bool.false_and]
  · -- a cache that nobody works on has neither mark
    have hmarks : ¬ s.uflags cp &&& umuNotify ≠ 0 ∧ ¬ s.uflags cp &&& umuActive ≠ 0 := by
      refine ⟨?_, mt h.active_iff.mp hw⟩
      rw [notify_iff]
      cases h.state cp with
      | inactive flags off idle => simp [flags]
      | requested asks unmarked quiet on idle =>
        rw [quiet]
        exact Bool.false_ne_true
      | active asks marked off busy => exact absurd busy hw
    rw [if_neg hmarks.1, if_neg hmarks.2]
    have hW : (fun c => W c ∧ c ≠ cp) = W := by
      funext c
      rw [eq_iff_iff, and_iff_left_iff_imp]
      rintro hc rfl
      exact hw hc
    rw [hW]
    exact ⟨⟨l, h⟩, .refl s⟩

theorem releaseCaches (cs : List α) :
    (∃ l', Listed (cs.foldl Sys.releaseCache s) (fun c => W c ∧ c ∉ cs) l') ∧
      SameThreads s (cs.foldl Sys.releaseCache s) := by
  induction cs generalizing s W l with
  | nil =>
    simp only [not_mem_nil, not_false_eq_true, and_true, foldl_nil]
    exact ⟨⟨l, h⟩, .refl s⟩
  | cons cp cs ih =>
    obtain ⟨⟨l', h'⟩, hsame⟩ := h.releaseCache cp
    obtain ⟨hl, hsame'⟩ := ih h'
    simp only [mem_cons, not_or, ← and_assoc]
    exact ⟨hl, hsame.trans hsame'⟩

theorem outer (t : Tid) (inline : Bool) :
    (l = [] ∧ s.outer t inline = s.finish t inline) ∨
      ∃ cp uf s₁ l', cp ∈ l ∧ uf.getLsbD 31 = true ∧ SameThreads s s₁ ∧
        Listed s₁ (fun c => W c ∨ c = cp) l' ∧
        s.outer t inline = { s₁ with lock := none }.setThread t
          ⟨.working inline cp uf false, .nothing⟩ := by
  cases l with
  | nil =>
    left
    have hnext := h.ring.next_anchor
    refine ⟨rfl, ?_⟩
    rw [Sys.outer, hnext]
    rfl
  | cons cp l =>
    right
    have hnext := h.ring.next_anchor
    have hidle : Asks (s.uflags cp) ∧ (s.uflags cp).getLsbD 31 = false ∧ ¬ W cp := by
      cases h.state cp with
      | inactive flags off idle => exact absurd mem_cons_self off
      | requested asks unmarked quiet on idle => exact ⟨asks, unmarked, idle⟩
      | active asks marked off busy => exact absurd mem_cons_self off
    obtain ⟨hasks, h31, hidle⟩ := hidle
    have hmarked : (s.uflags cp ||| umuActive).getLsbD 31 = true := by
      rw [BitVec.getLsbD_or, getLsbD_umuActive, decide_eq_true rfl, Bool.or_true]
    have h' : Listed ((s.dequeue cp).setUflags cp (s.uflags cp ||| umuActive))
        (fun c => W c ∨ c = cp) l := by
      refine dequeue [] l h ?_ ?_
      · intro c hc
        simp [hc]
      · exact .active hasks.or hmarked not_false (.inr rfl)
    have hact : s.uflags cp &&& umuActive = 0 := by
      by_contra hne
      rw [Update.active_iff.mp hne] at h31
      simp at h31
    refine ⟨cp, s.uflags cp ||| umuActive, _, l, mem_cons_self, hmarked, ?_,
      h'.assert (decide_eq_true hact), ?_⟩
    · exact ⟨rfl, rfl, rfl, rfl, rfl, rfl⟩
    · rw [Sys.outer, hnext]
      exact if_neg hasks.ne_zero

/-- The end of the inner loop of `umem_process_updates`: the cache becomes inactive, or stays active
for what was asked in the meantime. -/
theorem worked (hw : W cp) (t : Tid) (inline notify : Bool) {uf : Uflags}
    (huf : uf.getLsbD 31 = true) :
    ∃ s₁, SameThreads s s₁ ∧
      ((Listed s₁ (fun c => W c ∧ c ≠ cp) l ∧ s.worked t inline cp uf notify =
        { s₁ with lock := some t }.setThread t ⟨.looping inline, .nothing⟩) ∨
      ∃ uf' notify', uf'.getLsbD 31 = true ∧ Listed s₁ W l ∧ s.worked t inline cp uf notify =
        { s₁ with lock := none }.setThread t ⟨.working inline cp uf' notify', .nothing⟩) := by
  have hout := h.not_mem_of_active hw
  unfold Sys.worked
  dsimp only
  generalize hasked : decide (s.uflags cp &&& umuNotify ≠ 0) = asked
  generalize huf' : (if asked = true then uf ||| umuNotify else uf) = uf'
  -- what is left has neither mark
  have h31 : (s.uflags cp &&& ~~~uf').getLsbD 31 = false := by
    have : uf'.getLsbD 31 = true := by
      rw [← huf']
      split
      · rw [BitVec.getLsbD_or, huf, Bool.true_or]
      · exact huf
    rw [getLsbD_clear (by decide), this, Bool.not_true, Bool.and_false]
  have h27 : (s.uflags cp &&& ~~~uf').getLsbD 27 = false := by
    rw [getLsbD_clear (by decide)]
    cases asked with
    | false =>
      have hn := mt notify_iff.mpr (of_decide_eq_false hasked)
      rw [Bool.eq_false_of_not_eq_true hn, Bool.false_and]
    | true =>
      rw [← huf', if_pos rfl, BitVec.getLsbD_or, getLsbD_umuNotify, decide_eq_true rfl,
        Bool.or_true, Bool.not_true, Bool.and_false]
  unfold Sys.inner
  rw [uflags_setUflags_self]
  by_cases h0 : s.uflags cp &&& ~~~uf' = 0
  · rw [if_pos h0]
    refine ⟨s.setUflags cp (s.uflags cp &&& ~~~uf'), ⟨rfl, rfl, rfl, rfl, rfl, rfl⟩, .inl ⟨?_, rfl⟩⟩
    apply h.setUflags
    · intro c hc
      simp [hc]
    · exact .inactive h0 hout (fun hc => hc.2 rfl)
  · rw [if_neg h0]
    have hasks := asks_of_ne_zero h0 h31 h27
    have hmarked : (s.uflags cp &&& ~~~uf' ||| umuActive).getLsbD 31 = true := by
      rw [BitVec.getLsbD_or, getLsbD_umuActive, decide_eq_true rfl, Bool.or_true]
    refine ⟨(s.setUflags cp (s.uflags cp &&& ~~~uf')).setUflags cp _,
      ⟨rfl, rfl, rfl, rfl, rfl, rfl⟩, .inr ⟨_, _, hmarked, ?_, rfl⟩⟩
    rw [Sys.setUflags, Sys.setUflags, Function.update_idem]
    exact h.setUflags (fun _ _ => Iff.rfl) (.active hasks.or hmarked hout hw)

end

end Listed
end Libumem.Update
