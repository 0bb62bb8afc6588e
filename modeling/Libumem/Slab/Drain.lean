import Libumem.Slab.Idle

/-!
# The end of a cache

`umem_cache_drain_slabs` walks over all slabs of a cache that is about to be destroyed, takes out those
without buffers in use and destroys them after it has dropped the lock.
-/

namespace Libumem.Slab
open List Option Arith Lib
variable {g : Geom} {s : State} {ly : Layout} {sp : Word}
section
variable (g : Geom)

/-- One turn of the walk: the state, the slabs to destroy and the number of buffers that are out. -/
def drainTurn (r : State × List Word × Int) (sp : Word) : State × List Word × Int :=
  if (r.1.slabs sp).slabRefcnt ≠ 0 then (r.1, r.2.1, r.2.2 + (r.1.slabs sp).slabRefcnt)
  else (retireSlab r.1 sp, sp :: r.2.1, r.2.2)

/-- The walk from the front of the list to its end, with `n` turns left. -/
def drainWalk : Nat → Word → State × List Word × Int → State × List Word × Int
  | 0, _, r => r
  | n + 1, sp, r => if sp = g.nullslab then r else drainWalk n (r.1.nextOf sp) (drainTurn r sp)

def destroySlabs (s : State) (list : List Word) : State :=
  list.foldl (fun s sp => (umemSlabDestroy g s sp).getD s) s

/-- `umem_cache_drain_slabs`: the state, and the number of buffers that it reports. -/
def umemCacheDrainSlabs (s : State) : State × Int :=
  let (s, list, outstanding) := drainWalk g s.buftotal (s.nextOf g.nullslab) (s, [], 0)
  (destroySlabs g s list, outstanding)

end

/-- The slabs of a list without buffers in use. -/
def empties (s : State) (l : List Word) : List Word :=
  l.filter fun sp => (s.slabs sp).slabRefcnt = 0

/-- The part of the walk that is still to come. The slabs behind it keep their place, and what is taken
out is destroyed in the other order. -/
theorem drainWalk_eq {kept rest : List Word} {n : Nat} {r : State × List Word × Int}
    (h : Inv g r.1 ly) (horder : ly.order = kept ++ rest) (hn : rest.length ≤ n) :
    ∃ s', drainWalk g n (rest.headD g.nullslab) r =
        (s', (empties r.1 rest).reverse ++ r.2.1,
          r.2.2+(rest.map fun sp => (r.1.slabs sp).slabRefcnt).sum) ∧
      (∃ ly', Inv g s' ly') ∧ s'.live = r.1.live ∧
      s'.dying = (empties r.1 rest).reverse ++ r.1.dying := by
  induction rest generalizing kept n r ly with
  | nil =>
    refine ⟨r.1, ?_, ⟨ly, h⟩, rfl, rfl⟩
    have hstop : drainWalk g n g.nullslab r = r := by
      cases n with
      | zero => rfl
      | succ n => exact if_pos rfl
    simp [hstop, empties]
  | cons sp rest ih =>
    obtain ⟨n, rfl⟩ : ∃ m, n = m+1 := ⟨n-1, by
      rw [length_cons] at hn
      omega⟩
    have hlen : rest.length ≤ n := Nat.le_of_succ_le_succ hn
    have hsp : sp ∈ ly.order := by simp [horder]
    have hcycle := h.cycle
    have hnd := h.order_nodup
    rw [horder] at hcycle hnd
    have hnext : r.1.nextOf sp = rest.headD g.nullslab := by
      rw [State.nextOf, hcycle.next_eq, getD_some]
    have hwalk : drainWalk g (n+1) ((sp :: rest).headD g.nullslab) r =
        drainWalk g n (rest.headD g.nullslab) (drainTurn r sp) := by
      rw [headD_cons, drainWalk, if_neg (h.ne_null (h.mem_live_of_order hsp)), hnext]
    rw [hwalk, map_cons, sum_cons]
    by_cases hrefcnt : (r.1.slabs sp).slabRefcnt = 0
    · have hturn : drainTurn r sp = (retireSlab r.1 sp, sp :: r.2.1, r.2.2) :=
        if_neg (not_not.mpr hrefcnt)
      have hused : ly.used sp = [] := by
        have := (h.slab sp (h.mem_live_of_order hsp)).refcnt
        rw [hrefcnt] at this
        exact length_eq_zero_iff.mp (by exact_mod_cast this.symm)
      have hnotkept : sp ∉ kept := fun hmem =>
        (nodup_append.mp hnd).2.2 sp hmem sp mem_cons_self rfl
      have horder' : (ly.retire sp).order = kept ++ rest := by
        rw [h.retire_order, horder, erase_append_right _ hnotkept, erase_cons_head]
      have hempties : empties r.1 (sp :: rest) = sp :: empties r.1 rest :=
        filter_cons_of_pos (by simp [hrefcnt])
      obtain ⟨s', heq, hinv, hlive, hdying⟩ := ih (r := (retireSlab r.1 sp, sp :: r.2.1, r.2.2))
        (h.retire hsp hused) horder' hlen
      rw [hturn, hempties, hrefcnt, Int.zero_add, reverse_cons, append_assoc, append_assoc]
      exact ⟨s', heq, hinv, hlive, hdying⟩
    · have hturn : drainTurn r sp = (r.1, r.2.1, r.2.2+(r.1.slabs sp).slabRefcnt) :=
        if_pos hrefcnt
      have hempties : empties r.1 (sp :: rest) = empties r.1 rest :=
        filter_cons_of_neg (by simp [hrefcnt])
      have horder' : ly.order = (kept ++ [sp]) ++ rest := by simp [horder]
      obtain ⟨s', heq, hinv, hlive, hdying⟩ :=
        ih (r := (r.1, r.2.1, r.2.2+(r.1.slabs sp).slabRefcnt)) h horder' hlen
      rw [hturn, hempties, ← Int.add_assoc]
      exact ⟨s', heq, hinv, hlive, hdying⟩

theorem mem_destroySlabs (h : Inv g s ly) {list : List Word} (hnd : list.Nodup)
    (hlist : ∀ sp ∈ list, sp ∈ s.dying) :
    sp ∈ (destroySlabs g s list).live ↔ sp ∈ s.live ∧ sp ∉ list := by
  induction list generalizing s with
  | nil => simp [destroySlabs]
  | cons a list ih =>
    obtain ⟨hnot, hnd⟩ := nodup_cons.mp hnd
    have ha : a ∈ s.dying := hlist a mem_cons_self
    obtain ⟨s', hdestroy⟩ : ∃ s', umemSlabDestroy g s a = some s' := ⟨_, if_pos ha⟩
    have hlive : s'.live = s.live.erase a := by
      rw [umemSlabDestroy, if_pos ha] at hdestroy
      rw [← some.inj hdestroy]
    have hdying : s'.dying = s.dying.erase a := by
      rw [umemSlabDestroy, if_pos ha] at hdestroy
      rw [← some.inj hdestroy]
    have hrest : destroySlabs g s (a :: list) = destroySlabs g s' list := by
      rw [destroySlabs, foldl_cons, hdestroy, getD_some, destroySlabs]
    have hothers : ∀ sp ∈ list, sp ∈ s'.dying := by
      intro sp hsp
      have hne : sp ≠ a := fun heq => hnot (heq ▸ hsp)
      rw [hdying, mem_erase_of_ne hne]
      exact hlist sp (mem_cons_of_mem _ hsp)
    rw [hrest, ih (umemSlabDestroy_inv h hdestroy) hnd hothers, hlive,
      h.live_nodup.mem_erase_iff, mem_cons, not_or]
    constructor
    · rintro ⟨⟨hne, hin⟩, hnotin⟩
      exact ⟨hin, hne, hnotin⟩
    · rintro ⟨hin, hne, hnotin⟩
      exact ⟨⟨hne, hin⟩, hnotin⟩

theorem Inv.mem_drained (h : Inv g s ly) (hbuilt : s.built = []) (hdying : s.dying = []) :
    sp ∈ (umemCacheDrainSlabs g s).1.live ↔ sp ∈ s.live ∧ (s.slabs sp).slabRefcnt ≠ 0 := by
  have hstart : s.nextOf g.nullslab = ly.order.headD g.nullslab := by
    rw [State.nextOf, h.cycle.path.next_start, getD_some]
  obtain ⟨s', heq, ⟨ly', h'⟩, hlive, hdying'⟩ := drainWalk_eq (r := (s, [], 0)) h
    (nil_append _).symm h.length_order_le
  have hdrain : (umemCacheDrainSlabs g s).1 = destroySlabs g s' (empties s ly.order).reverse := by
    rw [umemCacheDrainSlabs, hstart, heq]
    simp only [append_nil]
  have hnd : (empties s ly.order).reverse.Nodup := nodup_reverse.mpr (h.order_nodup.filter _)
  have hmem : sp ∈ s.live ↔ sp ∈ ly.order := by
    rw [h.live_perm.mem_iff, hbuilt, hdying]
    simp
  rw [hdrain, mem_destroySlabs h' hnd (by simp [hdying', hdying]), hlive]
  constructor
  · rintro ⟨hin, hnot⟩
    refine ⟨hin, fun hzero => hnot ?_⟩
    rw [mem_reverse]
    exact mem_filter.mpr ⟨hmem.mp hin, by simpa using hzero⟩
  · rintro ⟨hin, hne⟩
    refine ⟨hin, fun hmem => hne ?_⟩
    rw [mem_reverse] at hmem
    simpa using (mem_filter.mp hmem).2

theorem Inv.refcnt_ne_zero_iff (h : Inv g s ly) (hsp : sp ∈ s.live) :
    (s.slabs sp).slabRefcnt ≠ 0 ↔ ∃ buf ∈ s.held, buf ∈ g.chunkStarts (s.slabs sp) := by
  have hok := h.slab sp hsp
  rw [hok.refcnt]
  constructor
  · intro hne
    have hused : ly.used sp ≠ [] := fun hnil => hne (by rw [hnil]; rfl)
    obtain ⟨bcp, hb⟩ := exists_mem_of_ne_nil _ hused
    exact ⟨s.addrOf g bcp, (h.held _).mpr ⟨sp, hsp, bcp, hb, rfl⟩,
      hok.addr_mem (mem_append_right _ hb)⟩
  · rintro ⟨buf, hheld, hchunk⟩ hzero
    obtain ⟨sp', hsp', bcp, hb, rfl⟩ := (h.held buf).mp hheld
    obtain rfl := h.chunk_unique hsp hsp' hchunk ((h.slab sp' hsp').addr_mem (mem_append_right _ hb))
    have hnil : ly.used sp = [] := length_eq_zero_iff.mp (by exact_mod_cast hzero)
    rw [hnil] at hb
    simp at hb

end Libumem.Slab
