import Libumem.Slab.Put

/-!
# A pass over the idle slabs

`umem_cache_reclaim_pages` gives every slab one turn, from the last one of the list to the first, and
takes out slabs while it walks.
-/

namespace Libumem.Slab
open List Option Arith Lib
variable {g : Geom} {s : State} {ly : Layout} {sp : Word}

def Layout.Shaped (ly : Layout) : Prop := ∀ sp ∈ ly.front, ly.free sp = []

theorem Layout.Shaped.retire (h : ly.Shaped) (sp : Word) : (ly.retire sp).Shaped := by
  intro sp' hsp'
  exact h sp' (mem_of_mem_erase hsp')

section

variable (interval delay : BitVec 32)

include interval delay

theorem reclaimTurn_inv {r : State × List Word} (h : Inv g r.1 ly) (hsp : sp ∈ ly.order) :
    Inv g (reclaimTurn interval delay sp r).1 ly ∨
      Inv g (reclaimTurn interval delay sp r).1 (ly.retire sp) := by
  unfold reclaimTurn
  dsimp only
  split
  · exact .inl h
  · rename_i hrefcnt
    have hused : ly.used sp = [] := by
      have := (h.slab sp (h.mem_live_of_order hsp)).refcnt
      rw [not_not.mp hrefcnt] at this
      exact length_eq_zero_iff.mp (by exact_mod_cast this.symm)
    split
    · split
      · exact .inl (h.restate sp fun sl => ⟨_, _, rfl⟩)
      · exact .inl (h.restate sp fun sl => ⟨_, _, rfl⟩)
    · have hidle : Inv g (r.1.setSlab sp fun sl =>
          { sl with slabIdleTime := (r.1.slabs sp).slabIdleTime+interval }) ly :=
        h.restate sp fun sl => ⟨_, _, rfl⟩
      split
      · exact .inr (hidle.retire hsp hused)
      · exact .inl hidle
    · exact .inl h

theorem reclaimTurn_links (sp : Word) (r : State × List Word) :
    (reclaimTurn interval delay sp r).1.links = r.1.links ∨
      (reclaimTurn interval delay sp r).1.links = r.1.links.bypass sp := by
  unfold reclaimTurn
  dsimp only
  split
  · exact .inl rfl
  · split
    · split <;> exact .inl rfl
    · split
      · exact .inr rfl
      · exact .inl rfl
    · exact .inl rfl

theorem reclaimWalk_eq_foldr {pre post : List Word} {r : State × List Word} {n : Nat}
    (h : r.1.links.Cycle g.nullslab (pre ++ post)) (hn : pre.length ≤ n) :
    reclaimWalk g interval delay n (pre.getLastD g.nullslab) r =
      pre.foldr (reclaimTurn interval delay) r := by
  induction pre using reverseRecOn generalizing post r n with
  | nil =>
    cases n with
    | zero => rfl
    | succ n => exact if_pos rfl
  | append_singleton pre sp ih =>
    rw [length_append, length_singleton] at hn
    obtain ⟨n, rfl⟩ : ∃ m, n = m+1 := ⟨n-1, by omega⟩
    rw [append_assoc, singleton_append] at h
    have hne : sp ≠ g.nullslab := by
      rintro rfl
      have := h.nodup
      simp at this
    have hprev : r.1.prevOf sp = pre.getLastD g.nullslab := by
      rw [State.prevOf, h.prev_eq, getD_some]
    rw [getLastD_concat, reclaimWalk, if_neg hne, hprev, foldr_append, foldr_cons, foldr_nil]
    rcases reclaimTurn_links interval delay sp r with hlinks | hlinks
    · exact ih (hlinks ▸ h) (by omega)
    · exact ih (hlinks ▸ h.bypass) (by omega)

theorem reclaimTurns_inv {pre post : List Word} {r : State × List Word} (h : Inv g r.1 ly)
    (horder : ly.order = pre ++ post) :
    ∃ ly', Inv g (pre.foldr (reclaimTurn interval delay) r).1 ly' ∧
      (ly.Shaped → ly'.Shaped) ∧ ly'.lost = ly.lost := by
  induction pre using reverseRecOn generalizing post r ly with
  | nil => exact ⟨ly, h, id, rfl⟩
  | append_singleton pre sp ih =>
    rw [append_assoc, singleton_append] at horder
    have hsp : sp ∈ ly.order := by simp [horder]
    rw [foldr_append, foldr_cons, foldr_nil]
    rcases reclaimTurn_inv interval delay h hsp with hturn | hturn
    · exact ih hturn horder
    · obtain ⟨ly', hinv, hshape, hlost⟩ := ih hturn (h.retire_order_split horder)
      exact ⟨ly', hinv, fun h => hshape (h.retire sp), hlost⟩

end

theorem startReclaim_eq {order : List Word} (h : s.links.Cycle g.nullslab order)
    (hlen : order.length ≤ s.buftotal) {interval delay : BitVec 32} {s' : State}
    (heq : startReclaim g interval delay s = some s') :
    s.reclaimList = none ∧
      s' = { (order.foldr (reclaimTurn interval delay) (s, [])).1 with
        reclaimList := some (order.foldr (reclaimTurn interval delay) (s, [])).2 } := by
  unfold startReclaim at heq
  split at heq
  case isFalse => simp at heq
  rename_i hnone
  refine ⟨hnone, ?_⟩
  have hstart : s.prevOf g.nullslab = order.getLastD g.nullslab := by
    rw [State.prevOf, h.path.prev_end, getD_some]
  have hcycle : (s, ([] : List Word)).1.links.Cycle g.nullslab (order ++ []) := by
    rwa [append_nil]
  rw [hstart, reclaimWalk_eq_foldr interval delay hcycle hlen] at heq
  exact (some.inj heq).symm

theorem startReclaim_inv (h : Inv g s ly) {interval delay : BitVec 32} {s' : State}
    (heq : startReclaim g interval delay s = some s') :
    ∃ ly', Inv g s' ly' ∧ (ly.Shaped → ly'.Shaped) ∧ ly'.lost = ly.lost := by
  obtain ⟨-, rfl⟩ := startReclaim_eq h.cycle h.length_order_le heq
  obtain ⟨ly', hinv, hrest⟩ := reclaimTurns_inv interval delay (r := (s, [])) h
    (append_nil ly.order).symm
  exact ⟨ly', hinv.bookkeeping _ _ _ hinv.colors, hrest⟩

theorem finishReclaim_inv (h : Inv g s ly) {s' : State} (heq : finishReclaim s = some s') :
    Inv g s' ly := by
  unfold finishReclaim at heq
  obtain ⟨list, -, rfl⟩ := map_eq_some_iff.mp heq
  have hfold : Inv g (list.foldl (fun s sp => s.setSlab sp fun sl => { sl with slabState := .clean }) s)
      ly := by
    clear heq
    induction list generalizing s with
    | nil => exact h
    | cons sp list ih => exact ih (h.restate sp fun sl => ⟨_, _, rfl⟩)
  exact hfold.bookkeeping _ _ _ hfold.colors

end Libumem.Slab
