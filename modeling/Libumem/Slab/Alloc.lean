import Libumem.Slab.Take

/-!
# Which slab a buffer is taken from

`umem_slab_alloc` takes the first slab of the free list that is not being reclaimed, and wants a new
slab when there is none.
-/

namespace Libumem.Slab
open List Arith Lib
variable {g : Geom} {s : State} {ly : Layout}

theorem firstUsable_eq {pre l : List Word} (h : s.links.Cycle g.nullslab (pre ++ l))
    (hhead : ∀ sp ∈ l, (s.slabs sp).slabHead ≠ 0) {n : Nat} (hn : l.length ≤ n) :
    ∃ mid post, l = mid ++ post ∧ (∀ sp ∈ mid, (s.slabs sp).slabState = .reclaiming) ∧
      (∀ sp ∈ post.head?, (s.slabs sp).slabState ≠ .reclaiming) ∧
      firstUsable g s n (l.headD g.nullslab) = post.headD g.nullslab := by
  induction l generalizing pre n with
  | nil =>
    refine ⟨[], [], rfl, by simp, by simp, ?_⟩
    cases n with
    | zero => rfl
    | succ n => exact if_neg (by simp)
  | cons sp l ih =>
    cases n with
    | zero => simp at hn
    | succ n =>
      have hne : sp ≠ g.nullslab := by
        rintro rfl
        have := h.nodup
        simp at this
      by_cases hstate : (s.slabs sp).slabState = .reclaiming
      · have hcycle : s.links.Cycle g.nullslab ((pre ++ [sp]) ++ l) := by simpa using h
        obtain ⟨mid, post, rfl, hmid, hpost, hwalk⟩ := ih hcycle
          (fun sp' hsp' => hhead sp' (mem_cons_of_mem sp hsp')) (by simpa using hn)
        refine ⟨sp :: mid, post, rfl, ?_, hpost, ?_⟩
        · intro sp' hsp'
          rcases mem_cons.mp hsp' with rfl | hsp'
          · exact hstate
          · exact hmid sp' hsp'
        · have hnext : s.nextOf sp = (mid ++ post).headD g.nullslab := by
            rw [State.nextOf, h.next_eq, Option.getD_some]
          rw [headD_cons, firstUsable, if_pos ⟨hne, .inl hstate⟩, hnext, hwalk]
      · refine ⟨[], sp :: l, rfl, by simp, by simpa using hstate, ?_⟩
        rw [headD_cons, firstUsable, if_neg]
        rintro ⟨-, h0 | h0⟩
        · exact hstate h0
        · exact hhead sp mem_cons_self h0

theorem Inv.head_ne_zero (h : Inv g s ly) {sp : Word} (hsp : sp ∈ ly.back) :
    (s.slabs sp).slabHead ≠ 0 := by
  intro h0
  exact h.back sp hsp (((h.slab sp (h.mem_live_of_back hsp)).head_eq_zero_iff).mp h0)

/-- Either all slabs of the free list are being reclaimed, or the first other one is taken from. -/
theorem umemSlabAlloc_cases (h : Inv g s ly) :
    ((∀ sp ∈ ly.back, (s.slabs sp).slabState = .reclaiming) ∧
      umemSlabAlloc g s = ({ s with wanting := s.wanting+1 }, none)) ∨
    ∃ mid sp post, ly.back = mid ++ sp :: post ∧
      (∀ sp' ∈ mid, (s.slabs sp').slabState = .reclaiming) ∧
      (s.slabs sp).slabState ≠ .reclaiming ∧ umemSlabAlloc g s = takeBuffer g s sp ∧
      (mid ≠ [] → (s.slabs s.freelist).slabState = .reclaiming ∧
        firstUsable g s s.buftotal (s.nextOf s.freelist) = sp) := by
  unfold umemSlabAlloc
  dsimp only
  rw [h.freelist]
  cases hback : ly.back with
  | nil =>
    left
    refine ⟨by simp, ?_⟩
    rw [headD_nil, if_pos h.null_head]
  | cons sp post =>
    have hmem : ∀ sp' ∈ sp :: post, (s.slabs sp').slabHead ≠ 0 := fun sp' hsp' =>
      h.head_ne_zero (hback ▸ hsp')
    rw [headD_cons, if_neg (hmem sp mem_cons_self)]
    by_cases hstate : (s.slabs sp).slabState = .reclaiming
    · rw [if_pos hstate]
      have hcycle : s.links.Cycle g.nullslab ((ly.front ++ [sp]) ++ post) := by
        have := h.cycle
        rw [Layout.order, hback] at this
        simpa using this
      have hnext : s.nextOf sp = post.headD g.nullslab := by
        have := h.cycle
        rw [Layout.order, hback] at this
        rw [State.nextOf, this.next_eq, Option.getD_some]
      have hlen : post.length ≤ s.buftotal := by
        have := h.length_order_le
        simp only [Layout.order, hback, length_append, length_cons] at this
        omega
      obtain ⟨mid, rest, rfl, hmid, hrest, hwalk⟩ := firstUsable_eq hcycle
        (fun sp' hsp' => hmem sp' (mem_cons_of_mem sp hsp')) hlen
      rw [hnext, hwalk]
      cases rest with
      | nil =>
        left
        rw [headD_nil, if_pos (.inl rfl)]
        refine ⟨?_, rfl⟩
        intro sp' hsp'
        rcases mem_cons.mp hsp' with rfl | hsp'
        · exact hstate
        · exact hmid sp' (by simpa using hsp')
      | cons found rest =>
        right
        have hfound : found ∈ sp :: (mid ++ found :: rest) := by simp
        have hnull : found ≠ g.nullslab :=
          h.ne_null (h.mem_live_of_back (hback ▸ hfound))
        rw [headD_cons, if_neg]
        · refine ⟨sp :: mid, found, rest, rfl, ?_, hrest found rfl, rfl, fun _ => ⟨hstate, rfl⟩⟩
          intro sp' hsp'
          rcases mem_cons.mp hsp' with rfl | hsp'
          · exact hstate
          · exact hmid sp' hsp'
        · rintro (h0 | h0)
          · exact hnull h0
          · exact hmem found hfound h0
    · right
      rw [if_neg hstate]
      exact ⟨[], sp, post, rfl, by simp, hstate, rfl, fun h => absurd rfl h⟩

end Libumem.Slab
