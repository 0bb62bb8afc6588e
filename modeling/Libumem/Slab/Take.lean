import Libumem.Slab.Layout

/-!
# Taking a buffer

What `umem_slab_alloc` does to a slab that has a free buffer.
-/

namespace Libumem.Slab
open Function List Arith Lib
variable {g : Geom} {s : State} {ly : Layout} {sp bcp : Word} {rest : List Word}

/-- The slab after the first bufctl of its list was taken. -/
def takenSlab (g : Geom) (s : State) (sp : Word) : UmemSlab :=
  let sl := reactivate (s.slabs sp)
  { sl with
    slabRefcnt := sl.slabRefcnt + 1
    slabHead := g.linkMangle sl.slabHead (s.bcNext sl.slabHead) }

theorem SlabOk.link_valid {used lost : List Word} (h : SlabOk g s sp (bcp :: rest) used lost) :
    g.umemSlabLinkValid (reactivate (s.slabs sp)) (g.linkMangle bcp (s.bcNext bcp)) = true := by
  have hchain := h.chain.2
  unfold Geom.umemSlabLinkValid
  cases rest with
  | nil =>
    have hnull : g.linkMangle bcp (s.bcNext bcp) = 0 := ptr_eq_none_iff.mp hchain
    simp [hnull]
  | cons b rest =>
    obtain ⟨hnext, -⟩ := ptr_eq_some_iff.mp hchain.1
    have hb : b ∈ (bcp :: b :: rest) ++ used := by simp
    rw [hnext, (h.bufctl b hb).2.1]
    by_cases hhash : g.hash = true
    · simp [hhash]
    · have hmem := h.addr_mem hb
      have hchunk := (Geom.slabChunk_iff h.span).mpr hmem
      unfold State.addrOf at hchunk
      rw [if_neg hhash] at hchunk
      have hsame : g.slabChunk (reactivate (s.slabs sp)) (b-g.bufctl) =
          g.slabChunk (s.slabs sp) (b-g.bufctl) := rfl
      rw [hsame, hchunk]
      simp

/-- The buffer is entered into the hash table and handed out. -/
def handOut (g : Geom) (s : State) (bcp : Word) : State :=
  { enterHash g s bcp with held := s.addrOf g bcp :: (enterHash g s bcp).held }

theorem takeBuffer_eq {used lost : List Word} (h : SlabOk g s sp (bcp :: rest) used lost) :
    takeBuffer g s sp = (handOut g
      { s with
        slabs := update s.slabs sp (takenSlab g s sp)
        freelist := if rest = [] then s.nextOf sp else s.freelist } bcp,
      some (s.addrOf g bcp)) := by
  have hhead : (s.slabs sp).slabHead = bcp := (ptr_eq_some_iff.mp h.chain.1).1
  have hlast : g.linkMangle bcp (s.bcNext bcp) = 0 ↔ rest = [] := by
    have hchain := h.chain.2
    cases rest with
    | nil => exact iff_of_true (ptr_eq_none_iff.mp hchain) rfl
    | cons b rest =>
      obtain ⟨hnext, hne⟩ := ptr_eq_some_iff.mp hchain.1
      exact iff_of_false (fun h0 => hne (hnext ▸ h0)) (by simp)
  have hreact : (reactivate (s.slabs sp)).slabHead = bcp := hhead
  unfold takeBuffer
  simp only [State.setSlab, update_self, hreact, h.link_valid, Bool.true_eq_false, if_false,
    update_idem, hlast]
  simp only [handOut, takenSlab, hreact]
  rfl

theorem handOut_freeLink {b : Word} (hne : b ≠ bcp) :
    (handOut g s bcp).freeLink g b = s.freeLink g b := by
  unfold handOut enterHash State.freeLink
  dsimp only
  split
  · rw [update_of_ne hne]
  · rfl

theorem handOut_table {entry : Word → Prop} (hhash : g.hash = true) (h : TableOk g s entry)
    (hnew : ¬ entry bcp) (hne : bcp ≠ 0) :
    TableOk g (handOut g s bcp) fun b => b = bcp ∨ entry b := by
  obtain ⟨buckets, hchain, hmem⟩ := h
  let i := s.hashIndex g (s.bcAddr bcp)
  have hstate : handOut g s bcp = { s with
      bcNext := update s.bcNext bcp (s.hashTable i)
      hashTable := update s.hashTable i bcp
      held := s.addrOf g bcp :: s.held } := by
    unfold handOut enterHash
    dsimp only
    rw [if_pos hhash, if_pos hhash]
  -- the old chains do not pass through the new entry
  have hold : ∀ j, Chain (handOut g s bcp).hashLink (ptr (s.hashTable j)) (buckets j) := by
    intro j
    apply (hchain j).congr
    intro b hb
    have hbne : b ≠ bcp := by
      rintro rfl
      exact hnew ((hmem b j).mp hb).1
    rw [hstate]
    simp only [State.hashLink, update_of_ne hbne]
  refine ⟨update buckets i (bcp :: buckets i), ?_, ?_⟩
  · intro j
    by_cases hj : j = i
    · subst hj
      rw [update_self]
      refine ⟨?_, ?_⟩
      · rw [hstate]
        simp only [update_self]
        exact ptr_of_ne hne
      · have hlink : (handOut g s bcp).hashLink bcp = ptr (s.hashTable i) := by
          rw [hstate]
          simp only [State.hashLink, update_self]
        rw [hlink]
        exact hold i
    · rw [update_of_ne hj]
      have htable : (handOut g s bcp).hashTable j = s.hashTable j := by
        rw [hstate]
        exact update_of_ne hj _ _
      rw [htable]
      exact hold j
  · intro b j
    have hindex : (handOut g s bcp).hashIndex g ((handOut g s bcp).bcAddr b) =
        s.hashIndex g (s.bcAddr b) := by
      rw [hstate]
      rfl
    rw [hindex]
    by_cases hj : j = i
    · subst hj
      rw [update_self, mem_cons, hmem]
      constructor
      · rintro (rfl | ⟨hentry, heq⟩)
        · exact ⟨.inl rfl, rfl⟩
        · exact ⟨.inr hentry, heq⟩
      · rintro ⟨rfl | hentry, heq⟩
        · exact .inl rfl
        · exact .inr ⟨hentry, heq⟩
    · rw [update_of_ne hj, hmem]
      constructor
      · rintro ⟨hentry, heq⟩
        exact ⟨.inr hentry, heq⟩
      · rintro ⟨rfl | hentry, heq⟩
        · exact absurd heq hj
        · exact ⟨hentry, heq⟩

/-- The first bufctl of a slab on the free list is taken. When it is the last one, the free list goes
on behind the slab. -/
def Layout.take (ly : Layout) (sp bcp : Word) (rest mid post : List Word) : Layout where
  front := if rest = [] then ly.front ++ (mid ++ [sp]) else ly.front
  back := if rest = [] then post else ly.back
  free := update ly.free sp rest
  used := update ly.used sp (bcp :: ly.used sp)
  lost := ly.lost

theorem Layout.take_order {mid post : List Word} (hback : ly.back = mid ++ sp :: post) :
    (ly.take sp bcp rest mid post).order = ly.order := by
  unfold Layout.order Layout.take
  split
  · simp [hback]
  · rfl

variable {mid post : List Word}

theorem SlabOk.taken {used lost : List Word} (h : SlabOk g s sp (bcp :: rest) used lost)
    {s' : State} (hslab : s'.slabs sp = takenSlab g s sp)
    (hlink : ∀ b, b ≠ bcp → s'.freeLink g b = s.freeLink g b)
    (haddr : ∀ b, s'.addrOf g b = s.addrOf g b) (hslabOf : ∀ b, s'.slabOf g b = s.slabOf g b) :
    SlabOk g s' sp rest (bcp :: used) lost := by
  have hhead : (s.slabs sp).slabHead = bcp := (ptr_eq_some_iff.mp h.chain.1).1
  have hnotmem : bcp ∉ rest := (nodup_cons.mp h.chain.nodup).1
  have hperm : (rest ++ bcp :: used).Perm (bcp :: rest ++ used) := perm_middle
  refine ⟨?_, ?_, ?_, ?_, ?_, ?_, ?_⟩
  · rw [hslab]
    exact h.cache
  · rw [hslab]
    exact ⟨h.span.chunks_pos, h.span.fits, h.span.bound⟩
  · rw [hslab]
    exact h.header
  · have hnext : (takenSlab g s sp).slabHead = g.linkMangle bcp (s.bcNext bcp) := by
      rw [← hhead]
      rfl
    rw [hslab, hnext]
    apply h.chain.2.congr
    intro b hb
    exact hlink b fun heq => hnotmem (heq ▸ hb)
  · rw [map_congr_left fun b _ => haddr b, hslab]
    exact ((hperm.map _).append_right _).trans h.tiles
  · have hrefcnt : (takenSlab g s sp).slabRefcnt = (s.slabs sp).slabRefcnt+1 := rfl
    rw [hslab, hrefcnt, h.refcnt, length_cons, Nat.cast_succ]
  · intro b hb
    rw [hslabOf]
    exact h.bufctl b (hperm.mem_iff.mp hb)

theorem Layout.mem_used_take {sp' b : Word} : b ∈ (ly.take sp bcp rest mid post).used sp' ↔
    (sp' = sp ∧ b = bcp) ∨ b ∈ ly.used sp' := by
  by_cases hne : sp' = sp
  · subst hne
    simp [Layout.take]
  · simp [Layout.take, hne]

section
variable (h : Inv g s ly) (hback : ly.back = mid ++ sp :: post)
include h hback

theorem Inv.take_freelist : (if rest = [] then s.nextOf sp else s.freelist) =
    (ly.take sp bcp rest mid post).back.headD g.nullslab := by
  rw [Layout.take]
  dsimp only
  split
  · have horder : ly.order = (ly.front ++ mid) ++ sp :: post := by simp [Layout.order, hback]
    have hcycle := h.cycle
    rw [horder] at hcycle
    rw [State.nextOf, hcycle.next_eq, Option.getD_some]
  · exact h.freelist

theorem Inv.take_back {sp' : Word} (hsp' : sp' ∈ (ly.take sp bcp rest mid post).back) :
    (ly.take sp bcp rest mid post).free sp' ≠ [] := by
  rw [Layout.take] at hsp' ⊢
  dsimp only at hsp' ⊢
  by_cases hne : sp' = sp
  · subst hne
    rw [update_self]
    intro hnil
    rw [if_pos hnil] at hsp'
    have hnd := h.order_nodup
    rw [Layout.order, hback] at hnd
    have := (nodup_append.mp (nodup_append.mp hnd).2.1).2.1
    exact (nodup_cons.mp this).1 hsp'
  · rw [update_of_ne hne]
    apply h.back
    split at hsp'
    · simp [hback, hsp']
    · exact hsp'

theorem Inv.mem_held_take {buf : Word} : buf ∈ s.addrOf g bcp :: s.held ↔
    ∃ sp' ∈ s.live, ∃ b ∈ (ly.take sp bcp rest mid post).used sp', s.addrOf g b = buf := by
  have hsp : sp ∈ s.live := h.mem_live_of_back (by simp [hback])
  rw [mem_cons, h.held]
  simp only [Layout.mem_used_take]
  constructor
  · rintro (rfl | ⟨sp', hsp', b, hb, rfl⟩)
    · exact ⟨sp, hsp, bcp, .inl ⟨rfl, rfl⟩, rfl⟩
    · exact ⟨sp', hsp', b, .inr hb, rfl⟩
  · rintro ⟨sp', hsp', b, ⟨-, rfl⟩ | hb, rfl⟩
    · exact .inl rfl
    · exact .inr ⟨sp', hsp', b, hb, rfl⟩

theorem Inv.take (hfree : ly.free sp = bcp :: rest) :
    Inv g (takeBuffer g s sp).1 (ly.take sp bcp rest mid post) := by
  have hspback : sp ∈ ly.back := by simp [hback]
  have hsp := h.mem_live_of_back hspback
  have hsporder : sp ∈ ly.order := mem_append_right _ hspback
  have hok := h.slab sp hsp
  rw [hfree] at hok
  have hbcp : bcp ≠ 0 := (hok.bufctl bcp (by simp)).1
  have hbfree : bcp ∈ ly.free sp := by simp [hfree]
  have hfreeSelf : (ly.take sp bcp rest mid post).free sp = rest := update_self _ _ _
  have husedSelf : (ly.take sp bcp rest mid post).used sp = bcp :: ly.used sp :=
    update_self _ _ _
  have hstate := congrArg Prod.fst (takeBuffer_eq hok)
  generalize (takeBuffer g s sp).1 = s' at hstate ⊢
  have hslabs : s'.slabs = update s.slabs sp (takenSlab g s sp) := hstate ▸ rfl
  have haddr : ∀ b, s'.addrOf g b = s.addrOf g b := fun _ => hstate ▸ rfl
  have hslabOf : ∀ b, s'.slabOf g b = s.slabOf g b := fun _ => hstate ▸ rfl
  have hlink : ∀ b, b ≠ bcp → s'.freeLink g b = s.freeLink g b := fun b hb =>
    hstate ▸ handOut_freeLink hb
  have hself : s'.slabs sp = takenSlab g s sp := by rw [hslabs, update_self]
  apply h.change_slab hsporder (hstate ▸ rfl) (hstate ▸ rfl) (hstate ▸ rfl) (hstate ▸ rfl)
    (hstate ▸ rfl) (hstate ▸ ⟨rfl, rfl⟩)
  case hsame =>
    intro sp' hne
    rw [hslabs, update_of_ne hne]
  case hbase =>
    rw [hself]
    rfl
  case hchunks =>
    rw [hself]
    rfl
  case haddr => exact haddr
  case hslabOf => exact hslabOf
  case hlink =>
    intro sp' hsp' hne b hb
    apply hlink
    rintro rfl
    exact hne (h.slab_unique hsp' hsp (mem_append_left _ hb) (mem_append_left _ hbfree))
  case hfree => exact fun sp' hne => update_of_ne hne _ _
  case hused => exact fun sp' hne => update_of_ne hne _ _
  case hlost => exact fun _ _ => rfl
  case hperm =>
    intro _
    rw [Layout.bufctls, Layout.bufctls, hfreeSelf, husedSelf, hfree]
    exact perm_middle
  case horder => rw [Layout.take_order hback]
  case hok =>
    rw [hfreeSelf, husedSelf]
    exact hok.taken hself hlink haddr hslabOf
  case hcycle =>
    rw [Layout.take_order hback]
    exact hstate ▸ h.cycle
  case hfreelist =>
    rw [hstate]
    exact h.take_freelist hback
  case hback => exact fun sp' => h.take_back hback
  case hheld =>
    rw [hstate]
    exact fun buf => h.mem_held_take hback
  case hnodup =>
    rw [hstate]
    exact nodup_cons.mpr ⟨h.free_notHeld hsp hbfree, h.held_nodup⟩
  case htable =>
    intro hhash
    have hnew : ¬ ∃ sp' ∈ s.live, bcp ∈ ly.used sp' := by
      rintro ⟨sp', hsp', hb⟩
      exact h.free_notUsed hsp hsp' hbfree hb
    have htable : TableOk g { s with
        slabs := update s.slabs sp (takenSlab g s sp)
        freelist := if rest = [] then s.nextOf sp else s.freelist } _ := h.table hhash
    rw [hstate]
    apply (handOut_table hhash htable hnew hbcp).congr
    intro b
    constructor
    · rintro (rfl | ⟨sp', hsp', hb⟩)
      · exact ⟨sp, hsp, Layout.mem_used_take.mpr (.inl ⟨rfl, rfl⟩)⟩
      · exact ⟨sp', hsp', Layout.mem_used_take.mpr (.inr hb)⟩
    · rintro ⟨sp', hsp', hb⟩
      rcases Layout.mem_used_take.mp hb with ⟨-, rfl⟩ | hb
      · exact .inl rfl
      · exact .inr ⟨sp', hsp', hb⟩

end

end Libumem.Slab
