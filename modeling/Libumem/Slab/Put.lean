import Libumem.Slab.Layout

/-!
# Giving a buffer back

What `umem_slab_free` does once it has found the bufctl and the slab of a buffer in use, and how the
hash table gives the bufctl up.
-/

namespace Libumem.Slab
open List Arith Lib
open scoped List
open Function
variable {g : Geom} {s : State} {ly : Layout} {sp bcp buf : Word}

theorem Inv.length_bucket_le (h : Inv g s ly) {l : List Word} (hnd : l.Nodup)
    (hused : ∀ b ∈ l, ∃ sp ∈ s.live, b ∈ ly.used sp) : l.length ≤ s.buftotal := by
  have hsub : l ⊆ ly.order.flatMap ly.used := by
    intro b hb
    obtain ⟨sp, hsp, hmem⟩ := hused b hb
    exact mem_flatMap.mpr ⟨sp, h.mem_order_of_used hsp hmem, hmem⟩
  have hle : ∀ sp ∈ ly.order, (ly.used sp).length ≤ (s.slabs sp).slabChunks := by
    intro sp hsp
    have := (h.slab sp (h.mem_live_of_order hsp)).length_add
    omega
  calc l.length ≤ (ly.order.flatMap ly.used).length := (subperm_of_subset hnd hsub).length_le
    _ = (ly.order.map fun sp => (ly.used sp).length).sum := length_flatMap
    _ ≤ (ly.order.map fun sp => (s.slabs sp).slabChunks).sum := sum_le_sum hle
    _ = s.buftotal := h.total.symm

theorem leaveHash_eq_none (h : Inv g s ly) (hhash : g.hash = true) (hbuf : buf ∉ s.held) :
    leaveHash g s buf = (s, none) := by
  obtain ⟨buckets, hchain, hmem⟩ := h.table hhash
  have hfind : chainFind (fun bcp => s.bcAddr bcp = buf) s.hashLink s.buftotal none
      (ptr (s.hashTable (s.hashIndex g buf))) = none := by
    apply (hchain (s.hashIndex g buf)).chainFind_eq_none
    intro b hb
    obtain ⟨⟨sp, hsp, hused⟩, -⟩ := (hmem b _).mp hb
    rw [decide_eq_false_iff_not]
    intro haddr
    apply hbuf
    rw [h.held]
    refine ⟨sp, hsp, b, hused, ?_⟩
    rw [State.addrOf, if_pos hhash, haddr]
  unfold leaveHash
  dsimp only
  rw [hfind]

/-- A bufctl leaves its bucket. -/
theorem mem_bucket_erase {buckets : Nat → List Word} {entry : Word → Prop} {index : Word → Nat}
    (hmem : ∀ b i, b ∈ buckets i ↔ entry b ∧ i = index b) {l m : List Word}
    (hsplit : buckets (index bcp) = l ++ bcp :: m) (hnot : bcp ∉ l ++ m) (b : Word) (j : Nat) :
    b ∈ update buckets (index bcp) (l ++ m) j ↔ (entry b ∧ b ≠ bcp) ∧ j = index b := by
  have hold := hmem b j
  by_cases hj : j = index bcp
  · subst hj
    rw [update_self]
    rw [hsplit] at hold
    constructor
    · intro hbm
      have hne : b ≠ bcp := fun heq => hnot (heq ▸ hbm)
      have hbin : b ∈ l ++ bcp :: m := by
        simp only [mem_append, mem_cons] at hbm ⊢
        tauto
      exact ⟨⟨(hold.mp hbin).1, hne⟩, (hold.mp hbin).2⟩
    · rintro ⟨⟨hentry, hne⟩, hindex⟩
      have := hold.mpr ⟨hentry, hindex⟩
      simp only [mem_append, mem_cons] at this ⊢
      tauto
  · rw [update_of_ne hj, hold]
    constructor
    · rintro ⟨hentry, hindex⟩
      refine ⟨⟨hentry, ?_⟩, hindex⟩
      rintro rfl
      exact hj hindex
    · rintro ⟨⟨hentry, -⟩, hindex⟩
      exact ⟨hentry, hindex⟩

/-- The bufctl of a buffer in use is found, and the table no longer holds it. Only links of other
buffers in use have changed. -/
theorem leaveHash_eq_some (h : Inv g s ly) (hhash : g.hash = true) (hsp : sp ∈ s.live)
    (hb : bcp ∈ ly.used sp) : ∃ next table,
      leaveHash g s (s.addrOf g bcp) = ({ s with bcNext := next, hashTable := table }, some bcp) ∧
      (∀ sp' ∈ s.live, ∀ b ∈ ly.free sp', next b = s.bcNext b) ∧
      TableOk g { s with bcNext := next, hashTable := table }
        fun b => (∃ sp' ∈ s.live, b ∈ ly.used sp') ∧ b ≠ bcp := by
  obtain ⟨buckets, hchain, hmem⟩ := h.table hhash
  let i := s.hashIndex g (s.bcAddr bcp)
  have haddr : s.addrOf g bcp = s.bcAddr bcp := if_pos hhash
  have hin : bcp ∈ buckets i := (hmem bcp i).mpr ⟨⟨sp, hsp, hb⟩, rfl⟩
  have hnd := (hchain i).nodup
  have hlen := h.length_bucket_le hnd fun b hb => ((hmem b i).mp hb).1
  obtain ⟨l, m, hsplit⟩ := append_of_mem hin
  rw [hsplit] at hnd hlen
  have hnotmem : bcp ∉ l ++ m := (nodup_cons.mp (nodup_middle.mp hnd)).1
  have hchaini := hchain i
  rw [hsplit] at hchaini
  have hfind : chainFind (fun b => s.bcAddr b = s.bcAddr bcp) s.hashLink s.buftotal none
      (ptr (s.hashTable i)) = some (bcp, l.getLast?) := by
    rw [hchaini.chainFind_eq_some (by simp at hlen; omega) _ (by simp), Option.or_none]
    intro b hbl
    rw [decide_eq_false_iff_not]
    intro heq
    have hbin : b ∈ buckets i := by simp [hsplit, hbl]
    obtain ⟨⟨sp', hsp', hused⟩, -⟩ := (hmem b i).mp hbin
    have : b = bcp := by
      apply h.addr_injective hsp' hsp (mem_append_right _ hused) (mem_append_right _ hb)
      rw [haddr, State.addrOf, if_pos hhash, heq]
    exact hnotmem (mem_append_left _ (this ▸ hbl))
  have hmem' := mem_bucket_erase hmem hsplit hnotmem
  rw [haddr]
  unfold leaveHash
  dsimp only
  rw [hfind]
  cases hlast : l.getLast? with
  | none =>
    obtain rfl := getLast?_eq_none_iff.mp hlast
    refine ⟨s.bcNext, _, rfl, fun _ _ _ _ => rfl, _, ?_, hmem'⟩
    intro j
    change Chain s.hashLink (ptr (update s.hashTable i (s.bcNext bcp) j)) _
    by_cases hj : j = i
    · subst hj
      rw [update_self, update_self]
      exact hchaini.2
    · rw [update_of_ne hj, update_of_ne hj]
      exact hchain j
  | some prev =>
    obtain ⟨l', rfl⟩ := getLast?_eq_some_iff.mp hlast
    have hprevin : prev ∈ buckets i := by simp [hsplit]
    obtain ⟨⟨spp, hspp, hpused⟩, hpindex⟩ := (hmem prev i).mp hprevin
    refine ⟨_, s.hashTable, rfl, ?_, _, ?_, hmem'⟩
    · intro sp' hsp' b hbfree
      apply update_of_ne
      rintro rfl
      -- the node in front is a bufctl in use
      exact h.free_notUsed hsp' hspp hbfree hpused
    · have hlink : State.hashLink { s with
          bcNext := update s.bcNext prev (s.bcNext bcp) } =
          update s.hashLink prev (s.hashLink bcp) := by
        funext b
        by_cases hbp : b = prev
        · subst hbp
          simp [State.hashLink]
        · simp [State.hashLink, update_of_ne hbp]
      intro j
      change Chain (State.hashLink { s with
          bcNext := update s.bcNext prev (s.bcNext bcp) }) (ptr (s.hashTable j)) _
      rw [hlink]
      by_cases hj : j = i
      · subst hj
        rw [update_self]
        simp only [append_assoc, singleton_append] at hchaini ⊢
        exact hchaini.unlink
      · rw [update_of_ne hj]
        apply (hchain j).congr
        intro b hbj
        apply update_of_ne
        rintro rfl
        exact hj (((hmem b j).mp hbj).2.trans hpindex.symm)

/-- A bufctl in use goes back to the list of its slab. A slab that had no free buffer moves to the
front of the free list. -/
def Layout.put (ly : Layout) (sp bcp : Word) : Layout where
  front := if ly.free sp = [] then ly.front.erase sp else ly.front
  back := if ly.free sp = [] then sp :: ly.back else ly.back
  free := update ly.free sp (bcp :: ly.free sp)
  used := update ly.used sp ((ly.used sp).erase bcp)
  lost := ly.lost

theorem Inv.mem_front (h : Inv g s ly) (hsp : sp ∈ ly.order) (hfree : ly.free sp = []) :
    sp ∈ ly.front := by
  rcases mem_append.mp hsp with hmem | hmem
  · exact hmem
  · exact absurd hfree (h.back sp hmem)

theorem Inv.put_order (h : Inv g s ly) (hsp : sp ∈ ly.order) : (ly.put sp bcp).order.Perm ly.order := by
  unfold Layout.order Layout.put
  dsimp only
  by_cases hfree : ly.free sp = []
  · rw [if_pos hfree, if_pos hfree]
    have hfront := (perm_cons_erase (h.mem_front hsp hfree)).symm
    exact perm_middle.trans (hfront.append_right ly.back)
  · rw [if_neg hfree, if_neg hfree]

theorem SlabOk.pushed {s' : State} {free used lost : List Word}
    (h : SlabOk g s sp free used lost) (hb : bcp ∈ used)
    (hslab : s'.slabs sp = { s.slabs sp with
      slabHead := bcp, slabRefcnt := (s.slabs sp).slabRefcnt-1 })
    (hself : s'.freeLink g bcp = ptr (s.slabs sp).slabHead)
    (hlink : ∀ b ∈ free, s'.freeLink g b = s.freeLink g b)
    (haddr : ∀ b, s'.addrOf g b = s.addrOf g b) (hslabOf : ∀ b, s'.slabOf g b = s.slabOf g b) :
    SlabOk g s' sp (bcp :: free) (used.erase bcp) lost := by
  have hused : used.Perm (bcp :: used.erase bcp) := perm_cons_erase hb
  have hperm : (bcp :: free ++ used.erase bcp).Perm (free ++ used) :=
    perm_middle.symm.trans (hused.symm.append_left free)
  refine ⟨?_, ?_, ?_, ?_, ?_, ?_, ?_⟩
  · rw [hslab]
    exact h.cache
  · rw [hslab]
    exact ⟨h.span.chunks_pos, h.span.fits, h.span.bound⟩
  · rw [hslab]
    exact h.header
  · rw [hslab]
    refine ⟨ptr_of_ne (h.bufctl bcp (mem_append_right _ hb)).1, ?_⟩
    rw [hself]
    exact h.chain.congr hlink
  · rw [map_congr_left fun b _ => haddr b, hslab]
    exact ((hperm.map _).append_right _).trans h.tiles
  · have hlen := hused.length_eq
    rw [length_cons] at hlen
    rw [hslab, h.refcnt, hlen, Nat.cast_succ, add_sub_cancel_right]
  · intro b hb
    rw [hslabOf]
    exact h.bufctl b (hperm.mem_iff.mp hb)

theorem Inv.put_freelist (h : Inv g s ly) (hsp : sp ∈ s.live) :
    (if (s.slabs sp).slabHead = 0 then sp else s.freelist) =
      (ly.put sp bcp).back.headD g.nullslab := by
  have hhead := (h.slab sp hsp).head_eq_zero_iff
  rw [Layout.put]
  dsimp only
  by_cases hnil : ly.free sp = []
  · rw [if_pos (hhead.mpr hnil), if_pos hnil, headD_cons]
  · rw [if_neg fun h0 => hnil (hhead.mp h0), if_neg hnil]
    exact h.freelist

theorem Inv.put_back (h : Inv g s ly) {sp' : Word} (hsp' : sp' ∈ (ly.put sp bcp).back) :
    (ly.put sp bcp).free sp' ≠ [] := by
  rw [Layout.put] at hsp' ⊢
  dsimp only at hsp' ⊢
  by_cases hne : sp' = sp
  · rw [hne, update_self]
    exact cons_ne_nil _ _
  · rw [update_of_ne hne]
    apply h.back sp'
    split at hsp'
    · exact (mem_cons.mp hsp').resolve_left hne
    · exact hsp'

section
variable (h : Inv g s ly) (hsp : sp ∈ s.live) (hb : bcp ∈ ly.used sp)
include h hsp hb

/-- A bufctl is in use afterwards when it was before and is another one. -/
theorem Inv.mem_used_put {sp' : Word} (hsp' : sp' ∈ s.live) (b : Word) :
    b ∈ (ly.put sp bcp).used sp' ↔ b ∈ ly.used sp' ∧ b ≠ bcp := by
  by_cases hne : sp' = sp
  · subst hne
    have hnodup := (nodup_append.mp (h.slab sp' hsp).bufctl_nodup).2.1
    simp only [Layout.put, update_self, hnodup.mem_erase_iff]
    exact and_comm
  · simp only [Layout.put, update_of_ne hne]
    refine ⟨fun hmem => ⟨hmem, ?_⟩, And.left⟩
    rintro rfl
    exact hne (h.slab_unique hsp' hsp (mem_append_right _ hmem) (mem_append_right _ hb))

theorem Inv.mem_held_put {buf : Word} : buf ∈ s.held.erase (s.addrOf g bcp) ↔
    ∃ sp' ∈ s.live, ∃ b ∈ (ly.put sp bcp).used sp', s.addrOf g b = buf := by
  have hused := fun {sp'} (hsp' : sp' ∈ s.live) => h.mem_used_put hsp hb hsp'
  rw [h.held_nodup.mem_erase_iff, h.held]
  constructor
  · rintro ⟨hne, sp', hsp', b, hmem, rfl⟩
    exact ⟨sp', hsp', b, (hused hsp' b).mpr ⟨hmem, fun heq => hne (heq ▸ rfl)⟩, rfl⟩
  · rintro ⟨sp', hsp', b, hmem, rfl⟩
    obtain ⟨hmem, hne⟩ := (hused hsp' b).mp hmem
    refine ⟨fun heq => hne ?_, sp', hsp', b, hmem, rfl⟩
    exact h.addr_injective hsp' hsp (mem_append_right _ hmem) (mem_append_right _ hb) heq

/-- A slab without a free buffer moves in front of the free list. -/
theorem Inv.put_cycle : (if (s.slabs sp).slabHead = 0 then
      (s.links.bypass sp).pushBack s.freelist sp else s.links).Cycle g.nullslab
    (ly.put sp bcp).order := by
  have hhead := (h.slab sp hsp).head_eq_zero_iff
  rw [Layout.order, Layout.put]
  dsimp only
  by_cases hnil : ly.free sp = []
  · rw [if_pos (hhead.mpr hnil), if_pos hnil, if_pos hnil, h.freelist]
    obtain ⟨pre, post, hfront⟩ := append_of_mem (h.mem_front (h.mem_order_of_used hsp hb) hnil)
    have hnd := h.order_nodup
    have hcycle := h.cycle
    rw [Layout.order, hfront, append_assoc, cons_append] at hnd hcycle
    have hnotpre : sp ∉ pre := fun hmem =>
      (nodup_append.mp hnd).2.2 sp hmem sp mem_cons_self rfl
    have hbypass := hcycle.bypass
    have hfresh := hcycle.nodup
    rw [← append_assoc] at hbypass
    rw [hfront, erase_append_right _ hnotpre, erase_cons_head]
    apply hbypass.insert
    rw [← cons_append, nodup_middle, nodup_cons] at hfresh
    simpa using hfresh.1
  · rw [if_neg fun h0 => hnil (hhead.mp h0), if_neg hnil, if_neg hnil]
    exact h.cycle

/-- The bufctl has left the hash table already. -/
theorem Inv.push {next : Word → Word} {table : Nat → Word}
    (hnext : ∀ sp' ∈ s.live, ∀ b ∈ ly.free sp', next b = s.bcNext b)
    (htable : g.hash = true → TableOk g { s with bcNext := next, hashTable := table }
      fun b => (∃ sp' ∈ s.live, b ∈ ly.used sp') ∧ b ≠ bcp) :
    Inv g (pushBuffer g { s with bcNext := next, hashTable := table } (s.addrOf g bcp) bcp sp)
      (ly.put sp bcp) := by
  have horder := h.mem_order_of_used hsp hb
  have hfreeSelf : (ly.put sp bcp).free sp = bcp :: ly.free sp := update_self _ _ _
  have husedSelf : (ly.put sp bcp).used sp = (ly.used sp).erase bcp := update_self _ _ _
  generalize hstate : pushBuffer g { s with bcNext := next, hashTable := table } (s.addrOf g bcp)
    bcp sp = s'
  have hslabs : s'.slabs = update s.slabs sp { s.slabs sp with
      slabHead := bcp, slabRefcnt := (s.slabs sp).slabRefcnt-1 } := hstate ▸ rfl
  have hbcNext : s'.bcNext =
      update next bcp (g.linkMangle bcp (s.slabs sp).slabHead) := hstate ▸ rfl
  have haddr : ∀ b, s'.addrOf g b = s.addrOf g b := fun _ => hstate ▸ rfl
  have hslabOf : ∀ b, s'.slabOf g b = s.slabOf g b := fun _ => hstate ▸ rfl
  have hlink : ∀ sp' ∈ s.live, ∀ b ∈ ly.free sp', s'.freeLink g b = s.freeLink g b := by
    intro sp' hsp' b hmem
    have hne : b ≠ bcp := fun heq => h.free_notUsed hsp' hsp (heq ▸ hmem) hb
    rw [State.freeLink, hbcNext, update_of_ne hne, hnext sp' hsp' b hmem, State.freeLink]
  apply h.change_slab horder (hstate ▸ rfl) (hstate ▸ rfl) (hstate ▸ rfl) (hstate ▸ rfl)
    (hstate ▸ rfl) (hstate ▸ ⟨rfl, rfl⟩)
  case hsame =>
    intro sp' hne
    rw [hslabs, update_of_ne hne]
  case hbase => rw [hslabs, update_self]
  case hchunks => rw [hslabs, update_self]
  case haddr => exact haddr
  case hslabOf => exact hslabOf
  case hlink => exact fun sp' hsp' _ => hlink sp' hsp'
  case hfree => exact fun sp' hne => update_of_ne hne _ _
  case hused => exact fun sp' hne => update_of_ne hne _ _
  case hlost => exact fun _ _ => rfl
  case hperm =>
    intro _
    rw [Layout.bufctls, Layout.bufctls, hfreeSelf, husedSelf]
    exact perm_middle.symm.trans ((perm_cons_erase hb).symm.append_left _)
  case horder => exact h.put_order horder
  case hok =>
    rw [hfreeSelf, husedSelf]
    apply (h.slab sp hsp).pushed hb _ _ (hlink sp hsp) haddr hslabOf
    · rw [hslabs, update_self]
    · rw [State.freeLink, hbcNext, update_self, Geom.linkMangle_linkMangle]
  case hcycle => exact hstate ▸ h.put_cycle hsp hb
  case hfreelist => exact hstate ▸ h.put_freelist hsp
  case hback => exact fun sp' => h.put_back
  case hheld => exact fun buf => hstate ▸ h.mem_held_put hsp hb
  case hnodup => exact hstate ▸ h.held_nodup.erase _
  case htable =>
    intro hhash
    apply ((htable hhash).congr_state (hstate ▸ rfl) (hstate ▸ rfl) _ fun _ _ => hstate ▸ rfl).congr
    · intro b
      constructor
      · rintro ⟨⟨sp', hsp', hmem⟩, hne⟩
        exact ⟨sp', hsp', (h.mem_used_put hsp hb hsp' b).mpr ⟨hmem, hne⟩⟩
      · rintro ⟨sp', hsp', hmem⟩
        obtain ⟨hmem, hne⟩ := (h.mem_used_put hsp hb hsp' b).mp hmem
        exact ⟨⟨sp', hsp', hmem⟩, hne⟩
    · rintro b ⟨-, hne⟩
      rw [hbcNext, update_of_ne hne]

end

/-- A slab leaves the list. -/
def Layout.retire (ly : Layout) (sp : Word) : Layout :=
  { ly with front := ly.front.erase sp, back := ly.back.erase sp }

theorem Inv.retire_order (h : Inv g s ly) : (ly.retire sp).order = ly.order.erase sp := by
  have hnd := nodup_append.mp h.order_nodup
  unfold Layout.retire Layout.order
  dsimp only
  by_cases hfront : sp ∈ ly.front
  · have hback : sp ∉ ly.back := fun hmem => hnd.2.2 sp hfront sp hmem rfl
    rw [erase_append_left _ hfront, erase_of_not_mem hback]
  · rw [erase_append_right _ hfront, erase_of_not_mem hfront]

theorem Inv.retire_order_split (h : Inv g s ly) {pre post : List Word}
    (horder : ly.order = pre ++ sp :: post) : (ly.retire sp).order = pre ++ post := by
  have hnd := h.order_nodup
  rw [horder] at hnd
  have hnotpre : sp ∉ pre := fun hmem =>
    (nodup_append.mp hnd).2.2 sp hmem sp mem_cons_self rfl
  rw [h.retire_order, horder, erase_append_right _ hnotpre, erase_cons_head]

section
variable (h : Inv g s ly) (hsp : sp ∈ ly.order)
include h hsp

theorem Inv.retire_cycle : (s.links.bypass sp).Cycle g.nullslab (ly.retire sp).order := by
  obtain ⟨pre, post, hsplit⟩ := append_of_mem hsp
  have hcycle := h.cycle
  rw [hsplit] at hcycle
  rw [h.retire_order_split hsplit]
  exact hcycle.bypass

theorem Inv.retire_freelist :
    (s.unlinkSlab sp).freelist = (ly.retire sp).back.headD g.nullslab := by
  change (if sp = s.freelist then s.nextOf sp else s.freelist) = _
  rw [h.freelist, Layout.retire]
  dsimp only
  cases hback : ly.back with
  | nil => exact if_neg (h.ne_null (h.mem_live_of_order hsp))
  | cons first rest =>
    rw [headD_cons]
    by_cases heq : sp = first
    · subst heq
      have hcycle := h.cycle
      rw [Layout.order, hback] at hcycle
      rw [if_pos rfl, erase_cons_head, State.nextOf, hcycle.next_eq, Option.getD_some]
    · rw [if_neg heq, erase_cons_tail (by simpa using fun h => heq h.symm), headD_cons]

theorem Inv.retire_total :
    s.buftotal-(s.slabs sp).slabChunks =
      ((ly.retire sp).order.map fun sp => (s.slabs sp).slabChunks).sum := by
  have hsum := sum_map_erase (fun sp => (s.slabs sp).slabChunks) hsp
  rw [h.retire_order, h.total]
  omega

theorem Inv.retire (hused : ly.used sp = []) : Inv g (retireSlab s sp) (ly.retire sp) := by
  have horder : (ly.retire sp).order = ly.order.erase sp := h.retire_order
  have hlive := h.mem_live_of_order hsp
  generalize hstate : retireSlab s sp = s'
  refine
    { cycle := ?_, live_perm := ?_, live_nodup := hstate ▸ h.live_nodup
      null_notMem := hstate ▸ h.null_notMem, null_head := hstate ▸ h.null_head, freelist := ?_
      back := ?_, slab := ?_, intact := hstate ▸ h.intact, apart := hstate ▸ h.apart, unused := ?_
      bufctls := hstate ▸ h.bufctls, held := hstate ▸ h.held
      held_nodup := hstate ▸ h.held_nodup, total := ?_, colors := hstate ▸ h.colors
      table := hstate ▸ h.table }
  · exact hstate ▸ h.retire_cycle hsp
  · have hprivate : s'.built ++ s'.dying = s.built ++ sp :: s.dying := hstate ▸ rfl
    have heq : s'.live = s.live := hstate ▸ rfl
    rw [hprivate, heq, horder]
    apply h.live_perm.trans
    calc ly.order ++ (s.built ++ s.dying)
        _ ~ sp :: ly.order.erase sp ++ (s.built ++ s.dying) :=
          (perm_cons_erase hsp).append_right _
        _ ~ ly.order.erase sp ++ sp :: (s.built ++ s.dying) := perm_middle.symm
        _ ~ ly.order.erase sp ++ (s.built ++ sp :: s.dying) := perm_middle.symm.append_left _
  · exact hstate ▸ h.retire_freelist hsp
  · intro sp' hsp'
    exact h.back sp' (mem_of_mem_erase hsp')
  · intro sp' hsp'
    rw [← hstate] at hsp' ⊢
    exact (h.slab sp' hsp').congr rfl rfl rfl rfl rfl (fun _ _ => rfl) (fun _ _ => rfl) fun _ _ => rfl
  · intro sp' hsp'
    have hprivate : s'.built ++ s'.dying = s.built ++ sp :: s.dying := hstate ▸ rfl
    rw [hprivate, perm_middle.mem_iff, mem_cons] at hsp'
    rcases hsp' with rfl | hsp'
    · exact hused
    · exact h.unused sp' hsp'
  · exact hstate ▸ h.retire_total hsp

end

theorem umemSlabFree_used (h : Inv g s ly) (hsp : sp ∈ s.live) (hb : bcp ∈ ly.used sp)
    (enabled : Bool) : ∃ s₁,
      (∃ next table, s₁ =
        pushBuffer g { s with bcNext := next, hashTable := table } (s.addrOf g bcp) bcp sp) ∧
      Inv g s₁ (ly.put sp bcp) ∧
      umemSlabFree g s (s.addrOf g bcp) enabled =
        if (s₁.slabs sp).slabRefcnt = 0 then
          if enabled then markDirty s₁ sp else retireSlab s₁ sp
        else s₁ := by
  have hok := h.slab sp hsp
  have hmem : bcp ∈ ly.free sp ++ ly.used sp := mem_append_right _ hb
  have hchunk : g.slabChunk (s.slabs sp) (s.addrOf g bcp) = true :=
    (Geom.slabChunk_iff hok.span).mpr (hok.addr_mem hmem)
  have hcheck : ¬ ((s.slabs sp).slabCache ≠ g.cp ∨
      g.slabChunk (s.slabs sp) (s.addrOf g bcp) = false) := by
    simp [hok.cache, hchunk]
  have hslabOf := (hok.bufctl bcp hmem).2.2
  unfold umemSlabFree findBufctl
  by_cases hhash : g.hash = true
  · obtain ⟨next, table, hleave, hnext, htable⟩ := leaveHash_eq_some h hhash hsp hb
    rw [State.slabOf, if_pos hhash] at hslabOf
    rw [if_pos hhash, hleave]
    refine ⟨_, ⟨next, table, rfl⟩, h.push hsp hb hnext fun _ => htable, ?_⟩
    simp only [Option.map_some, hslabOf]
    rw [if_neg hcheck]
    rfl
  · have haddr : s.addrOf g bcp+g.bufctl = bcp := by
      rw [State.addrOf, if_neg hhash, sub_add_cancel]
    have hslab : g.umemSlab (s.addrOf g bcp) = sp := by
      rw [State.slabOf, if_neg hhash] at hslabOf
      rw [State.addrOf, if_neg hhash, hslabOf]
    rw [if_neg hhash, haddr, hslab]
    have hpush : Inv g (pushBuffer g s (s.addrOf g bcp) bcp sp) (ly.put sp bcp) :=
      h.push hsp hb (fun _ _ _ _ => rfl) fun hhash' => absurd hhash' hhash
    refine ⟨_, ⟨s.bcNext, s.hashTable, rfl⟩, hpush, ?_⟩
    dsimp only
    rw [if_neg hcheck]
    rfl

def IsChunk (g : Geom) (s : State) (buf : Word) : Prop :=
  ∃ sp ∈ s.live, buf ∈ g.chunkStarts (s.slabs sp)

/-- Without a hash table the end of the page of an address is read as a slab header: it is one of a
slab of the cache, or names another cache. -/
def HeaderOk (g : Geom) (s : State) (buf : Word) : Prop :=
  g.hash = true ∨ g.umemSlab buf ∈ s.live ∨ (s.slabs (g.umemSlab buf)).slabCache ≠ g.cp

theorem umemSlabFree_foreign (h : Inv g s ly) (hheader : HeaderOk g s buf)
    (hbuf : ¬ IsChunk g s buf) (enabled : Bool) :
    umemSlabFree g s buf enabled = s := by
  unfold umemSlabFree findBufctl
  by_cases hhash : g.hash = true
  · have hnot : buf ∉ s.held := by
      intro hheld
      obtain ⟨sp, hsp, bcp, hb, rfl⟩ := (h.held buf).mp hheld
      exact hbuf ⟨sp, hsp, (h.slab sp hsp).addr_mem (mem_append_right _ hb)⟩
    rw [if_pos hhash, leaveHash_eq_none h hhash hnot]
    rfl
  · rw [if_neg hhash]
    apply if_pos
    rcases hheader.resolve_left hhash with hlive | hcache
    · right
      by_contra hchunk
      rw [Bool.not_eq_false] at hchunk
      exact hbuf ⟨_, hlive, (Geom.slabChunk_iff (h.slab _ hlive).span).mp hchunk⟩
    · exact .inl hcache

theorem umemSlabFree_notHeld (h : Inv g s ly) (hhash : g.hash = true) (hbuf : buf ∉ s.held)
    (enabled : Bool) : umemSlabFree g s buf enabled = s := by
  unfold umemSlabFree findBufctl
  rw [if_pos hhash, leaveHash_eq_none h hhash hbuf]
  rfl

end Libumem.Slab
