import Libumem.Vmem.Sections

/-!
# The blocks that callers hold

The blocks that have been allocated and not freed are the allocated segments of the arena. What a
critical section does to the fixed segments is therefore all that decides whether two blocks may
overlap.
-/

namespace Libumem.Vmem
open List Arith Lib

/-- Two blocks with no address in common. -/
def Block.Disjoint (a b : Block) : Prop :=
  a.addr.toNat + a.size.toNat ≤ b.addr.toNat ∨ b.addr.toNat + b.size.toNat ≤ a.addr.toNat

instance (a b : Block) : Decidable (a.Disjoint b) := inferInstanceAs (Decidable (_ ∨ _))

/-- The address range of a segment. -/
def Seg.block (vsp : Seg) : Block := ⟨vsp.vsStart, vsp.vsSize⟩

theorem Seg.Disjoint.block {a b : Seg} (h : a.Disjoint b) : a.block.Disjoint b.block := h

/-- `live` lists the allocated segments, no two of which overlap. -/
structure Held (vmp : Arena) (live : List Block) : Prop where
  mem : ∀ b, b ∈ live ↔ ∃ y ∈ vmp.aList, (vmp.segs y).vsType = .alloc ∧ (vmp.segs y).block = b
  apart : live.Pairwise Block.Disjoint

namespace Held
variable {vmp vmp' : Arena} {live : List Block} {x v : SegId} {addr size : Word}

theorem exists_alloc {b : Block} :
    (∃ y ∈ vmp.aList, (vmp.segs y).vsType = .alloc ∧ (vmp.segs y).block = b) ↔
      ∃ y, vmp.Fixed y ∧ (vmp.segs y).vsType = .alloc ∧ (vmp.segs y).block = b := by
  constructor
  · rintro ⟨y, hy, ht, h⟩
    exact ⟨y, ⟨hy, .inl ht⟩, ht, h⟩
  · rintro ⟨y, hy, h⟩
    exact ⟨y, hy.1, h⟩

theorem mem_fixed (h : Held vmp live) (b : Block) :
    b ∈ live ↔ ∃ y, vmp.Fixed y ∧ (vmp.segs y).vsType = .alloc ∧ (vmp.segs y).block = b :=
  (h.mem b).trans exists_alloc

theorem of_fixed
    (h : ∀ b, b ∈ live ↔ ∃ y, vmp.Fixed y ∧ (vmp.segs y).vsType = .alloc ∧ (vmp.segs y).block = b)
    (hd : live.Pairwise Block.Disjoint) : Held vmp live :=
  ⟨fun b => (h b).trans exists_alloc.symm, hd⟩

theorem congr (h : Held vmp live)
    (hf : ∀ y, vmp'.Fixed y ∧ (vmp'.segs y).vsType = .alloc ↔
      vmp.Fixed y ∧ (vmp.segs y).vsType = .alloc)
    (hs : ∀ y, vmp.Fixed y → (vmp.segs y).vsType = .alloc → vmp'.segs y = vmp.segs y) :
    Held vmp' live := by
  refine of_fixed (fun b => ?_) h.apart
  rw [h.mem_fixed]
  refine exists_congr fun y => ?_
  rw [← and_assoc, ← and_assoc, hf]
  exact and_congr_right fun hy => by rw [hs y hy.1 hy.2]

theorem keeps (h : Held vmp live) (hk : Keeps vmp vmp') : Held vmp' live := by
  refine h.congr (fun y => ?_) fun y hy _ => hk.segs y hy
  rw [hk.fixed]
  exact and_congr_right fun hy => by rw [hk.segs y hy]

theorem adds (h : Held vmp live) (hL : Layout vmp') (ha : Adds vmp vmp' x addr size) :
    Held vmp' (⟨addr, size⟩ :: live) := by
  have hx : vmp'.Fixed x := (ha.fixed x).mpr (.inl rfl)
  have hblock : (vmp'.segs x).block = ⟨addr, size⟩ := by
    have hsize : addr+size-addr = size := by bv_omega
    rw [Seg.block, Seg.vsSize, ha.start, ha.stop, hsize]
  have hold : ∀ b ∈ live, ∃ y, y ≠ x ∧ vmp'.Fixed y ∧ (vmp'.segs y).vsType = .alloc ∧
      (vmp'.segs y).block = b := fun b hb => by
    obtain ⟨y, hy, ht, hyb⟩ := (h.mem_fixed b).mp hb
    refine ⟨y, ?_, (ha.fixed y).mpr (.inr hy), ?_, ?_⟩
    · rintro rfl
      exact ha.new hy
    · rw [ha.segs y hy, ht]
    · rw [ha.segs y hy, hyb]
  refine of_fixed (fun b => ?_) (pairwise_cons.mpr ⟨fun b hb => ?_, h.apart⟩)
  · constructor
    · rintro hb
      rcases mem_cons.mp hb with rfl | hb
      · exact ⟨x, hx, ha.type, hblock⟩
      · obtain ⟨y, -, hy⟩ := hold b hb
        exact ⟨y, hy⟩
    · rintro ⟨y, hy, ht, rfl⟩
      rcases (ha.fixed y).mp hy with rfl | hy
      · simp [hblock]
      · rw [ha.segs y hy] at ht ⊢
        exact mem_cons_of_mem _ ((h.mem_fixed _).mpr ⟨y, hy, ht, rfl⟩)
  · obtain ⟨y, hne, hy, ht, rfl⟩ := hold b hb
    rw [← hblock]
    exact (hL.apart hx.1 hy.1 hne.symm (.inl ha.type) (.inl ht)).block

theorem eq_of_block (hL : Layout vmp) {a b : SegId} (ha : a ∈ vmp.aList) (hb : b ∈ vmp.aList)
    (hta : (vmp.segs a).vsType = .alloc) (htb : (vmp.segs b).vsType = .alloc)
    (h : (vmp.segs a).block = (vmp.segs b).block) : a = b := by
  by_contra hne
  have hd := (hL.apart ha hb hne (.inl hta) (.inl htb)).block
  obtain ⟨pre, post, hl⟩ := append_of_mem hb
  obtain ⟨s, t, -, hs, -⟩ := hL.scan_at hl
  have hpos : 0 < (vmp.segs b).vsSize.toNat := ((Scan.step_alloc htb).mp hs).1.len_pos
  rw [h] at hd
  simp only [Block.Disjoint, Seg.block] at hd
  omega

theorem nodup (h : Held vmp live) (hL : Layout vmp) : live.Nodup := by
  refine h.apart.imp_of_mem fun {a b} ha _ hd => ?_
  rintro rfl
  obtain ⟨y, hy, ht, rfl⟩ := (h.mem a).mp ha
  obtain ⟨pre, post, hl⟩ := append_of_mem hy
  obtain ⟨s, t, -, hs, -⟩ := hL.scan_at hl
  have hpos : 0 < (vmp.segs y).vsSize.toNat := ((Scan.step_alloc ht).mp hs).1.len_pos
  simp only [Block.Disjoint, Seg.block] at hd
  omega

theorem drops (h : Held vmp live) (hL : Layout vmp) (hd : Drops vmp vmp' v) (hv : v ∈ vmp.aList)
    (ht : (vmp.segs v).vsType = .alloc) : Held vmp' (live.erase (vmp.segs v).block) := by
  refine of_fixed (fun b => ?_) (h.apart.sublist erase_sublist)
  rw [(h.nodup hL).mem_erase_iff, h.mem_fixed]
  constructor
  · rintro ⟨hne, y, hy, hty, rfl⟩
    have hyv : y ≠ v := by
      rintro rfl
      exact hne rfl
    refine ⟨y, (hd.fixed y).mpr ⟨hyv, hy⟩, ?_⟩
    rw [hd.segs y hy hyv]
    exact ⟨hty, rfl⟩
  · rintro ⟨y, hy', hty, rfl⟩
    obtain ⟨hyv, hy⟩ := (hd.fixed y).mp hy'
    rw [hd.segs y hy hyv] at hty ⊢
    exact ⟨fun he => hyv (eq_of_block hL hy.1 hv hty ht he), y, hy, hty, rfl⟩

theorem drops_marker (h : Held vmp live) (hd : Drops vmp vmp' v)
    (ht : (vmp.segs v).vsType ≠ .alloc) : Held vmp' live := by
  have hne : ∀ y, (vmp.segs y).vsType = .alloc → y ≠ v := fun y hy he => ht (he ▸ hy)
  refine h.congr (fun y => ?_) fun y hy hty => hd.segs y hy (hne y hty)
  rw [hd.fixed]
  constructor
  · rintro ⟨⟨hyv, hy⟩, hty⟩
    rw [hd.segs y hy hyv] at hty
    exact ⟨hy, hty⟩
  · rintro ⟨hy, hty⟩
    rw [hd.segs y hy (hne y hty)]
    exact ⟨⟨hne y hty, hy⟩, hty⟩

end Held

theorem Acts.held {vmp vmp' : Arena} {a i r live : List Block} (h : Acts vmp vmp' a i r)
    (hw : WellFormed vmp) (hh : Held vmp live) : Held vmp' (a ++ live) := by
  induction h generalizing live with
  | count => exact hh.keeps (Keeps.ofSame rfl rfl)
  | alloc hv ht fits h =>
    obtain ⟨hw', hadds, -⟩ := vmemSegAlloc_adds hw hv ht fits h
    exact hh.adds hw'.layout hadds
  | advance hmem hm hplace => exact hh.keeps (vmemAdvance_keeps hw hmem hm hplace rfl).2.1
  | span _ hnew _ h => exact hh.keeps (vmemSpanCreate_keeps hw hnew h).2.1
  | extend _ hnew h => exact hh.keeps (vmemExtendUnlocked_extended hw hnew h).keeps
  | trans h _ ih ih' =>
    rw [append_assoc]
    exact ih' (h.wellFormed hw).1 (ih hw hh)

end Libumem.Vmem
