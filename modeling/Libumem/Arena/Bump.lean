import Libumem.Arith.P2

/-!
# Bump arenas

`umem_arena.c` hands out the bytes of one mapping from its base on and takes them back all at once.
-/

namespace Libumem.UmemArena
open BitVec Arith Lib.Pow2

def sizeMax : Word := BitVec.allOnes 64

structure Arena where
  base : Word
  capacity : Word
  offset : Word
  deriving DecidableEq, Repr

/-- What `umem_arena_create` leads to. -/
inductive Created
  | null
  | exits
  | arena (a : Arena)
  deriving DecidableEq, Repr

/-- The page size for the answer of `sysconf`. -/
def pageSize (pgsz : Int) : Word := if pgsz ≤ 0 then 4096 else BitVec.ofInt 64 pgsz

def arenaPageRound (pgsz : Int) (sz : Word) : Word :=
  let p := pageSize pgsz
  if sz > sizeMax - (p - 1) then 0 else (sz + p - 1) &&& ~~~(p - 1)

/-- `header` says whether there is memory for the structure, and `mmap` is the mapping that is
given for a size, if there is one. -/
def umemArenaCreate (pgsz : Int) (header : Bool) (mmap : Word → Option Word) (capacity : Word)
    (nofail : Bool) : Created :=
  if capacity = 0 then .null
  else if header = false then .null
  else
    let mapSize := arenaPageRound pgsz capacity
    if mapSize = 0 then if nofail then .exits else .null
    else
      match mmap mapSize with
      | none => if nofail then .exits else .null
      | some mem => .arena ⟨mem, mapSize, 0⟩

/-- The result is zero where the code returns `NULL`. -/
def umemArenaAlloc (a : Arena) (size : Word) : Word × Arena :=
  if size = 0 then (0, a)
  else if size > sizeMax - 15 then (0, a)
  else
    let alignedSize := (size + 16 - 1) &&& ~~~(16 - 1)
    if alignedSize > a.capacity - a.offset then (0, a)
    else
      let newOffset := a.offset + alignedSize
      if newOffset > a.capacity then (0, a)
      else (a.base + a.offset, { a with offset := newOffset })

def umemArenaReset (a : Arena) : Arena := { a with offset := 0 }

def umemArenaAvailable (a : Arena) : Word := a.capacity - a.offset

inductive Event
  | alloc (size : Word)
  | reset

/-- A block that was returned, with the size that was requested. -/
structure Block where
  ptr : Word
  size : Word
  deriving DecidableEq, Repr

/-- The arena, and the blocks returned since the last reset, the latest in front. -/
structure Sys where
  arena : Arena
  blocks : List Block
  deriving DecidableEq, Repr

def Sys.step (s : Sys) : Event → Sys
  | .alloc size =>
    let r := umemArenaAlloc s.arena size
    ⟨r.2, if r.1 = 0 then s.blocks else ⟨r.1, size⟩ :: s.blocks⟩
  | .reset => ⟨umemArenaReset s.arena, []⟩

def Sys.run (s : Sys) (events : List Event) : Sys := events.foldl Sys.step s

def Block.Inside (a : Arena) (b : Block) : Prop :=
  a.base.toNat ≤ b.ptr.toNat ∧ b.ptr.toNat + b.size.toNat ≤ a.base.toNat + a.capacity.toNat

def Block.Apart (b c : Block) : Prop :=
  b.ptr.toNat + b.size.toNat ≤ c.ptr.toNat ∨ c.ptr.toNat + c.size.toNat ≤ b.ptr.toNat

/-- What `mmap` gives: whole pages, not at zero, whose end is an address too. -/
def Honours (pgsz : Int) (mmap : Word → Option Word) : Prop :=
  IsPow2 (pageSize pgsz) ∧ 16 ≤ (pageSize pgsz).toNat ∧ ∀ size mem, mmap size = some mem →
    mem ≠ 0 ∧ (pageSize pgsz).toNat ∣ mem.toNat ∧ mem.toNat + size.toNat ≤ 2 ^ 64

section
variable {x q : Word}

theorem not_lt_sizeMax_sub {x m : Word} : ¬x > sizeMax-m ↔ x.toNat+m.toNat < 2^64 := by
  have hmax : sizeMax.toNat = 2^64-1 := rfl
  have hm := m.isLt
  rw [gt_iff_lt, lt_def, toNat_sub_of_le (by rw [le_def]; omega)]
  omega

theorem toNat_add_and_not (hq : IsPow2 q) (hx : x.toNat+(q-1).toNat < 2^64) :
    ((x+q-1) &&& ~~~(q-1)).toNat = roundUp x.toNat q.toNat := by
  have hpos := hq.pos
  have hpred : (q-1).toNat = q.toNat-1 := by bv_omega
  have hsum : (x+q-1).toNat = x.toNat+q.toNat-1 := by bv_omega
  have halign := toNat_p2align (x+q-1) hq
  rw [p2align, neg_eq_not_sub_one, hsum] at halign
  have hmod := Nat.div_add_mod' (x.toNat+q.toNat-1) q.toNat
  rw [halign, roundUp]
  omega

end

section

/-- The bump pointer stands behind all blocks, each of which lies in the mapping. -/
structure Inv (s : Sys) : Prop where
  base : s.arena.base ≠ 0 ∧ 16 ∣ s.arena.base.toNat
  fits : s.arena.base.toNat + s.arena.capacity.toNat ≤ 2 ^ 64
  offset : s.arena.offset.toNat ≤ s.arena.capacity.toNat ∧ 16 ∣ s.arena.offset.toNat
  blocks : ∀ b ∈ s.blocks, 16 ∣ b.ptr.toNat ∧ s.arena.base.toNat ≤ b.ptr.toNat ∧
    b.ptr.toNat + b.size.toNat ≤ s.arena.base.toNat + s.arena.offset.toNat
  apart : s.blocks.Pairwise Block.Apart

variable {s : Sys} {size : Word}

theorem Inv.alloc_eq (h : Inv s) (hsize : size ≠ 0) :
    (roundUp size.toNat 16 ≤ (umemArenaAvailable s.arena).toNat ∧
      ∃ ptr new : Word, ptr ≠ 0 ∧ ptr.toNat = s.arena.base.toNat+s.arena.offset.toNat ∧
        new.toNat = s.arena.offset.toNat+roundUp size.toNat 16 ∧
        new.toNat ≤ s.arena.capacity.toNat ∧
        umemArenaAlloc s.arena size = (ptr, { s.arena with offset := new })) ∨
    (¬roundUp size.toNat 16 ≤ (umemArenaAvailable s.arena).toNat ∧
      umemArenaAlloc s.arena size = (0, s.arena)) := by
  have havail : (umemArenaAvailable s.arena).toNat =
      s.arena.capacity.toNat-s.arena.offset.toNat :=
    toNat_sub_of_le (le_def.mpr h.offset.1)
  have hle := @le_roundUp size.toNat 16 (by decide)
  have hpos : 0 < size.toNat := Nat.pos_of_ne_zero fun h0 => hsize (eq_of_toNat_eq h0)
  have hcap := s.arena.capacity.isLt
  rw [umemArenaAlloc, if_neg hsize]
  by_cases hbig : size > sizeMax-15
  · -- the rounded size is past every word
    have hnot := mt not_lt_sizeMax_sub.mpr (not_not.mpr hbig)
    change ¬size.toNat+15 < 2^64 at hnot
    have hdvd := dvd_roundUp size.toNat 16
    refine .inr ⟨by omega, if_pos hbig⟩
  · have hround := toNat_add_and_not (x := size) (q := 16) ⟨4, by decide, rfl⟩
      (not_lt_sizeMax_sub.mp hbig)
    change _ = roundUp size.toNat 16 at hround
    rw [if_neg hbig]
    dsimp only
    generalize (size+16-1) &&& ~~~(16-1 : Word) = alignedSize at hround ⊢
    have hgt : alignedSize > s.arena.capacity-s.arena.offset ↔
        ¬roundUp size.toNat 16 ≤ (umemArenaAvailable s.arena).toNat := by
      rw [gt_iff_lt, lt_def, hround, umemArenaAvailable, not_le]
    by_cases hfit : roundUp size.toNat 16 ≤ (umemArenaAvailable s.arena).toNat
    · have hfits := h.fits
      have hoffset := h.offset.1
      have hnew : (s.arena.offset+alignedSize).toNat =
          s.arena.offset.toNat+roundUp size.toNat 16 := by
        rw [toNat_add, hround, Nat.mod_eq_of_lt (by omega)]
      have hptr : (s.arena.base+s.arena.offset).toNat =
          s.arena.base.toNat+s.arena.offset.toNat := by
        rw [toNat_add, Nat.mod_eq_of_lt (by omega)]
      have hbase : s.arena.base.toNat ≠ 0 := fun h0 => h.base.1 (eq_of_toNat_eq h0)
      refine .inl ⟨hfit, _, _, fun h0 => ?_, hptr, hnew, by omega, ?_⟩
      · rw [h0] at hptr
        change 0 = _ at hptr
        omega
      rw [if_neg (not_not.mpr hfit ∘ hgt.mp), if_neg]
      rw [gt_iff_lt, lt_def, hnew]
      omega
    · exact .inr ⟨hfit, if_pos (hgt.mpr hfit)⟩

theorem umemArenaAlloc_zero (a : Arena) : umemArenaAlloc a 0 = (0, a) := rfl

theorem Inv.step (h : Inv s) (event : Event) : Inv (s.step event) := by
  cases event with
  | reset => exact ⟨h.base, h.fits, ⟨Nat.zero_le _, dvd_zero _⟩, by simp [Sys.step], .nil⟩
  | alloc size =>
    rw [Sys.step]
    by_cases hsize : size = 0
    · rw [hsize, umemArenaAlloc_zero]
      exact h
    rcases h.alloc_eq hsize with ⟨-, ptr, new, hne, hptr, hnew, hcap, heq⟩ | ⟨-, heq⟩
    · have hle := @le_roundUp size.toNat 16 (by decide)
      rw [heq]
      dsimp only
      rw [if_neg hne]
      refine ⟨h.base, h.fits, ⟨hcap, hnew ▸ h.offset.2.add (dvd_roundUp ..)⟩, ?_, ?_⟩
      · intro b hb
        dsimp only
        rcases List.mem_cons.mp hb with rfl | hb
        · refine ⟨hptr ▸ h.base.2.add h.offset.2, ?_, ?_⟩ <;> dsimp only <;> omega
        · obtain ⟨haligned, hlow, hhigh⟩ := h.blocks b hb
          exact ⟨haligned, hlow, by omega⟩
      · refine List.pairwise_cons.mpr ⟨fun b hb => .inr ?_, h.apart⟩
        have := (h.blocks b hb).2.2
        dsimp only
        omega
    · rw [heq]
      exact h

theorem Inv.run (h : Inv s) (events : List Event) : Inv (s.run events) := by
  induction events generalizing s with
  | nil => exact h
  | cons event events ih => exact ih (h.step event)

theorem step_mapping (s : Sys) (event : Event) :
    (s.step event).arena.base = s.arena.base ∧ (s.step event).arena.capacity = s.arena.capacity := by
  cases event with
  | reset => exact ⟨rfl, rfl⟩
  | alloc size =>
    change (umemArenaAlloc s.arena size).2.base = _ ∧ (umemArenaAlloc s.arena size).2.capacity = _
    rw [umemArenaAlloc]
    dsimp only
    split_ifs <;> exact ⟨rfl, rfl⟩

theorem run_mapping (s : Sys) (events : List Event) :
    (s.run events).arena.base = s.arena.base ∧ (s.run events).arena.capacity = s.arena.capacity := by
  induction events generalizing s with
  | nil => exact ⟨rfl, rfl⟩
  | cons event events ih =>
    obtain ⟨hbase, hcap⟩ := step_mapping s event
    exact ⟨(ih _).1.trans hbase, (ih _).2.trans hcap⟩

theorem inv_create {pgsz : Int} {header nofail : Bool} {mmap : Word → Option Word} {capacity : Word}
    {a : Arena} (hmmap : Honours pgsz mmap)
    (hcreate : umemArenaCreate pgsz header mmap capacity nofail = .arena a) : Inv ⟨a, []⟩ := by
  obtain ⟨hp, hge, hmem⟩ := hmmap
  have h16 : 16 ∣ (pageSize pgsz).toNat := IsPow2.dvd_of_le (a := 16) ⟨4, by decide, rfl⟩ hp hge
  rw [umemArenaCreate] at hcreate
  split at hcreate
  · cases hcreate
  split at hcreate
  · cases hcreate
  dsimp only at hcreate
  split at hcreate
  · split at hcreate <;> cases hcreate
  split at hcreate
  · split at hcreate <;> cases hcreate
  case h_2 mem hmap =>
    cases hcreate
    obtain ⟨hne, hdvd, hfits⟩ := hmem _ _ hmap
    exact ⟨⟨hne, h16.trans hdvd⟩, hfits, ⟨Nat.zero_le _, dvd_zero _⟩, by simp, .nil⟩

end

/-- Along every history the bump pointer stays in the mapping, the blocks returned since the last
reset are aligned, inside and apart, and a request succeeds exactly when it fits. -/
theorem umem_arena_sound {pgsz : Int} {header nofail : Bool} {mmap : Word → Option Word}
    {capacity : Word} {a : Arena} (hmmap : Honours pgsz mmap)
    (hcreate : umemArenaCreate pgsz header mmap capacity nofail = .arena a) (events : List Event) :
    let s := Sys.run ⟨a, []⟩ events
    s.arena.offset.toNat ≤ s.arena.capacity.toNat ∧
      (∀ b ∈ s.blocks, 16 ∣ b.ptr.toNat ∧ b.Inside a) ∧
      s.blocks.Pairwise Block.Apart ∧
      ∀ size, 0 < size.toNat → ((umemArenaAlloc s.arena size).1 ≠ 0 ↔
        roundUp size.toNat 16 ≤ (umemArenaAvailable s.arena).toNat) := by
  intro s
  have h : Inv s := (inv_create hmmap hcreate).run events
  obtain ⟨hbase, hcap⟩ : s.arena.base = a.base ∧ s.arena.capacity = a.capacity :=
    run_mapping ⟨a, []⟩ events
  refine ⟨h.offset.1, fun b hb => ?_, h.apart, fun size hpos => ?_⟩
  · obtain ⟨haligned, hlow, hhigh⟩ := h.blocks b hb
    have hle := h.offset.1
    rw [hbase] at hlow hhigh
    rw [hcap] at hle
    exact ⟨haligned, hlow, by omega⟩
  · have hsize : size ≠ 0 := by
      rintro rfl
      exact absurd hpos (by decide)
    rcases h.alloc_eq hsize with ⟨hfit, ptr, new, hne, -, -, -, heq⟩ | ⟨hfit, heq⟩
    · rw [heq]
      exact ⟨fun _ => hfit, fun _ => hne⟩
    · rw [heq]
      exact ⟨fun h0 => absurd rfl h0, fun h0 => absurd h0 hfit⟩

/-- A system that gives one page at `0x10000`. -/
def onePage (size : Word) : Option Word := if size = 4096 then some 0x10000 else none

theorem honours_onePage : Honours 4096 onePage := by
  refine ⟨⟨12, by decide, by decide⟩, by decide, fun size mem h => ?_⟩
  rw [onePage, Option.ite_none_right_eq_some, Option.some.injEq] at h
  obtain ⟨rfl, rfl⟩ := h
  decide

/-- A request near the end of the address space between two that fit. -/
theorem umem_arena_onePage :
    (Sys.run ⟨⟨0x10000, 4096, 0⟩, []⟩ [.alloc 32, .alloc (sizeMax - 15), .alloc 5]).blocks =
      [⟨0x10020, 5⟩, ⟨0x10000, 32⟩] ∧
    (Sys.run ⟨⟨0x10000, 4096, 0⟩, []⟩
      [.alloc 32, .alloc (sizeMax - 15), .alloc 5]).blocks.Pairwise Block.Apart :=
  ⟨by decide +kernel, (@umem_arena_sound 4096 true false onePage 100 _ honours_onePage
    (by decide +kernel) _).2.2.1⟩

end Libumem.UmemArena
