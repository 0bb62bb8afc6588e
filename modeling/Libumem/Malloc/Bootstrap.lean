import Libumem.Arith.P2
import Libumem.Lib.Slots
import Libumem.Lib.ProbeSet

/-!
# The bootstrap allocator

Before the allocator is ready, storage comes from `mmap` directly. A bootstrap pointer is known by
a registry and not by what stands in front of it: a count that says whether the registry is empty,
a set of pages that is never cleared, and a table of the live pointers with the sizes to unmap.
-/

namespace Libumem.Malloc
open List Arith Lib

/-- `MAX_BOOTSTRAP_PTRS`. -/
def maxBootstrapPtrs : Nat := 256

/-- `BOOTSTRAP_SET_SLOTS`. -/
def bootstrapSetSlots : Nat := maxBootstrapPtrs * 4

/-- `sizeof (bootstrap_header_t)`. -/
def bootstrapHeader : Word := 16

structure Bootstrap where
  /-- `bootstrap_ptrs`: the pointers handed out and the sizes of their mappings. -/
  ptrs : Slots Word Word
  /-- `bootstrap_live`. -/
  live : Int
  /-- `bootstrap_pages`, each slot empty or holding a page number. -/
  pages : Nat → Option Word

def bootstrapPageHash (page : Word) : Nat :=
  ((page * 0x9E3779B97F4A7C15) >>> 32 &&& (BitVec.ofNat 64 bootstrapSetSlots - 1)).toNat

def bootstrapNextSlot (i : Nat) : Nat := (i + 1) % bootstrapSetSlots

def bootstrapSetAdd (buf : Word) (pages : Nat → Option Word) : Nat → Option Word :=
  ProbeSet.add bootstrapNextSlot (buf >>> 12) bootstrapSetSlots (bootstrapPageHash (buf >>> 12)) pages

def bootstrapSetMayContain (buf : Word) (pages : Nat → Option Word) : Bool :=
  ProbeSet.mayContain bootstrapNextSlot (buf >>> 12) bootstrapSetSlots
    (bootstrapPageHash (buf >>> 12)) pages

/-- `none` when the table is full. -/
def bootstrapRegister (s : Bootstrap) (buf totalSize : Word) : Option Bootstrap :=
  (s.ptrs.put buf totalSize).map fun ptrs =>
    { ptrs := ptrs, live := s.live + 1, pages := bootstrapSetAdd buf s.pages }

def bootstrapPointerP (s : Bootstrap) (buf : Word) : Bool :=
  if s.live = 0 then false
  else if buf &&& 4095 ≠ bootstrapHeader then false
  else if bootstrapSetMayContain buf s.pages = false then false
  else (s.ptrs.find buf).isSome

/-- The mapping that `bootstrap_free` unmaps: its address and the size that the table recorded. -/
def bootstrapFree (s : Bootstrap) (buf : Word) : Bootstrap × Option (Word × Word) :=
  match s.ptrs.find buf with
  | none => (s, none)
  | some size =>
    ({ s with ptrs := s.ptrs.clear buf, live := s.live - 1 }, some (buf - bootstrapHeader, size))

/-- `bootstrap_malloc` up to the return, with what `mmap` answered. The result is the pointer, the
size of the mapping and the registry. -/
def bootstrapMalloc (s : Bootstrap) (mmap : Word → Option Word) (size : Word) :
    Option (Word × Word × Bootstrap) :=
  -- the header is only added when the sum does not wrap around
  if BitVec.allOnes 64 - bootstrapHeader < size then none
  else do
    let hdr ← mmap (size + bootstrapHeader)
    let s ← bootstrapRegister s (hdr + bootstrapHeader) (size + bootstrapHeader)
    return (hdr + bootstrapHeader, size + bootstrapHeader, s)

/-- What the registry keeps: the count is the number of entries, every entry has the shape of a
bootstrap pointer and its page is in the set, and no pointer is in two slots. -/
structure Bootstrap.WellFormed (s : Bootstrap) : Prop where
  live : s.live = s.ptrs.entries.length
  distinct : s.ptrs.Distinct
  shape : ∀ e ∈ s.ptrs.entries, e.1 &&& 4095 = bootstrapHeader ∧
    bootstrapSetMayContain e.1 s.pages = true ∧ bootstrapHeader ≤ e.2

namespace Bootstrap.WellFormed
variable {s s' : Bootstrap} {buf size : Word}

theorem pointerP_iff (h : s.WellFormed) : bootstrapPointerP s buf = (s.ptrs.find buf).isSome := by
  unfold bootstrapPointerP
  cases hf : s.ptrs.find buf with
  | none => simp
  | some b =>
    have hmem := (Slots.find_eq_some h.distinct).mp hf
    obtain ⟨hshape, hpage, -⟩ := h.shape _ hmem
    have hlive : s.live ≠ 0 := by
      have := length_pos_of_mem hmem
      rw [h.live]
      omega
    rw [if_neg hlive, if_neg (not_not.mpr hshape), if_neg (by simp [hpage])]

theorem register (h : s.WellFormed) (hbuf : buf &&& 4095 = bootstrapHeader)
    (hsize : bootstrapHeader ≤ size) (hnew : buf ∉ s.ptrs.entries.map Prod.fst)
    (hr : bootstrapRegister s buf size = some s') : s'.WellFormed := by
  obtain ⟨ptrs, hput, rfl⟩ := Option.map_eq_some_iff.mp hr
  have hperm := Slots.entries_put hput
  refine ⟨?_, h.distinct.put hnew hput, ?_⟩
  · have := hperm.length_eq
    simp only [h.live, this, length_cons]
    omega
  · intro e he
    rcases mem_cons.mp (hperm.mem_iff.mp he) with rfl | he
    · exact ⟨hbuf, ProbeSet.mayContain_add _ _ _ _, hsize⟩
    · obtain ⟨h1, h2, h3⟩ := h.shape e he
      exact ⟨h1, ProbeSet.mayContain_of_grows (ProbeSet.grows_add _ _ _ _) h2, h3⟩

theorem free (h : s.WellFormed) : (bootstrapFree s buf).1.WellFormed := by
  unfold bootstrapFree
  cases hf : s.ptrs.find buf with
  | none => exact h
  | some b =>
    have hperm := Slots.entries_clear hf
    refine ⟨?_, h.distinct.clear, ?_⟩
    · have := hperm.length_eq
      simp only [h.live, this, length_cons]
      omega
    · intro e he
      exact h.shape e (hperm.mem_iff.mpr (mem_cons_of_mem _ he))

end Bootstrap.WellFormed
end Libumem.Malloc
