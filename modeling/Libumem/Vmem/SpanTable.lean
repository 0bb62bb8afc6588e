import Libumem.Arith.P2

/-!
# The table of heap spans

`vmem_span_find` answers without a lock whether a range lies in one span of the heap arena, from a
table that is sorted by address. This is the search as it runs when no writer is active.
-/

namespace Libumem.Vmem
open Option Arith

structure SpanEnt where
  vseBase : Word
  vseEnd : Word
  deriving DecidableEq, Repr

structure SpanTable where
  vmemSpanSeq : BitVec 32
  vmemSpanSaturated : Bool
  vmemSpanCnt : Nat
  vmemSpanTab : Nat → SpanEnt

/-- The binary search of `vmem_span_find`. Each turn narrows the range, so one turn more than it
has entries is enough. -/
def spanSearch (tab : Nat → SpanEnt) (addr : Word) : Nat → Nat → Nat → Option SpanEnt
  | 0, _, _ => none
  | turns + 1, blo, bhi =>
    if blo < bhi then
      let i := blo + (bhi - blo) / 2
      if addr < (tab i).vseBase then spanSearch tab addr turns blo i
      else if (tab i).vseEnd ≤ addr then spanSearch tab addr turns (i + 1) bhi
      else some (tab i)
    else none

/-- The span that `[addr, addr + len)` lies in. A saturated table says yes without one, and then
reports the bounds as zero. -/
def vmemSpanFind (t : SpanTable) (addr len : Word) : Option SpanEnt :=
  let stop := addr + len
  if stop < addr then none
  else if t.vmemSpanSaturated then some ⟨0, 0⟩
  else
    match spanSearch t.vmemSpanTab addr (t.vmemSpanCnt + 1) 0 t.vmemSpanCnt with
    | some e => if stop ≤ e.vseEnd then some e else none
    | none => none

/-- The entries are spans in address order. -/
structure SpanTable.Sorted (t : SpanTable) : Prop where
  nonempty : ∀ i < t.vmemSpanCnt, (t.vmemSpanTab i).vseBase < (t.vmemSpanTab i).vseEnd
  apart : ∀ i j, i < j → j < t.vmemSpanCnt →
    (t.vmemSpanTab i).vseEnd ≤ (t.vmemSpanTab j).vseBase

theorem spanSearch_eq {t : SpanTable} (hs : t.Sorted) {addr : Word} {k : Nat}
    (hbase : (t.vmemSpanTab k).vseBase ≤ addr) (hend : addr < (t.vmemSpanTab k).vseEnd)
    {turns blo bhi : Nat} (hlo : blo ≤ k) (hhi : k < bhi) (hcnt : bhi ≤ t.vmemSpanCnt)
    (hturns : bhi-blo < turns) :
    spanSearch t.vmemSpanTab addr turns blo bhi = some (t.vmemSpanTab k) := by
  induction turns generalizing blo bhi with
  | zero => omega
  | succ turns ih =>
    rw [spanSearch, if_pos (by omega)]
    dsimp only
    generalize hi : blo+(bhi-blo)/2 = i
    have hrange : blo ≤ i ∧ i < bhi := by omega
    split
    · rename_i hlt
      -- the middle entry starts above the address, so it lies behind entry `k`
      have hki : k < i := by
        by_contra hge
        rcases Nat.lt_or_eq_of_le (Nat.le_of_not_lt hge) with hik | rfl
        · have h1 := hs.apart i k hik (by omega)
          have h2 := hs.nonempty i (by omega)
          bv_omega
        · bv_omega
      exact ih hlo hki (by omega) (by omega)
    · split
      · rename_i hle
        have hki : i < k := by
          by_contra hge
          rcases Nat.lt_or_eq_of_le (Nat.le_of_not_lt hge) with hik | rfl
          · have h1 := hs.apart k i hik (by omega)
            have h2 := hs.nonempty i (by omega)
            bv_omega
          · bv_omega
        exact ih (by omega) hhi hcnt (by omega)
      · rename_i hbase' hend'
        have hik : i = k := by
          rcases Nat.lt_trichotomy i k with hlt | heq | hgt
          · have := hs.apart i k hlt (by omega)
            bv_omega
          · exact heq
          · have := hs.apart k i hgt (by omega)
            bv_omega
        rw [hik]

theorem vmemSpanFind_isSome {t : SpanTable} (hs : t.Sorted) {addr len : Word} {k : Nat}
    (hk : k < t.vmemSpanCnt) (hbase : (t.vmemSpanTab k).vseBase ≤ addr) (hlen : len ≠ 0)
    (hend : addr.toNat+len.toNat ≤ (t.vmemSpanTab k).vseEnd.toNat) :
    (vmemSpanFind t addr len).isSome = true := by
  have hsum : (addr+len).toNat = addr.toNat+len.toNat := by bv_omega
  have hlt : addr < (t.vmemSpanTab k).vseEnd := by bv_omega
  unfold vmemSpanFind
  dsimp only
  rw [if_neg (by bv_omega)]
  split
  · rfl
  · rw [spanSearch_eq hs hbase hlt (Nat.zero_le k) hk (le_refl _) (by omega)]
    dsimp only
    rw [if_pos (by bv_omega)]
    rfl

theorem spanSearch_mem {tab : Nat → SpanEnt} {addr : Word} {e : SpanEnt} {turns blo bhi : Nat}
    (h : spanSearch tab addr turns blo bhi = some e) :
    ∃ i < bhi, tab i = e ∧ e.vseBase ≤ addr ∧ addr < e.vseEnd := by
  induction turns generalizing blo bhi with
  | zero => simp [spanSearch] at h
  | succ turns ih =>
    rw [spanSearch, ite_none_right_eq_some] at h
    obtain ⟨hlt, h⟩ := h
    dsimp only at h
    generalize hi : blo+(bhi-blo)/2 = i at h
    split at h
    · obtain ⟨k, hk, he⟩ := ih h
      exact ⟨k, by omega, he⟩
    · split at h
      · exact ih h
      · rename_i hbase hend
        cases h
        exact ⟨i, by omega, rfl, by bv_omega, by bv_omega⟩

theorem vmemSpanFind_mem {t : SpanTable} {addr len : Word} {e : SpanEnt}
    (hsat : t.vmemSpanSaturated = false) (h : vmemSpanFind t addr len = some e) :
    ∃ k < t.vmemSpanCnt, t.vmemSpanTab k = e ∧ e.vseBase ≤ addr ∧ addr < e.vseEnd ∧
      addr.toNat+len.toNat ≤ e.vseEnd.toNat := by
  unfold vmemSpanFind at h
  dsimp only at h
  rw [hsat, ite_none_left_eq_some, if_neg (by simp)] at h
  obtain ⟨hwrap, h⟩ := h
  split at h
  · rename_i e' hsearch
    rw [ite_none_right_eq_some, some.injEq] at h
    obtain ⟨hstop, rfl⟩ := h
    obtain ⟨k, hk, he, hbase, hend⟩ := spanSearch_mem hsearch
    exact ⟨k, hk, he, hbase, hend, by bv_omega⟩
  · simp at h

/-! ### Writing the table -/

/-- `VMEM_SPAN_MAX`. -/
def vmemSpanMax : Nat := 16384

def vmemSpanWriteBegin (t : SpanTable) : SpanTable := { t with vmemSpanSeq := t.vmemSpanSeq + 1 }

def vmemSpanWriteEnd (t : SpanTable) : SpanTable := { t with vmemSpanSeq := t.vmemSpanSeq + 1 }

def vmemSpanTableInsert (t : SpanTable) (base stop : Word) : SpanTable :=
  let n := t.vmemSpanCnt
  if vmemSpanMax ≤ n then { t with vmemSpanSaturated := true }
  else
    let i := ((List.range n).find? fun i => base < (t.vmemSpanTab i).vseBase).getD n
    let t := vmemSpanWriteBegin t
    vmemSpanWriteEnd { t with
      vmemSpanTab := fun j =>
        if j < i then t.vmemSpanTab j else if j = i then ⟨base, stop⟩ else t.vmemSpanTab (j - 1)
      vmemSpanCnt := n + 1 }

def vmemSpanTableRemove (t : SpanTable) (base stop : Word) : SpanTable :=
  let n := t.vmemSpanCnt
  match (List.range n).find? fun i => t.vmemSpanTab i = ⟨base, stop⟩ with
  | none => t
  | some i =>
    let t := vmemSpanWriteBegin t
    vmemSpanWriteEnd { t with
      vmemSpanTab := fun j => if j < i then t.vmemSpanTab j else t.vmemSpanTab (j + 1)
      vmemSpanCnt := n - 1 }

namespace SpanTable
variable {t : SpanTable} {base stop : Word}

/-- The range `[base, stop)` is a span that overlaps no entry. -/
def Apart (t : SpanTable) (base stop : Word) : Prop :=
  base < stop ∧ ∀ k < t.vmemSpanCnt,
    stop ≤ (t.vmemSpanTab k).vseBase ∨ (t.vmemSpanTab k).vseEnd ≤ base

theorem Sorted.slot (hs : t.Sorted) (ha : t.Apart base stop) :
    ∃ i ≤ t.vmemSpanCnt,
      ((List.range t.vmemSpanCnt).find? fun i => base < (t.vmemSpanTab i).vseBase).getD
        t.vmemSpanCnt = i ∧
      (∀ k < i, (t.vmemSpanTab k).vseEnd ≤ base) ∧
      ∀ k, i ≤ k → k < t.vmemSpanCnt → stop ≤ (t.vmemSpanTab k).vseBase := by
  obtain ⟨hlt, ha⟩ := ha
  have hbefore : ∀ k < t.vmemSpanCnt, ¬ base < (t.vmemSpanTab k).vseBase →
      (t.vmemSpanTab k).vseEnd ≤ base := by
    intro k hk hle
    rcases ha k hk with h | h
    · bv_omega
    · exact h
  cases hfind : (List.range t.vmemSpanCnt).find? fun i => base < (t.vmemSpanTab i).vseBase with
  | none =>
    refine ⟨t.vmemSpanCnt, le_refl _, rfl, ?_, fun k hk hk' => by omega⟩
    intro k hk
    apply hbefore k hk
    simpa using List.find?_eq_none.mp hfind k (List.mem_range.mpr hk)
  | some i =>
    obtain ⟨hi, hrange, hleast⟩ := List.find?_range_eq_some.mp hfind
    rw [decide_eq_true_iff] at hi
    have hi' : i < t.vmemSpanCnt := List.mem_range.mp hrange
    refine ⟨i, hi'.le, rfl, ?_, ?_⟩
    · intro k hk
      exact hbefore k (by omega) (by simpa using hleast k hk)
    · intro k hik hk
      rcases Nat.lt_or_eq_of_le hik with hlt' | rfl
      · have h1 := hs.apart i k hlt' hk
        have h2 := hs.nonempty i hi'
        rcases ha k hk with h | h
        · exact h
        · have h3 := hs.nonempty k hk
          bv_omega
      · rcases ha i hk with h | h
        · exact h
        · have h3 := hs.nonempty i hk
          bv_omega

theorem Sorted.insert (hs : t.Sorted) (ha : t.Apart base stop) :
    (vmemSpanTableInsert t base stop).Sorted := by
  unfold vmemSpanTableInsert
  dsimp only
  split
  · exact ⟨hs.nonempty, hs.apart⟩
  obtain ⟨i, hi, hslot, hbefore, hbehind⟩ := hs.slot ha
  rw [hslot]
  refine ⟨?_, ?_⟩
  · intro k hk
    simp only [vmemSpanWriteEnd, vmemSpanWriteBegin] at hk ⊢
    split
    · exact hs.nonempty k (by omega)
    split
    · exact ha.1
    · exact hs.nonempty (k-1) (by omega)
  · intro j k hjk hk
    simp only [vmemSpanWriteEnd, vmemSpanWriteBegin] at hk ⊢
    rcases Nat.lt_trichotomy j i with hj | rfl | hj
    · rw [if_pos hj]
      rcases Nat.lt_trichotomy k i with hk' | rfl | hk'
      · rw [if_pos hk']
        exact hs.apart j k hjk (by omega)
      · rw [if_neg (lt_irrefl k), if_pos rfl]
        exact hbefore j hj
      · rw [if_neg (by omega), if_neg (by omega)]
        exact hs.apart j (k-1) (by omega) (by omega)
    · rw [if_neg (lt_irrefl j), if_pos rfl, if_neg (by omega), if_neg (by omega)]
      exact hbehind (k-1) (by omega) (by omega)
    · rw [if_neg (by omega), if_neg (by omega), if_neg (by omega), if_neg (by omega)]
      exact hs.apart (j-1) (k-1) (by omega) (by omega)

theorem Sorted.remove (hs : t.Sorted) : (vmemSpanTableRemove t base stop).Sorted := by
  unfold vmemSpanTableRemove
  dsimp only
  split
  · exact hs
  rename_i i hfind
  have hi : i < t.vmemSpanCnt := List.mem_range.mp (List.mem_of_find?_eq_some hfind)
  refine ⟨?_, ?_⟩
  · intro k hk
    simp only [vmemSpanWriteEnd, vmemSpanWriteBegin] at hk ⊢
    split
    · exact hs.nonempty k (by omega)
    · exact hs.nonempty (k+1) (by omega)
  · intro j k hjk hk
    simp only [vmemSpanWriteEnd, vmemSpanWriteBegin] at hk ⊢
    split
    · split
      · exact hs.apart j k hjk (by omega)
      · exact hs.apart j (k+1) (by omega) (by omega)
    · rw [if_neg (by omega)]
      exact hs.apart (j+1) (k+1) (by omega) (by omega)

theorem seq_insert (t : SpanTable) (base stop : Word) :
    (vmemSpanTableInsert t base stop).vmemSpanSeq = t.vmemSpanSeq+1+1 ∨
    (vmemSpanTableInsert t base stop) = { t with vmemSpanSaturated := true } := by
  unfold vmemSpanTableInsert
  dsimp only
  split
  · exact .inr rfl
  · exact .inl rfl

theorem seq_remove (t : SpanTable) (base stop : Word) :
    (vmemSpanTableRemove t base stop).vmemSpanSeq = t.vmemSpanSeq+1+1 ∨
    vmemSpanTableRemove t base stop = t := by
  unfold vmemSpanTableRemove
  dsimp only
  split
  · exact .inr rfl
  · exact .inl rfl

end SpanTable
end Libumem.Vmem
