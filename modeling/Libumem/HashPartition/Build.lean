import Libumem.Arith.P2
import Libumem.Lib.Tiles

/-!
# Hash partitions

`umem_hash_partition.c` cuts the space of 64-bit hash values into intervals, one for each claimant,
and finds the claimant of a hash value by a binary search on the lower bounds.
-/

namespace Libumem.HashPartition
open List Option BitVec Arith Lib

/-- The characters of a string before its terminator. -/
abbrev Name := List Char

def maxClaimants : Nat := 1024

def maxNameLen : Nat := 256

def uint64Max : Word := BitVec.allOnes 64

/-- One index of the arrays `lower_bounds`, `interval_sizes` and `lb_to_c`. -/
structure Entry where
  lowerBound : Word
  intervalSize : Word
  name : Name
  deriving DecidableEq, Repr

/-- The first `count` entries of the arrays. -/
abbrev HashPartitions := List Entry

structure ClaimantSize where
  name : Name
  size : Word

/-- The copy with `strncpy`, cut off for the terminator. -/
def copyName (name : Name) : Name := name.take (maxNameLen - 1)

/-- Whether there is a table for so many claimants; `memory` says whether the allocations of it
succeed. -/
def hashPartitionsAlloc (memory : Bool) (capacity : Nat) : Bool :=
  !(capacity = 0 || capacity > maxClaimants) && memory

def growLast (hp : HashPartitions) (more : Word) : HashPartitions :=
  hp.modify (hp.length - 1) fun e => { e with intervalSize := e.intervalSize + more }

def createLoop (interval : Word) : List Name → Word → HashPartitions → HashPartitions
  | [], _, hp => hp
  | claimant :: rest, nextLowerBound, hp =>
    if claimant.length = 0 then createLoop interval rest nextLowerBound hp
    else createLoop interval rest (nextLowerBound + interval)
      (hp ++ [⟨nextLowerBound, interval, copyName claimant⟩])

def hashPartitionsCreate (memory : Bool) (claimants : List Name) : Option HashPartitions :=
  if claimants.length = 0 then none
  else if hashPartitionsAlloc memory claimants.length then
    let interval := uint64Max / BitVec.ofNat 64 claimants.length
    let hp := createLoop interval claimants 0 []
    let sum := hp.foldl (fun sum e => sum + e.intervalSize) 0
    some (if 0 < hp.length then growLast hp (uint64Max - sum) else hp)
  else none

/-- The loop ends when no space remains. It gives the table and the space that remains. -/
def sizesLoop : List ClaimantSize → Word → Word → HashPartitions → HashPartitions × Word
  | [], _, remaining, hp => (hp, remaining)
  | claimant :: rest, nextLowerBound, remaining, hp =>
    if remaining = 0 then (hp, remaining)
    else if claimant.size = 0 then sizesLoop rest nextLowerBound remaining hp
    else
      let sz := if claimant.size > remaining then remaining else claimant.size
      sizesLoop rest (nextLowerBound + sz) (remaining - sz)
        (hp ++ [⟨nextLowerBound, sz, copyName claimant.name⟩])

def hashPartitionsCreateWithSizes (memory : Bool) (sizes : List ClaimantSize) :
    Option HashPartitions :=
  if sizes.length = 0 then none
  else if hashPartitionsAlloc memory sizes.length then
    let r := sizesLoop sizes 0 uint64Max []
    if r.1.length = 0 then none
    else some (if r.2 > 0 then growLast r.1 r.2 else r.1)
  else none

/-- The names that get an interval. -/
def claimed (claimants : List Name) : List Name := claimants.filter fun c => c.length ≠ 0

/-- The claimants that get an interval. They ask for something while there is space, and those in
front of them have asked for `used`. -/
def placed : Nat → List ClaimantSize → List Name
  | _, [] => []
  | used, claimant :: rest =>
    if claimant.size = 0 ∨ 2 ^ 64 - 1 ≤ used then placed used rest
    else claimant.name :: placed (used + claimant.size.toNat) rest

/-- The array that a partition is built from. -/
inductive Claimants
  | names (claimants : List Name)
  | sizes (entries : List ClaimantSize)

namespace Claimants

def create (memory : Bool) : Claimants → Option HashPartitions
  | .names claimants => hashPartitionsCreate memory claimants
  | .sizes entries => hashPartitionsCreateWithSizes memory entries

def length : Claimants → Nat
  | .names claimants => claimants.length
  | .sizes entries => entries.length

/-- The names of the entries that are accepted, as the table has them. -/
def accepted : Claimants → List Name
  | .names claimants => (claimed claimants).map copyName
  | .sizes entries => (placed 0 entries).map copyName

end Claimants

section

/-- The intervals of the table lie side by side from zero to `b`. -/
abbrev TilesTo (hp : HashPartitions) (b : Nat) : Prop :=
  Tiles (fun e : Entry => e.lowerBound.toNat) (fun e => e.intervalSize.toNat) 0 hp b

variable {hp : HashPartitions} {b : Nat}

theorem modify_last {α : Type*} (f : α → α) (l : List α) (x : α) :
    (l ++ [x]).modify l.length f = l ++ [f x] := by
  induction l with
  | nil => rfl
  | cons y l ih => exact congrArg (y :: ·) ih

theorem growLast_snoc (l : HashPartitions) (e : Entry) (more : Word) :
    growLast (l ++ [e]) more = l ++ [{ e with intervalSize := e.intervalSize+more }] := by
  rw [growLast, length_append, length_singleton, Nat.add_sub_cancel]
  exact modify_last _ l e

theorem growLast_tiles (more : Word) (h : TilesTo hp b) (hne : hp ≠ [])
    (hlt : b+more.toNat < 2^64) : TilesTo (growLast hp more) (b+more.toNat) := by
  obtain ⟨l, e, rfl⟩ := eq_nil_or_concat' hp |>.resolve_left hne
  rw [growLast_snoc]
  refine h.grow_last rfl ?_
  have hend := h.end_le e (by simp)
  change (e.intervalSize+more).toNat = _
  rw [toNat_add]
  exact Nat.mod_eq_of_lt (by omega)

theorem growLast_names (hp : HashPartitions) (more : Word) :
    (growLast hp more).map (·.name) = hp.map (·.name) := by
  rcases eq_nil_or_concat' hp with rfl | ⟨l, e, rfl⟩
  · rfl
  · rw [growLast_snoc]
    simp

theorem snoc_tiles {next size : Word} {name : Name} (h : TilesTo hp next.toNat)
    (hpos : 0 < size.toNat) (hlt : next.toNat+size.toNat < 2^64) :
    TilesTo (hp ++ [⟨next, size, name⟩]) (next+size).toNat := by
  rw [toNat_add, Nat.mod_eq_of_lt hlt]
  exact h.snoc rfl hpos

theorem createLoop_tiles {interval : Word} (hpos : 0 < interval.toNat) (claimants : List Name)
    (next : Word) (hp : HashPartitions) (h : TilesTo hp next.toNat)
    (hlt : next.toNat+claimants.length * interval.toNat < 2^64) :
    ∃ b < 2^64, TilesTo (createLoop interval claimants next hp) b := by
  induction claimants generalizing next hp with
  | nil => exact ⟨next.toNat, next.isLt, h⟩
  | cons claimant rest ih =>
    have hmul : (rest.length+1) * interval.toNat = rest.length * interval.toNat+interval.toNat :=
      Nat.succ_mul _ _
    rw [length_cons, hmul] at hlt
    rw [createLoop]
    split
    · exact ih next hp h (by omega)
    · refine ih (next+interval) _ (snoc_tiles h hpos (by omega)) ?_
      rw [toNat_add, Nat.mod_eq_of_lt (by omega)]
      omega

theorem foldl_sum_toNat (hp : HashPartitions) (s : Word)
    (hlt : s.toNat+(hp.map fun e => e.intervalSize.toNat).sum < 2^64) :
    (hp.foldl (fun sum e => sum+e.intervalSize) s).toNat =
      s.toNat+(hp.map fun e => e.intervalSize.toNat).sum := by
  induction hp generalizing s with
  | nil => rfl
  | cons e hp ih =>
    rw [map_cons, sum_cons] at hlt ⊢
    have hadd : (s+e.intervalSize).toNat = s.toNat+e.intervalSize.toNat := by
      rw [toNat_add]
      exact Nat.mod_eq_of_lt (by omega)
    rw [foldl_cons, ih (s+e.intervalSize) (by omega), hadd]
    omega

theorem uint64Max_toNat : uint64Max.toNat = 2^64-1 := by decide

theorem hashPartitionsAlloc_eq_true {memory : Bool} {n : Nat} :
    hashPartitionsAlloc memory n = true ↔ memory = true ∧ 0 < n ∧ n ≤ maxClaimants := by
  simp only [hashPartitionsAlloc, Bool.and_eq_true, Bool.not_eq_true', Bool.or_eq_false_iff,
    decide_eq_false_iff_not]
  rw [And.comm, Nat.pos_iff_ne_zero, gt_iff_lt, Nat.not_lt]

/-- The table before its last interval grows. -/
abbrev equalTable (claimants : List Name) : HashPartitions :=
  createLoop (uint64Max / BitVec.ofNat 64 claimants.length) claimants 0 []

theorem hashPartitionsCreate_eq_some {memory : Bool} {claimants : List Name} :
    hashPartitionsCreate memory claimants = some hp ↔
      (memory = true ∧ 0 < claimants.length ∧ claimants.length ≤ maxClaimants) ∧
      (if 0 < (equalTable claimants).length then growLast (equalTable claimants)
        (uint64Max - (equalTable claimants).foldl (fun sum e => sum+e.intervalSize) 0)
      else equalTable claimants) = hp := by
  rw [← hashPartitionsAlloc_eq_true, hashPartitionsCreate]
  by_cases hzero : claimants.length = 0
  · simp [hzero, hashPartitionsAlloc]
  · rw [if_neg hzero, ite_none_right_eq_some, some.injEq]

theorem hashPartitionsCreateWithSizes_eq_some {memory : Bool} {sizes : List ClaimantSize} :
    hashPartitionsCreateWithSizes memory sizes = some hp ↔
      (memory = true ∧ 0 < sizes.length ∧ sizes.length ≤ maxClaimants) ∧
      (sizesLoop sizes 0 uint64Max []).1 ≠ [] ∧
      (if (sizesLoop sizes 0 uint64Max []).2 > 0 then
        growLast (sizesLoop sizes 0 uint64Max []).1 (sizesLoop sizes 0 uint64Max []).2
      else (sizesLoop sizes 0 uint64Max []).1) = hp := by
  rw [← hashPartitionsAlloc_eq_true, hashPartitionsCreateWithSizes]
  by_cases hzero : sizes.length = 0
  · simp [hzero, hashPartitionsAlloc]
  · rw [if_neg hzero, ite_none_right_eq_some, ite_none_left_eq_some, some.injEq, length_eq_zero_iff]

theorem hashPartitionsCreate_tiles {memory : Bool} {claimants : List Name}
    (h : hashPartitionsCreate memory claimants = some hp) (hne : hp ≠ []) :
    TilesTo hp (2^64-1) := by
  obtain ⟨⟨-, hn⟩, h⟩ := hashPartitionsCreate_eq_some.mp h
  have hofNat : (BitVec.ofNat 64 claimants.length).toNat = claimants.length := by
    rw [toNat_ofNat]
    exact Nat.mod_eq_of_lt (hn.2.trans_lt (by decide))
  have hinterval : (uint64Max/BitVec.ofNat 64 claimants.length).toNat =
      (2^64-1)/claimants.length := by
    rw [toNat_udiv, uint64Max_toNat, hofNat]
  have hpos : 0 < (2^64-1)/claimants.length :=
    Nat.div_pos (hn.2.trans (by decide)) hn.1
  have hfit := Nat.mul_div_le (2^64-1) claimants.length
  obtain ⟨b, hb, htiles⟩ := createLoop_tiles (hinterval ▸ hpos) claimants 0 []
    (show Tiles _ _ 0 [] 0 from rfl) (by rw [hinterval]; change 0+_ < _; omega)
  set table := equalTable claimants
  have hsum := htiles.sum
  rw [Nat.zero_add] at hsum
  have hfold := foldl_sum_toNat table 0 (by rw [hsum]; change 0+b < _; omega)
  rw [hsum, show (0 : Word).toNat = 0 from rfl, Nat.zero_add] at hfold
  have hrest : (uint64Max-table.foldl (fun sum e => sum+e.intervalSize) 0).toNat =
      2^64-1-b := by
    rw [toNat_sub_of_le (by rw [le_def, hfold, uint64Max_toNat]; omega), hfold, uint64Max_toNat]
  by_cases hlen : 0 < table.length
  · rw [if_pos hlen] at h
    have := growLast_tiles (uint64Max-table.foldl (fun sum e => sum+e.intervalSize) 0) htiles
      (length_pos_iff.mp hlen) (by omega)
    rwa [h, hrest, Nat.add_sub_of_le (by omega)] at this
  · rw [if_neg hlen] at h
    exact absurd (h ▸ length_eq_zero_iff.mp (Nat.eq_zero_of_not_pos hlen)) hne

theorem sizesLoop_tiles (sizes : List ClaimantSize) (next remaining : Word) (hp : HashPartitions)
    (h : TilesTo hp next.toNat) (hlt : next.toNat+remaining.toNat = 2^64-1) :
    ∃ b, TilesTo (sizesLoop sizes next remaining hp).1 b ∧
      b+(sizesLoop sizes next remaining hp).2.toNat = 2^64-1 := by
  induction sizes generalizing next remaining hp with
  | nil => exact ⟨next.toNat, h, hlt⟩
  | cons claimant rest ih =>
    rw [sizesLoop]
    split
    · exact ⟨next.toNat, h, hlt⟩
    case isFalse hrem =>
    split
    · exact ih next remaining hp h hlt
    case isFalse hsize =>
    -- the interval is cut off at the space that remains
    have hsz : ∃ sz, (if claimant.size > remaining then remaining else claimant.size) = sz ∧
        0 < sz.toNat ∧ sz.toNat ≤ remaining.toNat := by
      refine ⟨_, rfl, ?_⟩
      split
      · exact ⟨Nat.pos_of_ne_zero fun h0 => hrem (eq_of_toNat_eq h0), le_rfl⟩
      case isFalse hle =>
        exact ⟨Nat.pos_of_ne_zero fun h0 => hsize (eq_of_toNat_eq h0), Nat.le_of_not_lt hle⟩
    obtain ⟨sz, hsz, hpos, hle⟩ := hsz
    dsimp only
    rw [hsz]
    refine ih (next+sz) (remaining-sz) _ (snoc_tiles h hpos (by omega)) ?_
    rw [toNat_add, Nat.mod_eq_of_lt (by omega), toNat_sub_of_le hle]
    omega

theorem hashPartitionsCreateWithSizes_tiles {memory : Bool} {sizes : List ClaimantSize}
    (h : hashPartitionsCreateWithSizes memory sizes = some hp) : TilesTo hp (2^64-1) := by
  obtain ⟨-, hne, h⟩ := hashPartitionsCreateWithSizes_eq_some.mp h
  obtain ⟨b, htiles, hrest⟩ := sizesLoop_tiles sizes 0 uint64Max [] (show Tiles _ _ 0 [] 0 from rfl)
    (by rw [uint64Max_toNat]; rfl)
  generalize sizesLoop sizes 0 uint64Max [] = r at h hne htiles hrest
  split at h
  · have := growLast_tiles r.2 htiles hne (by omega)
    rwa [hrest, h] at this
  case isFalse hzero =>
    have hr : r.2.toNat = 0 := Nat.eq_zero_of_not_pos hzero
    rw [hr, Nat.add_zero] at hrest
    exact h ▸ hrest ▸ htiles

/-! ### The names in the table -/

theorem claimed_length_le (claimants : List Name) : (claimed claimants).length ≤ claimants.length :=
  length_filter_le ..

theorem createLoop_eq_append (interval : Word) (claimants : List Name) (next : Word)
    (hp : HashPartitions) :
    ∃ es, createLoop interval claimants next hp = hp ++ es ∧
      es.map (·.name) = (claimed claimants).map copyName ∧ ∀ e ∈ es, e.intervalSize = interval := by
  induction claimants generalizing next hp with
  | nil => exact ⟨[], (append_nil hp).symm, rfl, by simp⟩
  | cons claimant rest ih =>
    rw [createLoop, claimed, filter_cons]
    by_cases hempty : claimant.length = 0
    · rw [if_pos hempty, if_neg (by simpa using hempty)]
      exact ih next hp
    · obtain ⟨es, heq, hnames, hsizes⟩ := ih (next+interval)
        (hp ++ [⟨next, interval, copyName claimant⟩])
      rw [if_neg hempty, if_pos (by simpa using hempty), heq, List.append_assoc]
      refine ⟨_, rfl, congrArg (copyName claimant :: ·) hnames, ?_⟩
      simpa using hsizes

theorem hashPartitionsCreate_names {memory : Bool} {claimants : List Name}
    (h : hashPartitionsCreate memory claimants = some hp) :
    hp.map (·.name) = (claimed claimants).map copyName := by
  obtain ⟨-, rfl⟩ := hashPartitionsCreate_eq_some.mp h
  obtain ⟨es, heq, hnames, -⟩ :=
    createLoop_eq_append (uint64Max/BitVec.ofNat 64 claimants.length) claimants 0 []
  rw [nil_append] at heq
  rw [equalTable, heq, ← hnames]
  split
  · exact growLast_names es _
  · rfl

theorem placed_length_le (used : Nat) (sizes : List ClaimantSize) :
    (placed used sizes).length ≤ sizes.length := by
  induction sizes generalizing used with
  | nil => exact le_rfl
  | cons claimant rest ih =>
    rw [placed, length_cons]
    split
    · exact (ih used).trans (Nat.le_succ _)
    · exact Nat.succ_le_succ (ih _)

theorem placed_of_full {used : Nat} (hfull : 2^64-1 ≤ used) (sizes : List ClaimantSize) :
    placed used sizes = [] := by
  induction sizes with
  | nil => rfl
  | cons claimant rest ih => rw [placed, if_pos (.inr hfull), ih]

/-- What remains is the space without what has been asked for, and nothing when that is more. -/
theorem sizesLoop_names (sizes : List ClaimantSize) (next remaining : Word) (hp : HashPartitions)
    (used : Nat) (hrem : remaining.toNat = 2^64-1-used) :
    (sizesLoop sizes next remaining hp).1.map (·.name) =
      hp.map (·.name) ++ (placed used sizes).map copyName := by
  induction sizes generalizing next remaining hp used with
  | nil => exact (append_nil _).symm
  | cons claimant rest ih =>
    rw [sizesLoop]
    by_cases hzero : remaining = 0
    · rw [if_pos hzero, placed_of_full (by rw [hzero] at hrem; change 0 = _ at hrem; omega)]
      exact (append_nil _).symm
    · have hpos : 0 < remaining.toNat := Nat.pos_of_ne_zero fun h0 => hzero (eq_of_toNat_eq h0)
      rw [if_neg hzero, placed]
      by_cases hsize : claimant.size = 0
      · rw [if_pos hsize, if_pos (.inl hsize)]
        exact ih next remaining hp used hrem
      · rw [if_neg hsize, if_neg (not_or.mpr ⟨hsize, by omega⟩)]
        dsimp only
        rw [ih _ _ _ (used+claimant.size.toNat)]
        · simp
        · split
          · rename_i hlt
            rw [gt_iff_lt, lt_def] at hlt
            rw [toNat_sub_of_le (BitVec.le_refl _)]
            omega
          · rename_i hle
            rw [toNat_sub_of_le (BitVec.not_lt.mp hle)]
            omega

theorem hashPartitionsCreateWithSizes_names {memory : Bool} {sizes : List ClaimantSize}
    (h : hashPartitionsCreateWithSizes memory sizes = some hp) :
    hp.map (·.name) = (placed 0 sizes).map copyName := by
  obtain ⟨-, -, rfl⟩ := hashPartitionsCreateWithSizes_eq_some.mp h
  have hnames := sizesLoop_names sizes 0 uint64Max [] 0 uint64Max_toNat
  split
  · rw [growLast_names, hnames]
    rfl
  · exact hnames

namespace Claimants
variable {arr : Claimants} {memory : Bool}

theorem create_names (h : arr.create memory = some hp) : hp.map (·.name) = arr.accepted := by
  cases arr with
  | names claimants => exact hashPartitionsCreate_names h
  | sizes entries => exact hashPartitionsCreateWithSizes_names h

theorem accepted_length_le (arr : Claimants) : arr.accepted.length ≤ arr.length := by
  cases arr with
  | names claimants =>
    rw [accepted, length_map]
    exact claimed_length_le claimants
  | sizes entries =>
    rw [accepted, length_map]
    exact placed_length_le 0 entries

theorem create_isSome_iff (haccepted : arr.accepted ≠ []) :
    (arr.create true).isSome ↔ arr.length ≤ maxClaimants := by
  have hpos := (length_pos_iff.mpr haccepted).trans_le arr.accepted_length_le
  cases arr with
  | names claimants =>
    simp only [isSome_iff_exists, create, hashPartitionsCreate_eq_some, exists_and_left, exists_eq',
      and_true, true_and]
    exact and_iff_right hpos
  | sizes entries =>
    have hne : (sizesLoop entries 0 uint64Max []).1 ≠ [] := by
      intro hnil
      have hnames := sizesLoop_names entries 0 uint64Max [] 0 uint64Max_toNat
      rw [hnil] at hnames
      exact haccepted hnames.symm
    simp only [isSome_iff_exists, create, hashPartitionsCreateWithSizes_eq_some, exists_and_left,
      exists_eq', and_true, true_and, hne, ne_eq, not_false_eq_true]
    exact and_iff_right hpos

theorem create_length_le (h : arr.create memory = some hp) : hp.length ≤ maxClaimants := by
  have hlen : hp.length ≤ arr.length := by
    rw [← length_map (f := fun e : Entry => e.name), create_names h]
    exact arr.accepted_length_le
  refine hlen.trans ?_
  cases arr with
  | names claimants => exact (hashPartitionsCreate_eq_some.mp h).1.2.2
  | sizes entries => exact (hashPartitionsCreateWithSizes_eq_some.mp h).1.2.2

theorem create_tiles (h : arr.create memory = some hp) (hne : hp ≠ []) : TilesTo hp (2^64-1) := by
  cases arr with
  | names claimants => exact hashPartitionsCreate_tiles h hne
  | sizes entries => exact hashPartitionsCreateWithSizes_tiles h

end Claimants

end

end Libumem.HashPartition
