import Libumem.HashPartition.Build

/-!
# The shares of the claimants

`hash_partitions_create` cuts the hash space into equal parts. The part is fixed before the empty
names are passed over, and what they would have had goes to the last claimant.
-/

namespace Libumem.HashPartition
open List Arith

/-- There is an interval for each claimant, and its size differs from an equal part of the hash
space by no more than the number of names in the array. -/
def EqualShares (claimants : List Name) (hp : HashPartitions) : Prop :=
  hp.map (·.name) = (claimed claimants).map copyName ∧ ∀ e ∈ hp,
    e.intervalSize.toNat ≤ uint64Max.toNat / (claimed claimants).length + claimants.length ∧
      uint64Max.toNat / (claimed claimants).length ≤ e.intervalSize.toNat + claimants.length

instance (claimants : List Name) (hp : HashPartitions) : Decidable (EqualShares claimants hp) :=
  inferInstanceAs (Decidable (_ ∧ _))

variable {claimants : List Name}

theorem interval_toNat (hn : claimants.length ≤ maxClaimants) :
    (uint64Max/BitVec.ofNat 64 claimants.length).toNat = uint64Max.toNat/claimants.length := by
  rw [BitVec.toNat_udiv, BitVec.toNat_ofNat, Nat.mod_eq_of_lt (hn.trans_lt (by decide))]

theorem hashPartitionsCreate_eq (hn : claimants.length ≤ maxClaimants)
    (hclaimed : claimed claimants ≠ []) :
    ∃ es last, hashPartitionsCreate true claimants = some (es ++ [last]) ∧
      (es ++ [last]).map (·.name) = (claimed claimants).map copyName ∧
      ∀ e ∈ es, e.intervalSize.toNat = uint64Max.toNat/claimants.length := by
  have hpos : claimants.length ≠ 0 := by
    have := length_pos_iff.mpr hclaimed
    have := claimed_length_le claimants
    omega
  obtain ⟨es, heq, hnames, hsizes⟩ :=
    createLoop_eq_append (uint64Max/BitVec.ofNat 64 claimants.length) claimants 0 []
  rw [nil_append] at heq
  have hne : es ≠ [] := fun h => hclaimed (by simpa [h] using hnames)
  obtain ⟨front, e, rfl⟩ := eq_nil_or_concat' es |>.resolve_left hne
  have halloc : hashPartitionsAlloc true claimants.length = true := by
    simp [hashPartitionsAlloc, hpos, hn]
  generalize hmore : uint64Max-(front ++ [e]).foldl (fun sum e => sum+e.intervalSize) 0 = more
  refine ⟨front, { e with intervalSize := e.intervalSize+more }, ?_, ?_, fun x hx => ?_⟩
  · rw [hashPartitionsCreate, if_neg hpos, if_pos halloc]
    dsimp only
    rw [heq, if_pos (by simp), hmore, growLast_snoc]
  · rw [← hnames]
    simp
  · rw [hsizes x (by simp [hx]), interval_toNat hn]

theorem part_lt {m k n : Nat} (hk : 0 < k) (hkn : k < n) (hn : n≤1024) (hm : 2^40 ≤ m) :
    m/n+n < m/k := by
  by_contra! hle
  have hq := Nat.div_mul_le_self m n
  have hlow : 2^30 ≤ m/n := (Nat.le_div_iff_mul_le (by omega)).mpr (by omega)
  have hup : m < (m/k+1) * k := by
    have := Nat.div_add_mod m k
    have := Nat.mod_lt m hk
    nlinarith
  nlinarith

/-- Each claimant gets an equal share if and only if no name is empty or there is one claimant. -/
theorem equal_shares_iff (hn : claimants.length ≤ maxClaimants) (hclaimed : claimed claimants ≠ []) :
    ∃ hp, hashPartitionsCreate true claimants = some hp ∧
      (EqualShares claimants hp ↔
        (claimed claimants).length = claimants.length ∨ (claimed claimants).length = 1) := by
  obtain ⟨es, last, heq, hnames, hsizes⟩ := hashPartitionsCreate_eq hn hclaimed
  refine ⟨_, heq, ?_⟩
  have hk : es.length+1 = (claimed claimants).length := by
    simpa using congrArg List.length hnames
  have hle := claimed_length_le claimants
  have hsum := (hashPartitionsCreate_tiles heq (by simp)).sum
  have hfront : (es.map fun e => e.intervalSize.toNat).sum =
      es.length * (uint64Max.toNat / claimants.length) := by
    rw [map_congr_left hsizes, map_const', sum_replicate, smul_eq_mul]
  rw [map_append, sum_append, hfront, map_singleton, sum_singleton, ← uint64Max_toNat] at hsum
  have hdiv := Nat.div_add_mod uint64Max.toNat claimants.length
  have hmod := Nat.mod_lt uint64Max.toNat (show 0 < claimants.length by omega)
  generalize hq : uint64Max.toNat / claimants.length = q at hsizes hsum hdiv
  constructor
  · rintro ⟨-, hshares⟩
    by_contra! hnot
    obtain ⟨e, hmem⟩ := exists_mem_of_length_pos (l := es) (by omega)
    have hlow := (hshares e (by simp [hmem])).2
    have hfar := part_lt (m := uint64Max.toNat) (k := (claimed claimants).length)
      (n := claimants.length) (by omega) (by omega) hn (by decide)
    rw [hsizes e hmem] at hlow
    omega
  · rintro (hall | hone)
    · refine ⟨hnames, fun e he => ?_⟩
      rw [hall, hq]
      rcases mem_append.mp he with he | he
      · rw [hsizes e he]
        omega
      · have : (es.length+1) * q = es.length * q+q := Nat.succ_mul _ _
        rw [hk, hall] at this
        obtain rfl := mem_singleton.mp he
        omega
    · obtain rfl := eq_nil_of_length_eq_zero (show es.length = 0 by omega)
      refine ⟨hnames, fun e he => ?_⟩
      obtain rfl := mem_singleton.mp he
      rw [length_nil, Nat.zero_mul] at hsum
      rw [hone, Nat.div_one]
      omega

/-- The empty name stands at the end, and its part goes to the second claimant. -/
theorem empty_name_not_equal_shares :
    ∃ hp, hashPartitionsCreate true [['a'], ['b'], []] = some hp ∧
      ¬EqualShares [['a'], ['b'], []] hp :=
  ⟨[⟨0, 6148914691236517205, ['a']⟩, ⟨6148914691236517205, 12297829382473034410, ['b']⟩],
    by decide +kernel, by decide +kernel⟩

theorem equal_shares_three : ∃ hp, hashPartitionsCreate true [['a'], ['b'], ['c']] = some hp ∧
    EqualShares [['a'], ['b'], ['c']] hp := by
  obtain ⟨hp, hbuilt, hiff⟩ := @equal_shares_iff [['a'], ['b'], ['c']] (by decide) (by decide)
  exact ⟨hp, hbuilt, hiff.mpr (.inl rfl)⟩

end Libumem.HashPartition
