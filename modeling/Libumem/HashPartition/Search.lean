import Libumem.HashPartition.Build

/-!
# The claimant of a hash value

The binary search of `hash_partitions_get_claimant` ends at the interval of the hash value. Its
indices are unsigned words.
-/

namespace Libumem.HashPartition
open Option BitVec Arith Lib

/-- The loop of the search. It fails when it runs out of turns or reads outside of the table. -/
def searchLoop (hp : HashPartitions) (hash : Word) : Nat → Word → Word → Option (Option Name)
  | 0, _, _ => none
  | turns + 1, left, right =>
    if left ≤ right then
      let mid := left + (right - left) / 2
      (hp[mid.toNat]?).bind fun e =>
        if e.lowerBound ≤ hash then
          if mid = BitVec.ofNat 64 hp.length - 1 then some (some e.name)
          else (hp[(mid + 1).toNat]?).bind fun next =>
            if hash < next.lowerBound then some (some e.name)
            else searchLoop hp hash turns (mid + 1) right
        else if mid = 0 then some none
        else searchLoop hp hash turns left (mid - 1)
    else some none

/-- The result is a null pointer when there is no claimant. -/
def hashPartitionsGetClaimant (turns : Nat) (hp : Option HashPartitions) (hash : Word) :
    Option (Option Name) :=
  match hp with
  | none => some none
  | some hp =>
    if hp.length = 0 then some none
    else (hp[(BitVec.ofNat 64 hp.length - 1).toNat]?).bind fun last =>
      if last.lowerBound ≤ hash then some (some last.name)
      else searchLoop hp hash turns 0 (BitVec.ofNat 64 hp.length - 1)

variable {hp : HashPartitions} {hash : Word} {i : Nat} {e : Entry}

/-- The interval at the index contains the hash value. The top value is in none, and the last
claimant has it. -/
def Owns (hp : HashPartitions) (hash : Word) (i : Nat) : Prop :=
  ∃ e, hp[i]? = some e ∧
    (e.lowerBound ≤ hash ∧ hash.toNat < e.lowerBound.toNat + e.intervalSize.toNat ∨
      hash = uint64Max ∧ i + 1 = hp.length)

theorem toNat_mid {left right : Word} (hle : left ≤ right) :
    (left+(right-left)/2).toNat = left.toNat+(right.toNat-left.toNat)/2 := by
  have hle' : left.toNat ≤ right.toNat := hle
  have hright := right.isLt
  have hhalf : ((right-left)/2).toNat = (right.toNat-left.toNat)/2 := by
    rw [toNat_udiv, toNat_sub_of_le hle]
    rfl
  rw [toNat_add, hhalf]
  exact Nat.mod_eq_of_lt (by omega)

theorem toNat_last (hlen : hp.length ≤ maxClaimants) (hpos : 0 < hp.length) :
    (BitVec.ofNat 64 hp.length-1).toNat = hp.length-1 := by
  have hmax : maxClaimants = 1024 := rfl
  have hofNat : (BitVec.ofNat 64 hp.length).toNat = hp.length := by
    rw [toNat_ofNat]
    exact Nat.mod_eq_of_lt (by omega)
  have hone : (1 : Word) ≤ BitVec.ofNat 64 hp.length := by
    rw [le_def, hofNat]
    exact hpos
  rw [toNat_sub_of_le hone, hofNat]
  rfl

/-- The search keeps the index of the interval between its bounds. -/
theorem searchLoop_eq (hlen : hp.length ≤ maxClaimants) (he : hp[i]? = some e)
    (hi : i+1 < hp.length) (hbelow : ∀ j x, hp[j]? = some x → (x.lowerBound ≤ hash ↔ j ≤ i)) :
    ∀ turns left right, left.toNat ≤ i → i ≤ right.toNat → right.toNat < hp.length →
      right.toNat-left.toNat < turns →
      searchLoop hp hash turns left right = some (some e.name) := by
  have hmax : maxClaimants = 1024 := rfl
  intro turns
  induction turns with
  | zero =>
    intro left right _ _ _ hturns
    exact absurd hturns (Nat.not_lt_zero _)
  | succ turns ih =>
    intro left right hleft hright hlt hturns
    have hle : left ≤ right := hleft.trans hright
    have hmid := toNat_mid hle
    rw [searchLoop, if_pos hle]
    dsimp only
    generalize left+(right-left)/2 = mid at hmid ⊢
    have hmidlt : mid.toNat < hp.length := by omega
    rw [List.getElem?_eq_getElem hmidlt, bind_some]
    have hcmp := hbelow mid.toNat _ (List.getElem?_eq_getElem hmidlt)
    by_cases hmi : mid.toNat ≤ i
    · have hne : mid ≠ BitVec.ofNat 64 hp.length-1 := by
        intro heq
        rw [heq, toNat_last hlen (by omega)] at hmi
        omega
      have hsucc : (mid+1).toNat = mid.toNat+1 := by
        rw [toNat_add]
        exact Nat.mod_eq_of_lt (by change mid.toNat+1 < _; omega)
      have hnext : mid.toNat+1 < hp.length := by omega
      rw [if_pos (hcmp.mpr hmi), if_neg hne, hsucc, List.getElem?_eq_getElem hnext, bind_some]
      have hcmp' := hbelow (mid.toNat+1) _ (List.getElem?_eq_getElem hnext)
      by_cases heq : mid.toNat = i
      · subst heq
        have hhash : ¬ hp[mid.toNat+1].lowerBound ≤ hash := fun h => by
          have := hcmp'.mp h
          omega
        rw [if_pos (BitVec.not_le.mp hhash)]
        rw [List.getElem?_eq_getElem hmidlt, some.injEq] at he
        rw [he]
      · rw [if_neg (BitVec.not_lt.mpr (hcmp'.mpr (by omega)))]
        exact ih (mid+1) right (by omega) hright hlt (by omega)
    · have hpos : mid ≠ 0 := by
        intro heq
        rw [heq] at hmi
        exact hmi (Nat.zero_le i)
      have hpred : (mid-1).toNat = mid.toNat-1 := by
        have hone : (1 : Word) ≤ mid := by
          rw [le_def]
          change 1 ≤ mid.toNat
          omega
        rw [toNat_sub_of_le hone]
        rfl
      rw [if_neg (fun h => hmi (hcmp.mp h)), if_neg hpos]
      exact ih left (mid-1) hleft (by omega) (by omega) (by omega)

/-- The table of a partition: the intervals follow one another from zero and take up the whole
space. -/
structure Consistent (hp : HashPartitions) : Prop where
  first : ∃ e, hp[0]? = some e ∧ e.lowerBound = 0
  increasing : hp.Pairwise fun e e' => e.lowerBound < e'.lowerBound
  abut : ∀ (i : Nat) (e e' : Entry), hp[i]? = some e → hp[i + 1]? = some e' →
    e'.lowerBound.toNat = e.lowerBound.toNat + e.intervalSize.toNat
  total : (hp.map fun e => e.intervalSize.toNat).sum = 2 ^ 64 - 1

theorem consistent_of_tiles (hne : hp ≠ []) (h : TilesTo hp (2^64-1)) : Consistent hp where
  first := by
    cases hp with
    | nil => exact absurd rfl hne
    | cons e l => exact ⟨e, rfl, eq_of_toNat_eq h.1⟩
  increasing := h.start_lt
  abut _ _ _ hi hi' := h.adjacent hi hi'
  total := by
    have := h.sum
    omega

theorem exists_owner (hne : hp ≠ []) (h : TilesTo hp (2^64-1)) (hash : Word) :
    ∃ (i : Nat) (e : Entry), hp[i]? = some e ∧ Owns hp hash i ∧
      ∀ (j : Nat) (x : Entry), hp[j]? = some x → (x.lowerBound ≤ hash ↔ j ≤ i) := by
  have hlt := hash.isLt
  by_cases htop : hash.toNat < 2^64-1
  · obtain ⟨i, e, hi, hle, hlt⟩ := h.exists_mem (Nat.zero_le _) htop
    exact ⟨i, e, hi, ⟨e, hi, .inl ⟨hle, hlt⟩⟩, fun j x hj => h.start_le_iff hi hle hlt hj⟩
  · have hhash : hash = uint64Max := by
      apply eq_of_toNat_eq
      rw [uint64Max_toNat]
      omega
    have hpos : 0 < hp.length := List.length_pos_iff.mpr hne
    have hlast : hp[hp.length-1]? = some hp[hp.length-1] :=
      List.getElem?_eq_getElem (by omega)
    refine ⟨hp.length-1, _, hlast, ⟨_, hlast, .inr ⟨hhash, by omega⟩⟩, fun j x hj => ?_⟩
    have hj := (List.getElem?_eq_some_iff.mp hj).1
    refine iff_of_true ?_ (by omega)
    have := x.lowerBound.isLt
    rw [le_def]
    omega

theorem Owns.unique {i j : Nat} (h : TilesTo hp (2^64-1))
    (hbelow : ∀ (j : Nat) (x : Entry), hp[j]? = some x → (x.lowerBound ≤ hash ↔ j ≤ i))
    (hi : i < hp.length) (hj : Owns hp hash j) : j = i := by
  obtain ⟨x, hx, ⟨hle, hlt⟩ | ⟨htop, hlast⟩⟩ := hj
  · have hji := (hbelow j x hx).mp hle
    by_contra hne
    -- the interval behind would start below the hash value
    have hnext : hp[j+1]? = some hp[j+1] := List.getElem?_eq_getElem (by omega)
    have hadj := h.adjacent hx hnext
    have hle' : hp[j+1].lowerBound.toNat ≤ hash.toNat := (hbelow _ _ hnext).mpr (by omega)
    omega
  · have hji : j ≤ i := by
      refine (hbelow j x hx).mp ?_
      have := x.lowerBound.isLt
      rw [htop, le_def, uint64Max_toNat]
      omega
    omega

theorem hashPartitionsGetClaimant_eq {i : Nat} {e : Entry} (hlen : hp.length ≤ maxClaimants)
    (he : hp[i]? = some e)
    (hbelow : ∀ (j : Nat) (x : Entry), hp[j]? = some x → (x.lowerBound ≤ hash ↔ j ≤ i))
    {turns : Nat} (hturns : hp.length ≤ turns) :
    hashPartitionsGetClaimant turns (some hp) hash = some (some e.name) := by
  have hi := (List.getElem?_eq_some_iff.mp he).1
  have hlast := toNat_last hlen (by omega)
  have hget : hp[hp.length-1]? = some hp[hp.length-1] := List.getElem?_eq_getElem (by omega)
  have hcmp := hbelow _ _ hget
  rw [hashPartitionsGetClaimant, if_neg (by omega), hlast, hget, bind_some]
  by_cases hend : i = hp.length-1
  · rw [if_pos (hcmp.mpr hend.ge)]
    rw [hend, hget, some.injEq] at he
    rw [he]
  · rw [if_neg fun hle => hend (le_antisymm (by omega) (hcmp.mp hle))]
    refine searchLoop_eq hlen he (by omega) hbelow turns 0 _ (Nat.zero_le i) ?_ ?_ ?_ <;>
      rw [hlast]
    · omega
    · omega
    · change hp.length-1-0 < turns
      omega

/-- An array with an accepted entry gives a table if it is not too long. Every table is a partition
of the hash space among the accepted claimants, and the search finds the one whose interval has the
hash value. -/
theorem hash_partitions_sound (arr : Claimants) (haccepted : arr.accepted ≠ []) :
    ((arr.create true).isSome ↔ arr.length ≤ maxClaimants) ∧
    ∀ memory hp, arr.create memory = some hp →
      hp.map (·.name) = arr.accepted ∧ Consistent hp ∧
      ∀ hash, ∃ (i : Nat) (e : Entry), hp[i]? = some e ∧ Owns hp hash i ∧
        (∀ j, Owns hp hash j → j = i) ∧
        ∀ turns, hp.length ≤ turns →
          hashPartitionsGetClaimant turns (some hp) hash = some (some e.name) := by
  refine ⟨Claimants.create_isSome_iff haccepted, fun memory hp h => ?_⟩
  have hnames := Claimants.create_names h
  have hne : hp ≠ [] := by
    rintro rfl
    exact haccepted hnames.symm
  have htiles := Claimants.create_tiles h hne
  refine ⟨hnames, consistent_of_tiles hne htiles, fun hash => ?_⟩
  obtain ⟨i, e, hi, howns, hbelow⟩ := exists_owner hne htiles hash
  have hlt := (List.getElem?_eq_some_iff.mp hi).1
  exact ⟨i, e, hi, howns, fun j hj => hj.unique htiles hbelow hlt,
    fun turns hturns => hashPartitionsGetClaimant_eq (Claimants.create_length_le h) hi hbelow hturns⟩

/-- Three claimants, of which the middle one asks for nothing. -/
def twoOfThree : Claimants := .sizes [⟨['a'], 5⟩, ⟨['b'], 0⟩, ⟨['c'], 7⟩]

theorem hash_partitions_twoOfThree : ∃ hp, twoOfThree.create true = some hp ∧
    hp = [⟨0, 5, ['a']⟩, ⟨5, uint64Max - 5, ['c']⟩] ∧ hp.map (·.name) = [['a'], ['c']] ∧
      Consistent hp := by
  obtain ⟨hsome, hsound⟩ := hash_partitions_sound twoOfThree (by decide)
  obtain ⟨hp, hp_eq⟩ := Option.isSome_iff_exists.mp (hsome.mpr (by decide))
  obtain ⟨hnames, hconsistent, -⟩ := hsound true hp hp_eq
  refine ⟨hp, hp_eq, ?_, hnames, hconsistent⟩
  have hbuilt : twoOfThree.create true = some [⟨0, 5, ['a']⟩, ⟨5, uint64Max-5, ['c']⟩] := by
    decide +kernel
  exact Option.some.inj (hp_eq.symm.trans hbuilt)

end Libumem.HashPartition
