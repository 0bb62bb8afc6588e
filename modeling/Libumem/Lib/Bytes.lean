import Mathlib

/-!
# A memory of bytes

A memory gives the byte at each address. A write replaces a run of bytes, and a number is read and
written with its low byte first. Runs go around the end of the address space, so that no lemma here
has to exclude it.
-/

namespace Libumem.Lib
open BitVec
variable {w : Nat}

abbrev Mem (w : Nat) := BitVec w → BitVec 8

/-- The addresses of a run of `n` bytes. -/
def region (a : BitVec w) (n : Nat) : Set (BitVec w) := {x | (x - a).toNat < n}

/-- The byte of a number that stands at offset `i`. -/
def byteOf (v i : Nat) : BitVec 8 := BitVec.ofNat 8 (v / 256 ^ i)

namespace Mem

def write (m : Mem w) (a : BitVec w) (n : Nat) (f : Nat → BitVec 8) : Mem w :=
  fun x => if (x - a).toNat < n then f (x - a).toNat else m x

/-- The number in `n` bytes. -/
def read (m : Mem w) : Nat → BitVec w → Nat
  | 0, _ => 0
  | n + 1, a => (m a).toNat + 256 * m.read n (a + 1)

def load64 (m : Mem w) (a : BitVec w) : BitVec 64 := BitVec.ofNat 64 (m.read 8 a)

def store64 (m : Mem w) (a : BitVec w) (v : BitVec 64) : Mem w := m.write a 8 (byteOf v.toNat)

def store32 (m : Mem w) (a : BitVec w) (v : BitVec 32) : Mem w := m.write a 4 (byteOf v.toNat)

/-- A pattern of eight bytes over the whole words that a run begins. -/
def fill (m : Mem w) (pattern : BitVec 64) (a : BitVec w) (size : Nat) : Mem w :=
  m.write a ((size + 7) / 8 * 8) fun i => byteOf pattern.toNat (i % 8)

def bzero (m : Mem w) (a : BitVec w) (size : Nat) : Mem w := m.write a size fun _ => 0

end Mem

section
variable {a b x : BitVec w} {i j k n c : Nat}

theorem mem_region : x ∈ region a n ↔ (x-a).toNat < n := Iff.rfl

theorem region_mono (h : k ≤ n) : region a k ⊆ region a n := fun _ hx => lt_of_lt_of_le hx h

theorem region_offset_subset {o : BitVec w} (h : o.toNat+k ≤ n) : region (a+o) k ⊆ region a n := by
  intro x hx
  rw [mem_region] at hx ⊢
  have hsplit : x-a = (x-(a+o))+o := by
    rw [← sub_sub, sub_add_cancel]
  calc (x-a).toNat
      ≤ (x-(a+o)).toNat+o.toNat := by
        rw [hsplit, toNat_add]
        exact Nat.mod_le _ _
    _ < n := by omega

theorem region_add_subset (h : i+k ≤ n) : region (a+BitVec.ofNat w i) k ⊆ region a n := by
  apply region_offset_subset
  have hle : (BitVec.ofNat w i).toNat ≤ i := by
    rw [toNat_ofNat]
    exact Nat.mod_le i _
  omega

theorem toNat_sub_of_mem (hx : x ∈ region (a+BitVec.ofNat w i) k) (h : i+k ≤ 2^w) :
    ∃ r < k, (x-a).toNat = i+r := by
  rw [mem_region] at hx
  have hsplit : x-a = (x-(a+BitVec.ofNat w i))+BitVec.ofNat w i := by
    rw [← sub_sub, sub_add_cancel]
  refine ⟨_, hx, ?_⟩
  rw [hsplit, toNat_add, toNat_ofNat, Nat.mod_eq_of_lt (by omega : i < 2^w),
    Nat.mod_eq_of_lt (by omega), Nat.add_comm]

theorem disjoint_region_add (hij : i+k ≤ j) (hi : i+k ≤ 2^w) (hj : j+n ≤ 2^w) :
    Disjoint (region (a+BitVec.ofNat w i) k) (region (a+BitVec.ofNat w j) n) := by
  rw [Set.disjoint_left]
  intro x hxi hxj
  obtain ⟨r, hr, hsub⟩ := toNat_sub_of_mem hxi hi
  obtain ⟨r', hr', hsub'⟩ := toNat_sub_of_mem hxj hj
  omega

theorem disjoint_region_of_le (hab : a.toNat+k ≤ b.toNat) (hb : b.toNat+n ≤ 2^w) :
    Disjoint (region a k) (region b n) := by
  have h := disjoint_region_add (a := (0 : BitVec w)) hab (by omega) hb
  simpa using h

theorem disjoint_region_mul (hne : i ≠ j) (hi : (i+1) * c ≤ 2^w) (hj : (j+1) * c ≤ 2^w) :
    Disjoint (region (a+BitVec.ofNat w (i * c)) c) (region (a+BitVec.ofNat w (j * c)) c) := by
  rw [Nat.add_mul, Nat.one_mul] at hi hj
  rcases lt_or_gt_of_ne hne with hlt | hlt
  · have hle : i * c+c ≤ j * c := by
      have := Nat.mul_le_mul_right c (Nat.succ_le_of_lt hlt)
      rwa [Nat.succ_mul] at this
    exact disjoint_region_add hle hi hj
  · have hle : j * c+c ≤ i * c := by
      have := Nat.mul_le_mul_right c (Nat.succ_le_of_lt hlt)
      rwa [Nat.succ_mul] at this
    exact (disjoint_region_add hle hj hi).symm

end

namespace Mem
variable {m m' : Mem w} {a b x : BitVec w} {n k : Nat} {f : Nat → BitVec 8} {v : BitVec 64}

theorem write_of_notMem (h : x ∉ region a n) : m.write a n f x = m x := if_neg h

theorem store64_of_notMem (h : x ∉ region a 8) : m.store64 a v x = m x := write_of_notMem h

theorem read_congr (h : ∀ x ∈ region a n, m x = m' x) : m.read n a = m'.read n a := by
  induction n generalizing a with
  | zero => rfl
  | succ n ih =>
    have hself : a ∈ region a (n+1) := by
      rw [mem_region, BitVec.sub_self]
      simp
    have hrest : ∀ x ∈ region (a+1) n, m x = m' x := by
      intro x hx
      apply h
      exact region_add_subset (i := 1) (by omega) hx
    rw [read, read, h a hself, ih hrest]

theorem load64_congr (h : ∀ x ∈ region a 8, m x = m' x) : m.load64 a = m'.load64 a := by
  rw [load64, load64, read_congr h]

theorem load64_write (h : Disjoint (region b 8) (region a n)) :
    (m.write a n f).load64 b = m.load64 b := by
  apply load64_congr
  intro x hx
  exact write_of_notMem (Set.disjoint_left.mp h hx)

theorem load64_store64_of_disjoint (h : Disjoint (region b 8) (region a 8)) :
    (m.store64 a v).load64 b = m.load64 b := load64_write h

theorem read_write_digits (v i : Nat) (hn : i+k ≤ n) (hw : n ≤ 2^w) :
    (m.write a n (byteOf v)).read k (a+BitVec.ofNat w i) = v/256^i % 256^k := by
  induction k generalizing i with
  | zero => simp [read, Nat.mod_one]
  | succ k ih =>
    have hoff : (a+BitVec.ofNat w i-a).toNat = i := by
      rw [add_sub_cancel_left, toNat_ofNat, Nat.mod_eq_of_lt (by omega)]
    have hbyte : (m.write a n (byteOf v)) (a+BitVec.ofNat w i) = byteOf v i := by
      rw [write, hoff, if_pos (by omega)]
    have hnext : a+BitVec.ofNat w i+1 = a+BitVec.ofNat w (i+1) := by
      rw [add_assoc, ofNat_add]
      rfl
    have hbound : (byteOf v i).toNat = v/256^i % 256 := toNat_ofNat _ _
    rw [read, hbyte, hnext, ih (i+1) (by omega), hbound, Nat.pow_succ 256 i,
      ← Nat.div_div_eq_div_mul, Nat.pow_succ', Nat.mod_mul]

theorem load64_store64 (hw : 8 ≤ 2^w) : (m.store64 a v).load64 a = v := by
  have hread := read_write_digits (m := m) (a := a) v.toNat 0 (le_refl (0+8)) hw
  rw [BitVec.add_zero, Nat.pow_zero, Nat.div_one, Nat.zero_add] at hread
  rw [load64, store64, hread, Nat.mod_eq_of_lt (by omega), ofNat_toNat, setWidth_eq]

end Mem
end Libumem.Lib
