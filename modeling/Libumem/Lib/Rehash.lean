import Libumem.Lib.Buckets
import Libumem.Lib.Chain

/-!
# Rebuilding a table of chains in place

The nodes of a table are linked into chains, and the table has a pointer to each. To rebuild it
under a new key, the old chains are walked one after the other and every node is pushed on the new
chain of its key. The push overwrites the link that the walk has to follow, so the link is read
first; and the chains still to be walked are left alone, because no node is on two chains.
-/

namespace Libumem.Lib
open Function List

/-- The pointers of a table and the links of the nodes. -/
structure Heads (κ α π : Type*) where
  head : κ → π
  next : α → π

variable {α κ π : Type*}
section
variable [DecidableEq κ] (key : α → κ)

def pushFront (table : κ → List α) (x : α) : κ → List α :=
  update table (key x) (x :: table (key x))

/-- The lists after all nodes have been pushed on empty ones. -/
def relink (l : List α) : κ → List α := l.foldl (pushFront key) fun _ => []

variable {key}

theorem relink_append_singleton {l : List α} {x : α} :
    relink key (l ++ [x]) = pushFront key (relink key l) x := by
  rw [relink, foldl_append]
  rfl

theorem buckets_relink {l : List α} (hnd : l.Nodup) : Buckets (relink key l) (· ∈ l) key := by
  induction l using reverseRecOn with
  | nil => exact Buckets.empty (by simp)
  | append_singleton l x ih =>
    have hx := nodup_append.mp hnd
    rw [relink_append_singleton]
    refine (ih hx.1).insert key (fun hmem => hx.2.2 x hmem x (by simp) rfl) (fun y => ?_)
      fun _ _ => rfl
    simp [or_comm]

theorem mem_relink {l : List α} {k : κ} {x : α} (hnd : l.Nodup) :
    x ∈ relink key l k ↔ x ∈ l ∧ key x = k :=
  (buckets_relink hnd).mem k x

end

variable (node : π → Option α)

def Heads.Reps (t : Heads κ α π) (table : κ → List α) : Prop :=
  ∀ k, Chain (fun a => node (t.next a)) (node (t.head k)) (table k)

variable [DecidableEq α] [DecidableEq κ] (addr : α → π) (key : α → κ)

def Heads.push (t : Heads κ α π) (x : α) : Heads κ α π where
  head := update t.head (key x) (addr x)
  next := update t.next x (t.head (key x))

/-- Push the nodes from `p` on. The walk has `n` turns, and `none` means that they were not
enough. -/
def pushChain : Nat → π → Heads κ α π → Option (Heads κ α π)
  | 0, p, t => if (node p).isNone then some t else none
  | n + 1, p, t =>
    match node p with
    | none => some t
    | some x => pushChain n (t.next x) (t.push addr key x)

def pushChains (n : Nat) (old : κ → π) : List κ → Heads κ α π → Option (Heads κ α π)
  | [], t => some t
  | k :: ks, t => (pushChain node addr key n (old k) t).bind (pushChains n old ks)

variable {node addr key} {t : Heads κ α π} {table : κ → List α} {l done : List α} {n : Nat}

theorem Heads.push_next_of_ne {x a : α} (h : a ≠ x) :
    (t.push addr key x).next a = t.next a := update_of_ne h _ _

theorem Heads.Reps.push {x : α} (h : t.Reps node table) (haddr : node (addr x) = some x)
    (hx : ∀ k, x ∉ table k) : (t.push addr key x).Reps node (pushFront key table x) := by
  have hlink : ∀ k, ∀ a ∈ table k,
      node ((t.push addr key x).next a) = node (t.next a) := by
    intro k a ha
    rw [Heads.push_next_of_ne]
    rintro rfl
    exact hx k ha
  intro k
  by_cases hk : k = key x
  · subst hk
    have hhead : (t.push addr key x).head (key x) = addr x := update_self _ _ _
    have hnext : (t.push addr key x).next x = t.head (key x) := update_self _ _ _
    rw [pushFront, update_self, hhead]
    refine ⟨haddr, ?_⟩
    beta_reduce
    rw [hnext]
    exact (h (key x)).congr (hlink _)
  · have hhead : (t.push addr key x).head k = t.head k := update_of_ne hk _ _
    rw [pushFront, update_of_ne hk, hhead]
    exact (h k).congr (hlink k)

/-- One old chain. The new chains hold the nodes that are done. -/
theorem pushChain_spec {p : π} (h : t.Reps node (relink key done))
    (hp : Chain (fun a => node (t.next a)) (node p) l) (hnd : (done ++ l).Nodup)
    (hn : l.length ≤ n) (haddr : ∀ a ∈ l, node (addr a) = some a) :
    ∃ t', pushChain node addr key n p t = some t' ∧ t'.Reps node (relink key (done ++ l)) ∧
      ∀ a ∉ l, t'.next a = t.next a := by
  induction l generalizing n p t done with
  | nil =>
    have hnone : node p = none := hp
    refine ⟨t, ?_, by rwa [append_nil], fun _ _ => rfl⟩
    cases n with
    | zero => rw [pushChain, hnone, Option.isNone_none, if_pos rfl]
    | succ n => rw [pushChain, hnone]
  | cons x l ih =>
    obtain ⟨hx, hrest⟩ := hp
    cases n with
    | zero => simp at hn
    | succ n =>
      have hxl : x ∉ l := (nodup_cons.mp (nodup_append.mp hnd).2.1).1
      have hxdone : x ∉ done := by
        intro hmem
        exact (nodup_append.mp hnd).2.2 x hmem x (by simp) rfl
      have hpush : (t.push addr key x).Reps node (relink key (done ++ [x])) := by
        rw [relink_append_singleton]
        refine h.push (haddr x (by simp)) fun k hk => hxdone ?_
        exact ((mem_relink (nodup_append.mp hnd).1).mp hk).1
      -- the rest of the old chain is not touched by the push
      have hrest' : Chain (fun a => node ((t.push addr key x).next a)) (node (t.next x)) l := by
        refine hrest.congr fun a ha => ?_
        rw [Heads.push_next_of_ne]
        rintro rfl
        exact hxl ha
      obtain ⟨t', ht', hreps, hsame⟩ := ih hpush hrest' (by simpa using hnd)
        (by simpa using hn) fun a ha => haddr a (mem_cons_of_mem x ha)
      refine ⟨t', ?_, by simpa using hreps, fun a ha => ?_⟩
      · rw [pushChain, hx]
        exact ht'
      · rw [mem_cons, not_or] at ha
        rw [hsame a ha.2, Heads.push_next_of_ne ha.1]

theorem pushChains_spec {old : κ → π} {lists : κ → List α} {ks : List κ}
    (h : t.Reps node (relink key done))
    (hold : ∀ k ∈ ks, Chain (fun a => node (t.next a)) (node (old k)) (lists k))
    (hnd : (done ++ ks.flatMap lists).Nodup) (hn : ∀ k ∈ ks, (lists k).length ≤ n)
    (haddr : ∀ k ∈ ks, ∀ a ∈ lists k, node (addr a) = some a) :
    ∃ t', pushChains node addr key n old ks t = some t' ∧
      t'.Reps node (relink key (done ++ ks.flatMap lists)) ∧
      ∀ a ∉ ks.flatMap lists, t'.next a = t.next a := by
  induction ks generalizing t done with
  | nil => exact ⟨t, rfl, by simpa using h, fun _ _ => rfl⟩
  | cons k ks ih =>
    rw [flatMap_cons, ← append_assoc] at hnd
    obtain ⟨t₁, ht₁, hreps₁, hsame₁⟩ := pushChain_spec h (hold k (by simp))
      (nodup_append.mp hnd).1 (hn k (by simp)) (haddr k (by simp))
    have hold₁ : ∀ j ∈ ks, Chain (fun a => node (t₁.next a)) (node (old j)) (lists j) := by
      intro j hj
      refine (hold j (mem_cons_of_mem k hj)).congr fun a ha => ?_
      rw [hsame₁ a]
      intro hmem
      have hout := (nodup_append.mp hnd).2.2 a (mem_append_right _ hmem)
      exact hout a (mem_flatMap.mpr ⟨j, hj, ha⟩) rfl
    obtain ⟨t₂, ht₂, hreps₂, hsame₂⟩ := ih hreps₁ hold₁ hnd
      (fun j hj => hn j (mem_cons_of_mem k hj))
      fun j hj => haddr j (mem_cons_of_mem k hj)
    refine ⟨t₂, ?_, ?_, fun a ha => ?_⟩
    · rw [pushChains, ht₁, Option.bind_some]
      exact ht₂
    · rwa [flatMap_cons, ← append_assoc]
    · rw [flatMap_cons, mem_append, not_or] at ha
      rw [hsame₂ a ha.2, hsame₁ a ha.1]

variable (node addr key) in
/-- The whole table, from one whose pointers are null. -/
theorem pushChains_rebuild {old : κ → π} {lists : κ → List α} {ks : List κ} {null : π}
    {next : α → π} (hnull : node null = none) (hold : Heads.Reps node ⟨old, next⟩ lists)
    (hnd : (ks.flatMap lists).Nodup) (hn : ∀ k ∈ ks, (lists k).length ≤ n)
    (haddr : ∀ k ∈ ks, ∀ a ∈ lists k, node (addr a) = some a) :
    ∃ t', pushChains node addr key n old ks ⟨fun _ => null, next⟩ = some t' ∧
      t'.Reps node (relink key (ks.flatMap lists)) ∧
      ∀ a ∉ ks.flatMap lists, t'.next a = next a := by
  have hempty : Heads.Reps node (⟨fun _ => null, next⟩ : Heads κ α π) (relink key []) :=
    fun _ => hnull
  exact pushChains_spec hempty (fun k _ => hold k) (by simpa using hnd) hn haddr

end Libumem.Lib
