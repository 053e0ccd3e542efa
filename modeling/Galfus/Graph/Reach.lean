import Mathlib.Algebra.Order.BigOperators.Group.Finset

/-! # Adjacency-list graphs

A directed multigraph is given by one adjacency list per node. This file has
its reachability relation, closed node sets, and the number of references that
a set of nodes holds to one node.
-/

namespace Galfus.Graph

variable {ν : Type*}

def Reaches (succ : ν → List ν) : ν → ν → Prop :=
  Relation.ReflTransGen fun u w => w ∈ succ u

def Closed (succ : ν → List ν) (S : Set ν) : Prop :=
  ∀ u ∈ S, ∀ w ∈ succ u, w ∈ S

variable {succ s' : ν → List ν} {S : Set ν} {u v w : ν}

theorem Reaches.refl (u : ν) : Reaches succ u u := Relation.ReflTransGen.refl

theorem Reaches.trans (h : Reaches succ u v) (h' : Reaches succ v w) : Reaches succ u w :=
  Relation.ReflTransGen.trans h h'

theorem Reaches.head (h : v ∈ succ u) (h' : Reaches succ v w) : Reaches succ u w :=
  Relation.ReflTransGen.head h h'

theorem Reaches.tail (h : Reaches succ u v) (h' : w ∈ succ v) : Reaches succ u w :=
  Relation.ReflTransGen.tail h h'

theorem Reaches.mono (hs : ∀ u, succ u ⊆ s' u) (h : Reaches succ u w) : Reaches s' u w :=
  Relation.ReflTransGen.mono (fun a _ hab => hs a hab) _ _ h

theorem Closed.mem_of_reaches (hS : Closed succ S) (hu : u ∈ S) (h : Reaches succ u w) : w ∈ S := by
  induction h with
  | refl => exact hu
  | tail _ hw ih => exact hS _ ih _ hw

/-- A path into `S` from outside crosses into `S` along some edge. -/
theorem Reaches.exists_crossing (h : Reaches succ u w) (hu : u ∉ S) (hw : w ∈ S) :
    ∃ a b, Reaches succ u a ∧ a ∉ S ∧ b ∈ succ a ∧ b ∈ S ∧ Reaches succ b w := by
  induction h using Relation.ReflTransGen.head_induction_on with
  | refl => exact absurd hw hu
  | @head a b hab hbw ih =>
    by_cases hb : b ∈ S
    · exact ⟨a, b, .refl a, hu, hab, hb, hbw⟩
    · obtain ⟨c, d, hc, hcS, hd, hdS, hdw⟩ := ih hb
      exact ⟨c, d, .head hab hc, hcS, hd, hdS, hdw⟩

section Refs

variable [DecidableEq ν] {M N : Finset ν}

/-- How often the nodes of `N` refer to `w`. -/
def refs (succ : ν → List ν) (N : Finset ν) (w : ν) : ℕ :=
  ∑ u ∈ N, (succ u).count w

@[simp] theorem refs_empty (w : ν) : refs succ ∅ w = 0 := rfl

theorem refs_union (h : Disjoint M N) (w : ν) :
    refs succ (M ∪ N) w = refs succ M w + refs succ N w :=
  Finset.sum_union h

theorem refs_insert (h : v ∉ N) (w : ν) :
    refs succ (insert v N) w = (succ v).count w + refs succ N w :=
  Finset.sum_insert h

theorem refs_mono (h : M ⊆ N) (w : ν) : refs succ M w ≤ refs succ N w :=
  Finset.sum_le_sum_of_subset h

theorem refs_eq_zero_iff : refs succ N w = 0 ↔ ∀ u ∈ N, w ∉ succ u := by
  simp [refs, Finset.sum_eq_zero_iff, List.count_eq_zero]

end Refs

end Galfus.Graph
