import Mathlib.Data.List.Sort

/-! # Sorted lists

Sets as lists in ascending order.
-/

namespace Galfus

variable {α : Type} [Ord α]

/-- Insert an element unless one that compares equal is there. -/
def insertSorted (x : α) : List α → List α
  | [] => [x]
  | y :: ys =>
    match compare x y with
    | .lt => x :: y :: ys
    | .eq => y :: ys
    | .gt => y :: insertSorted x ys

theorem perm_insertSorted {x : α} {l : List α} (h : ∀ y ∈ l, compare x y ≠ .eq) :
    (insertSorted x l).Perm (x :: l) := by
  induction l with
  | nil => rfl
  | cons z zs ih =>
    obtain ⟨hz, hzs⟩ := List.forall_mem_cons.mp h
    unfold insertSorted
    cases hc : compare x z with
    | lt => rfl
    | eq => exact absurd hc hz
    | gt => exact ((ih hzs).cons z).trans (.swap x z zs)

theorem pairwise_insertSorted
    (ht : ∀ x y z : α, compare x y = .lt → compare y z = .lt → compare x z = .lt)
    (hgt : ∀ x y : α, compare x y = .gt → compare y x = .lt) {x : α} {l : List α}
    (hx : ∀ y ∈ l, compare x y ≠ .eq) (h : l.Pairwise (compare · · = .lt)) :
    (insertSorted x l).Pairwise (compare · · = .lt) := by
  induction l with
  | nil => exact List.pairwise_singleton _ x
  | cons z zs ih =>
    obtain ⟨hz, hzs⟩ := List.pairwise_cons.mp h
    obtain ⟨hxz, hxs⟩ := List.forall_mem_cons.mp hx
    unfold insertSorted
    cases hc : compare x z with
    | lt =>
      refine List.pairwise_cons.mpr ⟨List.forall_mem_cons.mpr ⟨hc, fun y hy => ?_⟩, h⟩
      exact ht x z y hc (hz y hy)
    | eq => exact absurd hc hxz
    | gt =>
      refine List.pairwise_cons.mpr ⟨fun y hy => ?_, ih hxs hzs⟩
      rcases List.mem_cons.mp ((perm_insertSorted hxs).mem_iff.mp hy) with rfl | hy
      · exact hgt y z hc
      · exact hz y hy

section Neighbours

variable {α β : Type}

/-- The first two neighbours of a list with the same key. -/
def equalNeighbours [DecidableEq β] (key : α → β) : List α → Option (α × α)
  | a :: b :: rest =>
    if key a = key b then some (a, b) else equalNeighbours key (b :: rest)
  | _ => none

/-- In a list that is sorted by the key, equal keys are neighbours. -/
theorem equalNeighbours_eq_none [LinearOrder β] {key : α → β} {l : List α}
    (h : l.Pairwise fun a b => key a ≤ key b) :
    equalNeighbours key l = none ↔ (l.map key).Nodup := by
  induction l with
  | nil => simp [equalNeighbours]
  | cons a l ih =>
    obtain ⟨ha, hl⟩ := List.pairwise_cons.mp h
    cases l with
    | nil => simp [equalNeighbours]
    | cons b l =>
      rw [equalNeighbours, List.map_cons, List.nodup_cons, ← ih hl]
      by_cases hab : key a = key b
      · simp [hab]
      · rw [if_neg hab, iff_and_self]
        intro _ hm
        obtain ⟨c, hc, hac⟩ := List.mem_map.mp hm
        rcases List.mem_cons.mp hc with rfl | hc
        · exact hab hac.symm
        · refine hab (le_antisymm (ha b List.mem_cons_self) ?_)
          exact hac ▸ (List.pairwise_cons.mp hl).1 c hc

/-- Sorting by a relation that refines the order of the keys brings equal keys together. -/
theorem equalNeighbours_sort [LinearOrder β] (key : α → β) (r : α → α → Prop)
    [DecidableRel r] [Std.Total r] [IsTrans α r] (hr : ∀ a b, r a b → key a ≤ key b)
    (l : List α) : equalNeighbours key (l.insertionSort r) = none ↔ (l.map key).Nodup := by
  have hs := (List.pairwise_insertionSort r l).imp fun {a b} => hr a b
  rw [equalNeighbours_eq_none hs]
  exact ((List.perm_insertionSort r l).map key).nodup_iff

end Neighbours

section Lexicographic

variable {α β γ : Type} [LinearOrder β] [LinearOrder γ] (f : α → β) (g : α → γ)

instance lex_total : Std.Total fun a b => f a < f b ∨ f a = f b ∧ g a ≤ g b :=
  ⟨fun a b => by
    rcases lt_trichotomy (f a) (f b) with h | h | h
    · exact .inl (.inl h)
    · exact (le_total (g a) (g b)).imp (fun hg => .inr ⟨h, hg⟩) fun hg => .inr ⟨h.symm, hg⟩
    · exact .inr (.inl h)⟩

instance lex_isTrans : IsTrans α fun a b => f a < f b ∨ f a = f b ∧ g a ≤ g b :=
  ⟨fun a b c hab hbc => by
    rcases hab with hab | ⟨hab, hg⟩
    · rcases hbc with hbc | ⟨hbc, -⟩
      · exact .inl (hab.trans hbc)
      · exact .inl (hbc ▸ hab)
    · rw [hab]
      exact hbc.imp_right fun h => ⟨h.1, hg.trans h.2⟩⟩

end Lexicographic

end Galfus
