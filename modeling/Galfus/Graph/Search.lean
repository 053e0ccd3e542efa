import Galfus.Graph.Reach

/-! # Worklist search

A search keeps the set of nodes that it has seen and a list of seen nodes that it
has still to visit. A visit takes a node off the list and puts on it those of the
node's successors that are new. When the list is empty, the nodes seen are the
reachable ones. In which order the nodes are visited does not matter.
-/

namespace Galfus.Graph

variable {ν : Type*}

/-- The nodes seen, and those that are still to be visited. -/
abbrev Frontier (ν : Type*) := Finset ν × List ν

/-- `g` is the frontier `f` after seeing `ys`. Each node that is new is put on the list once. -/
structure Adds (ys : List ν) (f g : Frontier ν) : Prop where
  seen : ∀ x, x ∈ g.1 ↔ x ∈ f.1 ∨ x ∈ ys
  pending : ∀ x, x ∈ g.2 ↔ x ∈ f.2 ∨ x ∈ ys ∧ x ∉ f.1
  length : g.2.length + f.1.card = f.2.length + g.1.card

namespace Adds

variable {ys zs : List ν} {f g k : Frontier ν} {y : ν} {s : Finset ν} {pending : List ν}

theorem nil (f : Frontier ν) : Adds [] f f := ⟨by simp, by simp, rfl⟩

theorem old (hy : y ∈ f.1) : Adds [y] f f := by
  constructor
  · intro x
    simp only [List.mem_singleton, iff_self_or]
    rintro rfl
    exact hy
  · intro x
    simp only [List.mem_singleton, iff_self_or, and_imp]
    rintro rfl hx
    exact absurd hy hx
  · rfl

theorem new [DecidableEq ν] (hy : y ∉ s) {pending' : List ν} (hp : pending'.Perm (y :: pending)) :
    Adds [y] (s, pending) (insert y s, pending') := by
  constructor
  · simp [or_comm]
  · intro x
    simp only [hp.mem_iff, List.mem_cons, List.not_mem_nil, or_false]
    constructor
    · rintro (rfl | hx)
      · exact .inr ⟨rfl, hy⟩
      · exact .inl hx
    · rintro (hx | ⟨rfl, -⟩)
      · exact .inr hx
      · exact .inl rfl
  · simp only [hp.length_eq, List.length_cons, Finset.card_insert_of_notMem hy]
    omega

theorem trans (a : Adds ys f g) (b : Adds zs g k) : Adds (ys ++ zs) f k := by
  constructor
  · intro x
    rw [b.seen, a.seen, List.mem_append, or_assoc]
  · intro x
    rw [b.pending, a.pending, a.seen]
    by_cases hys : x ∈ ys <;> by_cases hs : x ∈ f.1 <;> simp [hys, hs]
  · have := a.length
    have := b.length
    omega

end Adds

variable {succ : ν → List ν} {R : Set ν} {V : ν → Prop} {s s' : Finset ν}
  {pending p' : List ν} {u x : ν}

/-- The state of a search from `R`, where `V` holds of every node that was visited. -/
structure Searched (succ : ν → List ν) (R : Set ν) (V : ν → Prop) (f : Frontier ν) : Prop where
  roots : ∀ r ∈ R, r ∈ f.1
  sound : ∀ x ∈ f.1, ∃ r ∈ R, Reaches succ r x
  pending : ∀ x ∈ f.2, x ∈ f.1
  visited : ∀ x ∈ f.1, x ∉ f.2 → V x ∧ ∀ y ∈ succ x, y ∈ f.1

namespace Searched

theorem init {f : Frontier ν} (hR : ∀ x, x ∈ f.1 ↔ x ∈ R) (hp : ∀ x, x ∈ f.2 ↔ x ∈ R) :
    Searched succ R V f where
  roots r hr := (hR r).mpr hr
  sound x hx := ⟨x, (hR x).mp hx, .refl x⟩
  pending x hx := (hR x).mpr ((hp x).mp hx)
  visited x hx hn := absurd ((hp x).mpr ((hR x).mp hx)) hn

theorem visit (hs : Searched succ R V (s, u :: pending)) (hV : V u)
    (ha : Adds (succ u) (s, pending) (s', p')) : Searched succ R V (s', p') := by
  have hu : u ∈ s := hs.pending u (by simp)
  constructor
  · intro r hr
    exact (ha.seen r).mpr (.inl (hs.roots r hr))
  · intro x hx
    rcases (ha.seen x).mp hx with hx | hx
    · exact hs.sound x hx
    · obtain ⟨r, hr, hru⟩ := hs.sound u hu
      exact ⟨r, hr, hru.tail hx⟩
  · intro x hx
    rcases (ha.pending x).mp hx with hx | ⟨hx, -⟩
    · exact (ha.seen x).mpr (.inl (hs.pending x (List.mem_cons_of_mem u hx)))
    · exact (ha.seen x).mpr (.inr hx)
  · intro x hx hn
    simp only [ha.pending, not_or, not_and_not_right] at hn
    have hsn : x ∈ s := ((ha.seen x).mp hx).elim id hn.2
    by_cases hxu : x = u
    · subst hxu
      exact ⟨hV, fun y hy => (ha.seen y).mpr (.inr hy)⟩
    · obtain ⟨hVx, hsc⟩ := hs.visited x hsn (by simp [hxu, hn.1])
      exact ⟨hVx, fun y hy => (ha.seen y).mpr (.inl (hsc y hy))⟩

/-- A finished search has seen the reachable nodes, and has visited them all. -/
theorem done (hs : Searched succ R V (s, [])) :
    (∀ x, x ∈ s ↔ ∃ r ∈ R, Reaches succ r x) ∧ ∀ x ∈ s, V x := by
  have hc : Closed succ {x | x ∈ s} := fun x hx => (hs.visited x hx (by simp)).2
  refine ⟨fun x => ⟨hs.sound x, ?_⟩, fun x hx => (hs.visited x hx (by simp)).1⟩
  rintro ⟨r, hr, hrx⟩
  exact hc.mem_of_reaches (hs.roots r hr) hrx

end Searched

end Galfus.Graph
