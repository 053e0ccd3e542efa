import Mathlib.Algebra.Order.BigOperators.Group.Finset
import Mathlib.Data.Finset.Lattice.Basic

/-! # Round-robin iteration

Each node has a finite set, which a monotone function computes from the sets of all nodes. The
nodes are visited in turn until a round changes nothing. From sets that contain what the function
makes of them, the iteration ends with the greatest solution below them.
-/

namespace Galfus.RoundRobin

open Function

variable {ν φ : Type} [DecidableEq ν] [DecidableEq φ] (F : (ν → Finset φ) → ν → Finset φ)

/-- Compute the set of one node again, and note whether it has changed. -/
def visit (p : (ν → Finset φ) × Bool) (i : ν) : (ν → Finset φ) × Bool :=
  if p.1 i = F p.1 i then p else (update p.1 i (F p.1 i), true)

def solve (nodes : List ν) : ℕ → (ν → Finset φ) → Option (ν → Finset φ)
  | 0, _ => none
  | fuel + 1, sets =>
    match nodes.foldl (visit F) (sets, false) with
    | (sets, true) => solve nodes fuel sets
    | (sets, false) => some sets

def size (nodes : List ν) (sets : ν → Finset φ) : ℕ :=
  ∑ i ∈ nodes.toFinset, (sets i).card

/-- What a round has done after the nodes of `done`, from the sets `s₀`. -/
structure Round (nodes : List ν) (s₀ : ν → Finset φ) (done : List ν)
    (p : (ν → Finset φ) × Bool) : Prop where
  shrinks : F p.1 ≤ p.1
  below : p.1 ≤ s₀
  above : ∀ s, s ≤ F s → s ≤ s₀ → s ≤ p.1
  same : p.2 = false → p.1 = s₀ ∧ ∀ i ∈ done, F s₀ i = s₀ i
  less : p.2 = true → size nodes p.1 < size nodes s₀

variable {F} {ns d : List ν} {s₀ : ν → Finset φ} {p : (ν → Finset φ) × Bool}

theorem Round.visit (hF : Monotone F) (h : Round F ns s₀ d p) {i : ν} (hi : i ∈ ns) :
    Round F ns s₀ (i :: d) (visit F p i) := by
  unfold RoundRobin.visit
  split
  · next heq =>
    refine ⟨h.shrinks, h.below, h.above, fun hp => ?_, h.less⟩
    obtain ⟨hs, hd⟩ := h.same hp
    exact ⟨hs, List.forall_mem_cons.mpr ⟨hs ▸ heq.symm, hd⟩⟩
  · next hne =>
    have hle : update p.1 i (F p.1 i) ≤ p.1 := update_le_self_iff.mpr (h.shrinks i)
    refine ⟨?_, hle.trans h.below, fun s hs hs₀ => ?_, fun hp => absurd hp (by simp), fun _ => ?_⟩
    · exact le_update_iff.mpr ⟨hF hle i, fun j _ => (hF hle j).trans (h.shrinks j)⟩
    · have hp := h.above s hs hs₀
      exact le_update_iff.mpr ⟨(hs i).trans (hF hp i), fun j _ => hp j⟩
    · refine (Finset.sum_lt_sum (fun j _ => Finset.card_le_card (hle j))
        ⟨i, List.mem_toFinset.mpr hi, ?_⟩).trans_le
          (Finset.sum_le_sum fun j _ => Finset.card_le_card (h.below j))
      rw [update_self]
      exact Finset.card_lt_card ((h.shrinks i).ssubset_of_ne (Ne.symm hne))

theorem Round.foldl (hF : Monotone F) (h : Round F ns s₀ d p) {is : List ν} (his : is ⊆ ns) :
    Round F ns s₀ (is.reverse ++ d) (is.foldl (RoundRobin.visit F) p) := by
  induction is generalizing d p with
  | nil => exact h
  | cons i is ih =>
    rw [List.cons_subset] at his
    rw [List.reverse_cons, List.append_assoc]
    exact ih (h.visit hF his.1) his.2

/-- The result is the greatest solution below `s₀`. -/
theorem solve_spec (hF : Monotone F) {f : ℕ} (hs : F s₀ ≤ s₀) (hfl : size ns s₀ < f) :
    ∃ r, solve F ns f s₀ = some r ∧ r ≤ s₀ ∧ (∀ i ∈ ns, F r i = r i) ∧
      ∀ s, s ≤ F s → s ≤ s₀ → s ≤ r := by
  induction f generalizing s₀ with
  | zero => omega
  | succ f ih =>
    have hst : Round F ns s₀ [] (s₀, false) :=
      ⟨hs, le_rfl, fun _ _ h => h, fun _ => ⟨rfl, by simp⟩, nofun⟩
    have hrn := hst.foldl hF (List.Subset.refl ns)
    unfold solve
    generalize ns.foldl (RoundRobin.visit F) (s₀, false) = p at hrn ⊢
    rcases p with ⟨s₁, _ | _⟩
    · obtain ⟨rfl, hf⟩ := hrn.same rfl
      exact ⟨s₁, rfl, le_rfl, fun i hi => hf i (by simpa using hi), fun _ _ h => h⟩
    · obtain ⟨r, hr, hle, hf, hg⟩ := ih hrn.shrinks (by have := hrn.less rfl; omega)
      exact ⟨r, hr, hle.trans hrn.below, hf, fun s hsF h => hg s hsF (hrn.above s hsF h)⟩

end Galfus.RoundRobin
