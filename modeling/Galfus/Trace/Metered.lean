import Mathlib.Logic.Relation
import Mathlib.Tactic.Common

/-! # Metered machines

A machine whose steps are free or cost one unit of a budget, or end the run. A run pauses
when the budget is used up. How a budget is split over several runs makes no difference.
-/

namespace Galfus

/-- What one step does: go on, with whether the step is paid for, or end with a result. -/
inductive MeteredStep (σ ρ : Type) where
  | next (paid : Bool) (s : σ)
  | stop (r : ρ)

/-- How a run ends: with the budget used up, with a result, or where there is no step. -/
inductive MeteredEnd (σ ρ : Type) where
  | paused (s : σ)
  | stopped (r : ρ)
  | stuck

/-- The runs of the machine `next` with a budget. -/
inductive MeteredRun {σ ρ : Type} (next : σ → Option (MeteredStep σ ρ)) :
    ℕ → σ → MeteredEnd σ ρ → Prop where
  | pause {s} : MeteredRun next 0 s (.paused s)
  | free {b s s' e} : next s = some (.next false s') → MeteredRun next (b + 1) s' e →
      MeteredRun next (b + 1) s e
  | paid {b s s' e} : next s = some (.next true s') → MeteredRun next b s' e →
      MeteredRun next (b + 1) s e
  | stop {b s r} : next s = some (.stop r) → MeteredRun next (b + 1) s (.stopped r)
  | stuck {b s} : next s = none → MeteredRun next (b + 1) s .stuck

def MeteredReach {σ ρ : Type} (next : σ → Option (MeteredStep σ ρ)) : σ → σ → Prop :=
  Relation.ReflTransGen fun s t => ∃ paid, next s = some (.next paid t)

namespace MeteredRun

variable {σ ρ : Type} {n : σ → Option (MeteredStep σ ρ)} {b c : ℕ} {s s' : σ}
  {e e' : MeteredEnd σ ρ} {r r' : ρ}

theorem deterministic (h : MeteredRun n b s e) (h' : MeteredRun n b s e') : e = e' := by
  induction h with
  | pause =>
    cases h'
    rfl
  | free hn _ ih =>
    cases h' with
    | free hn' h' =>
      rw [hn] at hn'
      cases hn'
      exact ih h'
    | paid hn' | stop hn' | stuck hn' =>
      rw [hn] at hn'
      cases hn'
  | paid hn _ ih =>
    cases h' with
    | paid hn' h' =>
      rw [hn] at hn'
      cases hn'
      exact ih h'
    | free hn' | stop hn' | stuck hn' =>
      rw [hn] at hn'
      cases hn'
  | stop hn =>
    cases h' with
    | stop hn' =>
      rw [hn] at hn'
      cases hn'
      rfl
    | free hn' | paid hn' | stuck hn' =>
      rw [hn] at hn'
      cases hn'
  | stuck hn =>
    cases h' with
    | stuck => rfl
    | free hn' | paid hn' | stop hn' =>
      rw [hn] at hn'
      cases hn'

/-- A run that pauses goes on with another budget. -/
theorem append (h : MeteredRun n b s (.paused s')) (h' : MeteredRun n c s' e) :
    MeteredRun n (b + c) s e := by
  generalize hp : (.paused s' : MeteredEnd σ ρ) = p at h
  induction h with
  | pause =>
    cases hp
    rwa [Nat.zero_add]
  | @free b s s₁ e hn _ ih =>
    rw [Nat.add_right_comm] at ih ⊢
    exact .free hn (ih hp)
  | @paid b s s₁ e hn _ ih =>
    rw [Nat.add_right_comm]
    exact .paid hn (ih hp)
  | stop | stuck => cases hp

/-- A run that ends does not use a larger budget up. -/
theorem extend (h : MeteredRun n b s (.stopped r)) (c : ℕ) :
    MeteredRun n (b + c) s (.stopped r) := by
  generalize hp : (.stopped r : MeteredEnd σ ρ) = p at h
  induction h with
  | pause => cases hp
  | free hn _ ih =>
    rw [Nat.add_right_comm] at ih ⊢
    exact .free hn (ih hp)
  | paid hn _ ih =>
    rw [Nat.add_right_comm]
    exact .paid hn (ih hp)
  | stop hn =>
    rw [Nat.add_right_comm]
    exact .stop hn
  | stuck => cases hp

/-- The result of a run does not depend on the budget. -/
theorem result_unique (h : MeteredRun n b s (.stopped r))
    (h' : MeteredRun n c s (.stopped r')) : r = r' := by
  have hb := h.extend c
  have hc := h'.extend b
  rw [Nat.add_comm] at hc
  cases hb.deterministic hc
  rfl

/-- A machine whose free steps lower a measure comes to an end with every budget. -/
theorem exists_of_measure (μ : σ → ℕ)
    (hμ : ∀ s s', n s = some (.next false s') → μ s' < μ s) (b : ℕ) (s : σ) :
    ∃ e, MeteredRun n b s e := by
  induction b generalizing s with
  | zero => exact ⟨_, .pause⟩
  | succ b ih =>
    induction hm : μ s using Nat.strongRecOn generalizing s with
    | ind m ihm =>
      rcases hs : n s with _ | (⟨_ | _, s'⟩ | r)
      · exact ⟨_, .stuck hs⟩
      · obtain ⟨e, he⟩ := ihm _ (hm ▸ hμ s s' hs) s' rfl
        exact ⟨e, .free hs he⟩
      · obtain ⟨e, he⟩ := ih s'
        exact ⟨e, .paid hs he⟩
      · exact ⟨_, .stop hs⟩

theorem reach (h : MeteredRun n b s (.paused s')) : MeteredReach n s s' := by
  generalize hp : (.paused s' : MeteredEnd σ ρ) = p at h
  induction h with
  | pause =>
    cases hp
    exact .refl
  | free hn _ ih | paid hn _ ih => exact .head ⟨_, hn⟩ (ih hp)
  | stop | stuck => cases hp

/-- A run with a budget pauses right after a step that is paid for. -/
theorem last_paid (h : MeteredRun n (b + 1) s (.paused s')) :
    ∃ s₁, MeteredReach n s s₁ ∧ n s₁ = some (.next true s') := by
  generalize hp : (.paused s' : MeteredEnd σ ρ) = p at h
  generalize hb : b + 1 = c at h
  induction h generalizing b with
  | pause => cases hb
  | free hn _ ih =>
    obtain ⟨s₁, hs₁, hl⟩ := ih hp hb
    exact ⟨s₁, .head ⟨_, hn⟩ hs₁, hl⟩
  | @paid c s s₂ e hn h ih =>
    cases c with
    | zero =>
      subst hp
      cases h
      exact ⟨s, .refl, hn⟩
    | succ c =>
      obtain ⟨s₁, hs₁, hl⟩ := ih hp rfl
      exact ⟨s₁, .head ⟨_, hn⟩ hs₁, hl⟩
  | stop | stuck => cases hp

end MeteredRun

end Galfus
