import Mathlib.Tactic.Common

/-! # Recursion with enough fuel

A recursive function on a state is given by its body `F`, which takes the
function for its recursive calls. Running the body with fuel agrees with the
recursion equation as soon as every recursive call has a smaller measure.
-/

namespace Galfus.Fuel

variable {σ ν ρ : Type*}

/-- Unfold the body `F` at most `n` times, starting from `bot`. -/
def run (F : (σ → ν → ρ) → σ → ν → ρ) (bot : σ → ν → ρ) : ℕ → σ → ν → ρ
  | 0 => bot
  | n + 1 => F (run F bot n)

/-- The function with a fuel bound that may depend on the state. -/
def runWith (F : (σ → ν → ρ) → σ → ν → ρ) (bot : σ → ν → ρ) (bound : σ → ℕ) (s : σ) (v : ν) : ρ :=
  run F bot (bound s) s v

/-- The body calls its argument only at smaller measure, provided that
results keep `P`. -/
structure Decreasing (F : (σ → ν → ρ) → σ → ν → ρ) (P : σ → ρ → Prop) (m : σ → ν → ℕ) : Prop where
  keeps : ∀ f, (∀ s v, P s (f s v)) → ∀ s v, P s (F f s v)
  congr : ∀ f g, (∀ s v, P s (f s v)) → (∀ s v, P s (g s v)) → ∀ s v,
    (∀ s' v', m s' v' < m s v → f s' v' = g s' v') → F f s v = F g s v

variable {F : (σ → ν → ρ) → σ → ν → ρ} {bot : σ → ν → ρ} {P : σ → ρ → Prop} {m : σ → ν → ℕ}
  {b : σ → ℕ}

theorem Decreasing.run_keeps (hF : Decreasing F P m) (hb : ∀ s v, P s (bot s v)) (n : ℕ) :
    ∀ s v, P s (run F bot n s v) := by
  induction n with
  | zero => exact hb
  | succ n ih => exact hF.keeps _ ih

theorem Decreasing.run_eq_run (hF : Decreasing F P m) (hb : ∀ s v, P s (bot s v)) (n k : ℕ) (s : σ)
    (v : ν) (hn : m s v < n) (hk : m s v < k) : run F bot n s v = run F bot k s v := by
  induction n generalizing k s v with
  | zero => omega
  | succ n ih =>
    cases k with
    | zero => omega
    | succ k =>
      refine hF.congr _ _ (hF.run_keeps hb n) (hF.run_keeps hb k) s v fun s' v' hlt => ?_
      exact ih k s' v' (by omega) (by omega)

/-- With more fuel than the measure, the recursion equation holds. -/
theorem Decreasing.runWith_eq (hF : Decreasing F P m) (hb : ∀ s v, P s (bot s v))
    (hm : ∀ s v, m s v < b s) (s : σ) (v : ν) :
    runWith F bot b s v = F (runWith F bot b) s v := by
  have hk : ∀ s v, P s (runWith F bot b s v) := fun s v => hF.run_keeps hb _ s v
  calc runWith F bot b s v = run F bot (b s + 1) s v :=
        hF.run_eq_run hb _ _ s v (hm s v) (Nat.lt_trans (hm s v) (Nat.lt_succ_self _))
    _ = F (run F bot (b s)) s v := rfl
    _ = F (runWith F bot b) s v :=
        hF.congr _ _ (hF.run_keeps hb _) hk s v fun s' v' hlt =>
          hF.run_eq_run hb _ _ s' v' (Nat.lt_trans hlt (hm s v)) (hm s' v')

end Galfus.Fuel
