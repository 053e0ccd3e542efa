import Galfus.Exec.Basic

/-! # Moves of the state

A computation moves along a relation if every run of it, with a result or with an error, ends
in a state that the first state is related to. For a preorder of states this is closed under
the constructs of the monad.
-/

namespace Galfus.Exec

variable {ε σ α β γ : Type}

theorem forM_map {δ : Type} (f : γ → δ) (g : δ → Exec ε σ PUnit) (cs : List γ) :
    (cs.map f).forM g = cs.forM fun c => g (f c) := by
  induction cs with
  | nil => rfl
  | cons c cs ih => exact congrArg (g (f c) >>= fun _ => ·) ih

def Moves (R : σ → σ → Prop) (x : Exec ε σ α) : Prop :=
  ∀ s r s', x s = some (r, s') → R s s'

namespace Moves

variable {R S : σ → σ → Prop} {x : Exec ε σ α} {k : α → Exec ε σ β}

theorem mono (hx : Moves R x) (h : ∀ s s', R s s' → S s s') : Moves S x :=
  fun s r s' hr => h s s' (hx s r s' hr)

theorem modify {f : σ → σ} (h : ∀ s, R s (f s)) : Moves R (Exec.modify f : Exec ε σ Unit) := by
  rintro s _ _ ⟨⟩
  exact h s

theorem stop : Moves R (Exec.stop : Exec ε σ α) := by
  rintro s _ _ ⟨⟩

theorem get_bind {g : σ → Exec ε σ β} (hg : ∀ s, Moves R (g s)) : Moves R (Exec.get >>= g) :=
  fun s => hg s s

section Refl

variable [Std.Refl R]

theorem pure (a : α) : Moves R (Pure.pure a : Exec ε σ α) := by
  rintro s _ _ ⟨⟩
  exact refl s

theorem unwrap (y : Option α) : Moves R (Exec.unwrap y : Exec ε σ α) := by
  intro s r s' h
  obtain ⟨_, -, ⟨⟩⟩ := Option.map_eq_some_iff.mp h
  exact refl s

end Refl

section Trans

variable [IsTrans σ R]

theorem bind (hx : Moves R x) (hk : ∀ a, Moves R (k a)) : Moves R (x >>= k) := by
  intro s r s' h
  obtain ⟨⟨e | a, s₁⟩, hxs, h⟩ := Option.bind_eq_some_iff.mp h
  · cases h
    exact hx s _ _ hxs
  · exact trans_of R (hx s _ _ hxs) (hk a s₁ r s' h)

theorem map [Std.Refl R] (hx : Moves R x) (g : α → β) : Moves R (x >>= fun a => Pure.pure (g a)) :=
  hx.bind fun _ => pure _

theorem forM [Std.Refl R] {g : γ → Exec ε σ PUnit} (cs : List γ) (hg : ∀ c, Moves R (g c)) :
    Moves R (cs.forM g) := by
  induction cs with
  | nil => exact pure _
  | cons c cs ih => exact bind (hg c) fun _ => ih

end Trans

end Moves

end Galfus.Exec
