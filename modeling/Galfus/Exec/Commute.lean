import Galfus.Exec.Basic

/-! # Computations that commute with a change of the state

A computation commutes with a change of the state if it neither reads nor writes what the
change is about. It absorbs the change if it runs the same with it and without it.
-/

namespace Galfus.Exec

variable {ε σ α β γ : Type}

/-- The computation goes the same after the change `g`, and leaves it for afterwards. -/
def Commutes (g : σ → σ) (x : Exec ε σ α) : Prop :=
  ∀ s, x (g s) = (x s).map fun p => (p.1, g p.2)

/-- The change `g` makes no difference to the computation. -/
def Absorbs (g : σ → σ) (x : Exec ε σ α) : Prop := ∀ s, x (g s) = x s

def Silent (x : Exec ε σ α) : Prop := ∀ s e s', x s ≠ some (.error e, s')

variable {g : σ → σ} {x : Exec ε σ α} {k : α → Exec ε σ β}

namespace Commutes

theorem pure (a : α) : Commutes g (Pure.pure a : Exec ε σ α) := fun _ => rfl

theorem stop : Commutes g (Exec.stop : Exec ε σ α) := fun _ => rfl

theorem attempt (y : Option (Except ε α)) : Commutes g (Exec.attempt y : Exec ε σ α) := by
  rintro s
  cases y <;> rfl

theorem bind (hx : Commutes g x) (hk : ∀ a, Commutes g (k a)) : Commutes g (x >>= k) := by
  intro s
  rw [bind_apply, bind_apply, hx s]
  rcases x s with _ | ⟨e | a, s'⟩
  · rfl
  · rfl
  · exact hk a s'

end Commutes

namespace Silent

theorem pure (a : α) : Silent (Pure.pure a : Exec ε σ α) := by
  rintro s e s' ⟨⟩

theorem stop : Silent (Exec.stop : Exec ε σ α) := by
  rintro s e s' ⟨⟩

theorem bind (hx : Silent x) (hk : ∀ a, Silent (k a)) : Silent (x >>= k) := by
  intro s e s' h
  rw [bind_apply] at h
  rcases hs : x s with _ | ⟨e' | a, s₁⟩ <;> rw [hs] at h
  · cases h
  · exact hx s e' s₁ hs
  · exact hk a s₁ e s' h

end Silent

/-- A computation without errors that commutes with the change `g`. -/
structure Passes (g : σ → σ) (x : Exec ε σ α) : Prop where
  commutes : Commutes g x
  silent : Silent x

namespace Passes

theorem pure (a : α) : Passes g (Pure.pure a : Exec ε σ α) := ⟨.pure a, .pure a⟩

theorem modify {f : σ → σ} (hf : ∀ s, f (g s) = g (f s)) :
    Passes g (Exec.modify f : Exec ε σ Unit) := by
  refine ⟨fun s => ?_, fun s e s' h => by cases h⟩
  rw [modify_apply, hf]
  rfl

theorem bind (hx : Passes g x) (hk : ∀ a, Passes g (k a)) : Passes g (x >>= k) :=
  ⟨hx.commutes.bind fun a => (hk a).commutes, hx.silent.bind fun a => (hk a).silent⟩

theorem get_bind {h : σ → Exec ε σ β} (hg : ∀ s, h (g s) = h s) (hh : ∀ s, Passes g (h s)) :
    Passes g (Exec.get >>= h) := by
  refine ⟨fun s => ?_, fun s => (hh s).silent s⟩
  show h (g s) (g s) = (h s s).map _
  rw [hg]
  exact (hh s).commutes s

theorem forM {f : γ → Exec ε σ PUnit} (cs : List γ) (hf : ∀ c, Passes g (f c)) :
    Passes g (cs.forM f) := by
  induction cs with
  | nil => exact pure _
  | cons c cs ih => exact bind (hf c) fun _ => ih

end Passes

namespace Absorbs

theorem bind (hx : Absorbs g x) : Absorbs g (x >>= k) := by
  intro s
  rw [bind_apply, bind_apply, hx s]

theorem of_passes (hx : Passes g x) (hk : ∀ a, Absorbs g (k a)) : Absorbs g (x >>= k) := by
  intro s
  rw [bind_apply, bind_apply, hx.commutes s]
  rcases h : x s with _ | ⟨e | a, s'⟩
  · rfl
  · exact absurd h (hx.silent s e s')
  · exact hk a s'

end Absorbs

end Galfus.Exec
