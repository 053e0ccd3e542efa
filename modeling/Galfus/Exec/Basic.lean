import Mathlib.Tactic.Common

/-! # Stateful computations that can fail or stop

A computation changes a state and returns a result or an error; the changes made
before an error stay. A panic stops it without a state. The rules of pre- and
postconditions say what holds of the state after a result and after an error.
-/

namespace Galfus

/-- A computation on states `σ` with errors `ε`. -/
def Exec (ε σ α : Type) := σ → Option (Except ε α × σ)

namespace Exec

variable {ε σ τ α β : Type}

instance : Monad (Exec ε σ) where
  pure a s := some (.ok a, s)
  bind x f s := (x s).bind fun p =>
    match p.1 with
    | .error e => some (.error e, p.2)
    | .ok a => f a p.2

/-- A panic. -/
def stop : Exec ε σ α := fun _ => none

def throw (e : ε) : Exec ε σ α := fun s => some (.error e, s)

def get : Exec ε σ σ := fun s => some (.ok s, s)

def modify (f : σ → σ) : Exec ε σ Unit := fun s => some (.ok (), f s)

def lift (x : Except ε α) : Exec ε σ α := fun s => some (x, s)

/-- A value that is missing only if the source panics. -/
def unwrap (x : Option α) : Exec ε σ α := fun s => x.map fun a => (.ok a, s)

/-- A fallible value whose computation may panic. -/
def attempt (x : Option (Except ε α)) : Exec ε σ α := fun s => x.map fun r => (r, s)

def zoom (view : σ → τ) (put : σ → τ → σ) (x : Exec ε τ α) : Exec ε σ α := fun s =>
  (x (view s)).map fun p => (p.1, put s p.2)

variable {x : Exec ε σ α} {f : α → Exec ε σ β} {s s' s'' : σ} {a a' : α} {b : β} {e : ε}

theorem bind_apply (x : Exec ε σ α) (f : α → Exec ε σ β) (s : σ) : (x >>= f) s = (x s).bind fun p =>
      match p.1 with
      | .error e => some (.error e, p.2)
      | .ok a => f a p.2 := rfl

theorem get_bind (f : σ → Exec ε σ α) (s : σ) : (get >>= f) s = f s s := rfl

theorem unwrap_bind (x : Option α) (f : α → Exec ε σ β) (s : σ) :
    (unwrap x >>= f) s = x.bind fun a => f a s := by
  cases x <;> rfl

theorem modify_bind (g : σ → σ) (f : Unit → Exec ε σ α) (s : σ) :
    (modify g >>= f) s = f () (g s) := rfl

theorem bind_eq_ok : (x >>= f) s = some (.ok b, s'') ↔
    ∃ a s', x s = some (.ok a, s') ∧ f a s' = some (.ok b, s'') := by
  rw [bind_apply]
  rcases x s with _ | ⟨e | a, s'⟩ <;> simp

/-- Without errors both parts of a run have results. -/
theorem bind_run {x : Exec Empty σ α} {f : α → Exec Empty σ β} {r : Except Empty β}
    (h : (x >>= f) s = some (r, s'')) :
    ∃ a s', x s = some (.ok a, s') ∧ f a s' = some (r, s'') := by
  obtain ⟨⟨e | a, s'⟩, hx, hf⟩ := Option.bind_eq_some_iff.mp h
  · exact e.elim
  · exact ⟨a, s', hx, hf⟩

protected theorem bind_assoc {γ : Type} (x : Exec ε σ α) (f : α → Exec ε σ β) (g : β → Exec ε σ γ) :
    x >>= f >>= g = x >>= fun a => f a >>= g := by
  funext s
  rw [bind_apply, bind_apply, bind_apply]
  rcases x s with _ | ⟨e | a, s'⟩ <;> rfl

protected theorem bind_congr {g : α → Exec ε σ β}
    (h : ∀ a s', x s = some (.ok a, s') → f a s' = g a s') : (x >>= f) s = (x >>= g) s := by
  rw [bind_apply, bind_apply]
  rcases hx : x s with _ | ⟨e | a, s'⟩
  · rfl
  · rfl
  · exact h a s' hx

@[simp] theorem pure_apply (a : α) (s : σ) : (pure a : Exec ε σ α) s = some (.ok a, s) := rfl

@[simp] theorem throw_apply (e : ε) (s : σ) : (throw e : Exec ε σ α) s = some (.error e, s) := rfl

@[simp] theorem get_apply (s : σ) : (get : Exec ε σ σ) s = some (.ok s, s) := rfl

@[simp] theorem modify_apply (g : σ → σ) (s : σ) :
    (modify g : Exec ε σ Unit) s = some (.ok (), g s) := rfl

@[simp] theorem lift_apply (x : Except ε α) (s : σ) : (lift x : Exec ε σ α) s = some (x, s) := rfl

@[simp] theorem unwrap_apply (x : Option α) (s : σ) :
    (unwrap x : Exec ε σ α) s = x.map fun a => (.ok a, s) := rfl

@[simp] theorem attempt_apply (x : Option (Except ε α)) (s : σ) :
    (attempt x : Exec ε σ α) s = x.map fun r => (r, s) := rfl

@[simp] theorem forM_nil_apply {γ : Type} (g : γ → Exec ε σ PUnit) (s : σ) :
    ([] : List γ).forM g s = some (.ok PUnit.unit, s) := rfl

theorem forM_cons_apply {γ : Type} (g : γ → Exec ε σ PUnit) (c : γ) (cs : List γ) (s : σ) :
    (c :: cs).forM g s = (g c >>= fun _ => cs.forM g) s := rfl

theorem pure_eq_ok : (pure a : Exec ε σ α) s = some (.ok a', s') ↔ a = a' ∧ s = s' := by simp

theorem get_eq_ok {r : σ} : (get : Exec ε σ σ) s = some (.ok r, s') ↔ s = r ∧ s = s' := by simp

theorem modify_eq_ok {g : σ → σ} {u : Unit} :
    (modify g : Exec ε σ Unit) s = some (.ok u, s') ↔ g s = s' := by simp

theorem lift_eq_ok {x : Except ε α} :
    (lift x : Exec ε σ α) s = some (.ok a, s') ↔ x = .ok a ∧ s = s' := by simp

theorem unwrap_eq_ok {x : Option α} :
    (unwrap x : Exec ε σ α) s = some (.ok a, s') ↔ x = some a ∧ s = s' := by
  cases x <;> simp

theorem throw_ne_ok : (throw e : Exec ε σ α) s ≠ some (.ok a, s') := by simp

theorem zoom_eq_ok {v : σ → τ} {p : σ → τ → σ} {y : Exec ε τ α} :
    zoom v p y s = some (.ok a, s') ↔ ∃ t, y (v s) = some (.ok a, t) ∧ p s t = s' := by
  unfold zoom
  rcases y (v s) with _ | ⟨e | b, t⟩
  · simp
  · simp
  · simp only [Option.map_some, Option.some.injEq, Prod.mk.injEq, Except.ok.injEq]
    constructor
    · rintro ⟨rfl, rfl⟩
      exact ⟨t, ⟨rfl, rfl⟩, rfl⟩
    · rintro ⟨t', ⟨rfl, rfl⟩, rfl⟩
      exact ⟨rfl, rfl⟩

/-- What holds after a result and after an error. -/
def After (Q : α → σ → Prop) (E : σ → Prop) : Except ε α → σ → Prop
  | .ok a, s => Q a s
  | .error _, s => E s

/-- From `P`, results satisfy `Q` and the states after errors satisfy `E`. -/
def Triple (P : σ → Prop) (x : Exec ε σ α) (Q : α → σ → Prop) (E : σ → Prop) : Prop :=
  ∀ s, P s → ∀ r s', x s = some (r, s') → After Q E r s'

variable {P P' E E' : σ → Prop} {Q Q' : α → σ → Prop} {R : β → σ → Prop}

namespace Triple

theorem pure (a : α) : Triple (Q a) (Pure.pure a : Exec ε σ α) Q E := by
  intro s hs r s' hr
  cases hr
  exact hs

theorem bind (hx : Triple P x Q E) (hf : ∀ a, Triple (Q a) (f a) R E) : Triple P (x >>= f) R E := by
  intro s hs r s' hr
  obtain ⟨⟨rs, s₁⟩, hxs, hr⟩ := Option.bind_eq_some_iff.mp hr
  have hp := hx s hs rs s₁ hxs
  cases rs with
  | error e =>
    cases hr
    exact hp
  | ok a => exact hf a s₁ hp r s' hr

theorem conseq (hx : Triple P' x Q' E') (hP : ∀ s, P s → P' s) (hQ : ∀ a s, Q' a s → Q a s)
    (hE : ∀ s, E' s → E s) : Triple P x Q E := by
  intro s hs r s' hr
  have := hx s (hP s hs) r s' hr
  cases r with
  | error e => exact hE _ this
  | ok a => exact hQ _ _ this

theorem throw (e : ε) : Triple E (Exec.throw e : Exec ε σ α) Q E := by
  intro s hs r s' hr
  cases hr
  exact hs

theorem stop : Triple P (Exec.stop : Exec ε σ α) Q E := by
  intro s _ r s' hr
  cases hr

theorem conseq_pre (hx : Triple P' x Q E) (hP : ∀ s, P s → P' s) : Triple P x Q E :=
  hx.conseq hP (fun _ _ hs => hs) fun _ hs => hs

theorem get_bind {g : σ → Exec ε σ β} (hg : ∀ a, P a → Triple (· = a) (g a) R E) :
    Triple P (Exec.get >>= g) R E := by
  intro s hs
  exact hg s hs s rfl

theorem lift_bind {y : Except ε α} (hE : ∀ s, P s → E s)
    (hf : ∀ a, y = .ok a → Triple P (f a) R E) : Triple P (Exec.lift y >>= f) R E := by
  intro s hs r s' hr
  cases y with
  | error e =>
    cases hr
    exact hE s hs
  | ok a => exact hf a rfl s hs r s' hr

theorem unwrap_bind {y : Option α} (hf : ∀ a, y = some a → Triple P (f a) R E) :
    Triple P (Exec.unwrap y >>= f) R E := by
  intro s hs r s' hr
  cases y with
  | none => cases hr
  | some a => exact hf a rfl s hs r s' hr

theorem modify {g : σ → σ} {Q : Unit → σ → Prop} (hg : ∀ s, P s → Q () (g s)) :
    Triple P (Exec.modify g : Exec ε σ Unit) Q E := by
  intro s hs r s' hr
  cases hr
  exact hg s hs

theorem forM {γ : Type} {g : γ → Exec ε σ PUnit} (cs : List γ)
    (hg : ∀ c ∈ cs, Triple P (g c) (fun _ => P) E) : Triple P (cs.forM g) (fun _ => P) E := by
  induction cs with
  | nil => exact (pure PUnit.unit).conseq (fun _ h => h) (fun _ _ h => h) fun _ h => h
  | cons c cs ih =>
    exact (hg c (by simp)).bind fun _ => ih fun d hd => hg d (by simp [hd])

end Triple

abbrev Yields (P : σ → Prop) (x : Exec ε σ α) (Q : α → σ → Prop) : Prop :=
  Triple P x Q fun _ => True

theorem Yields.throw (e : ε) : Yields P (Exec.throw e : Exec ε σ α) Q :=
  (Triple.throw e).conseq_pre fun _ _ => trivial

theorem Yields.lift_bind {y : Except ε α} (hf : ∀ a, y = .ok a → Yields P (f a) R) :
    Yields P (Exec.lift y >>= f) R :=
  Triple.lift_bind (fun _ _ => trivial) hf

end Exec

end Galfus
