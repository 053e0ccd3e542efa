import Galfus.Exec.Basic

/-! # Simulation of stateful computations

Two computations match if from related states both stop, or both fail with one error, or
both have results, and the states after them are related again. Some errors of the first
computation can be excused: then nothing is asked of the second.
-/

namespace Galfus.Exec

variable {ε σ τ α β γ : Type}

/-- What two computations did matches. -/
inductive Matches (X : ε → Prop) (Q : α → β → σ → τ → Prop) (E : σ → τ → Prop) :
    Option (Except ε α × σ) → Option (Except ε β × τ) → Prop where
  | stop : Matches X Q E none none
  | ok {a b s t} : Q a b s t → Matches X Q E (some (.ok a, s)) (some (.ok b, t))
  | error {e s t} : E s t → Matches X Q E (some (.error e, s)) (some (.error e, t))
  | excused {e s y} : X e → Matches X Q E (some (.error e, s)) y

/-- From states related by `P`, results are related by `Q` and the states after errors by
`E`. -/
def Sim (X : ε → Prop) (P : σ → τ → Prop) (x : Exec ε σ α) (y : Exec ε τ β)
    (Q : α → β → σ → τ → Prop) (E : σ → τ → Prop) : Prop :=
  ∀ s t, P s t → Matches X Q E (x s) (y t)

/-- A computation has one result in states related by `P` and relates the states by `R`. -/
def Leads (X : ε → Prop) (P R : σ → σ → Prop) (x : Exec ε σ α) : Prop :=
  Sim X P x x (fun a b s t => a = b ∧ R s t) R

/-- A computation has one result in related states and keeps them related. -/
def Keeps (X : ε → Prop) (R : σ → σ → Prop) (x : Exec ε σ α) : Prop := Leads X R R x

variable {X : ε → Prop}

namespace Matches

variable {Q Q' : α → β → σ → τ → Prop} {E E' : σ → τ → Prop} {p : Option (Except ε α × σ)}
  {q : Option (Except ε β × τ)}

theorem mono (h : Matches X Q E p q) (hQ : ∀ a b s t, Q a b s t → Q' a b s t)
    (hE : ∀ s t, E s t → E' s t) : Matches X Q' E' p q := by
  cases h with
  | stop => exact .stop
  | ok h => exact .ok (hQ _ _ _ _ h)
  | error h => exact .error (hE _ _ h)
  | excused h => exact .excused h

theorem excuse {X' : ε → Prop} (h : Matches X Q E p q) (hX : ∀ e, X e → X' e) :
    Matches X' Q E p q := by
  cases h with
  | stop => exact .stop
  | ok h => exact .ok h
  | error h => exact .error h
  | excused h => exact .excused (hX _ h)

theorem exists_ok {b : β} {t : τ} (h : Matches X Q E p (some (.ok b, t))) (hX : ∀ e, ¬ X e) :
    ∃ a s, p = some (.ok a, s) ∧ Q a b s t := by
  cases h with
  | ok hq => exact ⟨_, _, rfl, hq⟩
  | excused hx => exact absurd hx (hX _)

end Matches

namespace Sim

variable {P P' : σ → τ → Prop} {x : Exec ε σ α} {y : Exec ε τ β} {Q Q' : α → β → σ → τ → Prop}
  {E E' : σ → τ → Prop} {δ : Type} {f : α → Exec ε σ γ} {g : β → Exec ε τ δ}
  {S : γ → δ → σ → τ → Prop}

theorem conseq (h : Sim X P' x y Q' E') (hP : ∀ s t, P s t → P' s t)
    (hQ : ∀ a b s t, Q' a b s t → Q a b s t) (hE : ∀ s t, E' s t → E s t) :
    Sim X P x y Q E :=
  fun s t hst => (h s t (hP s t hst)).mono hQ hE

theorem bind (hx : Sim X P x y Q E) (hf : ∀ a b, Sim X (Q a b) (f a) (g b) S E) :
    Sim X P (x >>= f) (y >>= g) S E := by
  intro s t hst
  rw [bind_apply, bind_apply]
  generalize hp : x s = p
  generalize hq : y t = q
  have h := hx s t hst
  rw [hp, hq] at h
  cases h with
  | stop => exact .stop
  | ok h => exact hf _ _ _ _ h
  | error h => exact .error h
  | excused h => exact .excused h

theorem pure {a : α} {b : β} (h : ∀ s t, P s t → Q a b s t) :
    Sim X P (Pure.pure a) (Pure.pure b) Q E :=
  fun s t hst => .ok (h s t hst)

theorem modify {u : σ → σ} {v : τ → τ} {Q : Unit → Unit → σ → τ → Prop}
    (h : ∀ s t, P s t → Q () () (u s) (v t)) : Sim X P (Exec.modify u) (Exec.modify v) Q E :=
  fun s t hst => .ok (h s t hst)

theorem get_bind {f : σ → Exec ε σ γ} {g : τ → Exec ε τ δ}
    (h : ∀ s t, P s t → Matches X S E (f s s) (g t t)) :
    Sim X P (Exec.get >>= f) (Exec.get >>= g) S E :=
  fun s t hst => h s t hst

theorem forM {f : γ → Exec ε σ PUnit} {g : δ → Exec ε τ PUnit} {cs : List γ} {ds : List δ}
    (h : List.Forall₂ (fun c d => Sim X P (f c) (g d) (fun _ _ => P) E) cs ds) :
    Sim X P (cs.forM f) (ds.forM g) (fun _ _ => P) E := by
  induction h with
  | nil => exact pure fun _ _ hst => hst
  | cons hcd _ ih => exact hcd.bind fun _ _ => ih

/-- What a computation does in a state that is related to itself. -/
theorem triple {P E : σ → σ → Prop} {x : Exec ε σ α} {Q : α → α → σ → σ → Prop}
    (h : Sim X P x x Q E) (hX : ∀ e, ¬ X e) :
    Triple (fun s => P s s) x (fun a s => Q a a s s) (fun s => E s s) := by
  intro s hs r s' hr
  have hm := h s s hs
  rw [hr] at hm
  cases hm with
  | ok hq => exact hq
  | error he => exact he
  | excused hx => exact absurd hx (hX _)

end Sim

namespace Keeps

variable {R : σ → σ → Prop} {x : Exec ε σ α} {f : α → Exec ε σ β}

theorem bind_sim {S : β → β → σ → σ → Prop} {E : σ → σ → Prop} (hx : Keeps X R x)
    (hE : ∀ s t, R s t → E s t) (hf : ∀ a, Sim X R (f a) (f a) S E) :
    Sim X R (x >>= f) (x >>= f) S E := by
  refine .bind (.conseq hx (fun _ _ hst => hst) (fun _ _ _ _ hst => hst) hE) ?_
  rintro a b s t ⟨rfl, hst⟩
  exact hf a s t hst

theorem bind (hx : Keeps X R x) (hf : ∀ a, Keeps X R (f a)) : Keeps X R (x >>= f) :=
  hx.bind_sim (fun _ _ hst => hst) hf

theorem pure (a : α) : Keeps X R (Pure.pure a : Exec ε σ α) :=
  fun _ _ hst => .ok ⟨rfl, hst⟩

theorem map (hx : Keeps X R x) (g : α → β) : Keeps X R (x >>= fun a => Pure.pure (g a)) :=
  hx.bind fun _ => pure _

theorem throw (e : ε) : Keeps X R (Exec.throw e : Exec ε σ α) := fun _ _ hst => .error hst

theorem stop : Keeps X R (Exec.stop : Exec ε σ α) := fun _ _ _ => .stop

theorem lift (y : Except ε α) : Keeps X R (Exec.lift y) := by
  intro s t hst
  cases y with
  | error e => exact .error hst
  | ok a => exact .ok ⟨rfl, hst⟩

theorem unwrap (y : Option α) : Keeps X R (Exec.unwrap y) := by
  intro s t hst
  cases y with
  | none => exact .stop
  | some a => exact .ok ⟨rfl, hst⟩

theorem attempt (y : Option (Except ε α)) : Keeps X R (Exec.attempt y) := by
  intro s t hst
  rcases y with _ | (e | a)
  · exact .stop
  · exact .error hst
  · exact .ok ⟨rfl, hst⟩

theorem modify {u : σ → σ} (h : ∀ s t, R s t → R (u s) (u t)) :
    Keeps X R (Exec.modify u : Exec ε σ Unit) :=
  fun s t hst => .ok ⟨rfl, h s t hst⟩

/-- A computation that reads the state but goes on in the same way in related states. -/
theorem get_bind {g : σ → Exec ε σ β} (hg : ∀ s t, R s t → g s = g t)
    (h : ∀ s, Keeps X R (g s)) : Keeps X R (Exec.get >>= g) := by
  intro s t hst
  have hm := h s s t hst
  show Matches X _ R (g s s) (g t t)
  rw [← hg s t hst]
  exact hm

theorem zoom {v : σ → τ} {pt : σ → τ → σ} {y : Exec ε τ α} (hv : ∀ s t, R s t → v s = v t)
    (hp : ∀ s t u, R s t → R (pt s u) (pt t u)) : Keeps X R (Exec.zoom v pt y) := by
  intro s t hst
  unfold Exec.zoom
  rw [← hv s t hst]
  rcases y (v s) with _ | ⟨e | a, u⟩
  · exact .stop
  · exact .error (hp s t u hst)
  · exact .ok ⟨rfl, hp s t u hst⟩

end Keeps

end Galfus.Exec
