import Mathlib.Data.List.Basic

/-! # The life of a future

A future that is not registered can be created with an activation. It waits for its result
and collects waiters; in this time its activation can be handed out, and it can be completed.
A future that was discarded never comes back.
-/

namespace Galfus

/-- What happens to a future. A forced discard does not care about waiters; a discard can hand out
an activation. -/
inductive LifeEvent (α ω ρ : Type) where
  | created (activation : α)
  | handedOut (activation : α)
  | registered (waiter : ω)
  | completed (result : ρ) (waiters : List ω)
  | discarded (forced : Bool) (activation : Option α)

/-- The stages of a future. The activation is there until it is handed out. -/
inductive Life (α ω ρ : Type) where
  | absent
  | waiting (activation : Option α) (waiters : List ω)
  | resolved (result : ρ)
  | gone

namespace Life

variable {α ω ρ : Type}

inductive Step : Life α ω ρ → LifeEvent α ω ρ → Life α ω ρ → Prop
  | created (a : α) : Step absent (.created a) (waiting (some a) [])
  | handedOut (a : α) (ws : List ω) : Step (waiting (some a) ws) (.handedOut a) (waiting none ws)
  | registered (a : Option α) (ws : List ω) (w : ω) :
      Step (waiting a ws) (.registered w) (waiting a (ws ++ [w]))
  | completed (a : Option α) (ws : List ω) (r : ρ) :
      Step (waiting a ws) (.completed r ws) (resolved r)
  | discarded (a b : Option α) (ws : List ω) (forced : Bool) (hws : forced = false → ws = [])
      (hb : b = none ∨ b = a) : Step (waiting a ws) (.discarded forced b) gone
  | released (r : ρ) (forced : Bool) : Step (resolved r) (.discarded forced none) gone

/-- The events of a future up to a stage, the first one first. -/
inductive Run : List (LifeEvent α ω ρ) → Life α ω ρ → Prop
  | start : Run [] absent
  | step {es : List (LifeEvent α ω ρ)} {l l' : Life α ω ρ} {e : LifeEvent α ω ρ} (hrun : Run es l)
      (hstep : Step l e l') : Run (es ++ [e]) l'

def pending : Life α ω ρ → List ω
  | waiting _ ws => ws
  | _ => []

end Life

namespace LifeEvent

variable {α ω ρ : Type}

def creation? : LifeEvent α ω ρ → Option α
  | created a => some a
  | _ => none

/-- The activation that is handed out, to start the future or to clean up after it. -/
def handOut? : LifeEvent α ω ρ → Option α
  | handedOut a => some a
  | discarded _ a => a
  | _ => none

def registration? : LifeEvent α ω ρ → Option ω
  | registered w => some w
  | _ => none

def result? : LifeEvent α ω ρ → Option ρ
  | completed r _ => some r
  | _ => none

def returned : LifeEvent α ω ρ → List ω
  | completed _ ws => ws
  | _ => []

section

variable (es : List (LifeEvent α ω ρ))

def creations : List α := es.filterMap creation?

def handOuts : List α := es.filterMap handOut?

def registrations : List ω := es.filterMap registration?

def results : List ρ := es.filterMap result?

def handedBack : List ω := es.flatMap returned

/-- There was a discard that did not care about waiters. -/
def Forced : Prop := ∃ a, discarded true a ∈ es

end

variable (es : List (LifeEvent α ω ρ)) (e : LifeEvent α ω ρ)

@[simp] theorem creations_snoc : creations (es ++ [e]) = creations es ++ e.creation?.toList := by
  rw [creations, List.filterMap_append]
  cases e <;> rfl

@[simp] theorem handOuts_snoc : handOuts (es ++ [e]) = handOuts es ++ e.handOut?.toList := by
  rw [handOuts, List.filterMap_append]
  rcases e with _ | _ | _ | _ | ⟨_, _ | _⟩ <;> rfl

@[simp] theorem registrations_snoc :
    registrations (es ++ [e]) = registrations es ++ e.registration?.toList := by
  rw [registrations, List.filterMap_append]
  cases e <;> rfl

@[simp] theorem results_snoc : results (es ++ [e]) = results es ++ e.result?.toList := by
  rw [results, List.filterMap_append]
  cases e <;> rfl

@[simp] theorem handedBack_snoc : handedBack (es ++ [e]) = handedBack es ++ e.returned := by
  simp [handedBack]

end LifeEvent

namespace Life

variable {α ω ρ : Type} {es : List (LifeEvent α ω ρ)} {e : LifeEvent α ω ρ} {l l' : Life α ω ρ}

open LifeEvent

/-- What the events so far say about a future at a stage. -/
def Ledger (es : List (LifeEvent α ω ρ)) : Life α ω ρ → Prop
  | absent => es = []
  | waiting b ws => ∃ a, creations es = [a] ∧ handOuts es ++ b.toList = [a] ∧
      results es = [] ∧ handedBack es = [] ∧ registrations es = ws
  | resolved r => ∃ a, creations es = [a] ∧ (handOuts es).Sublist [a] ∧
      results es = [r] ∧ registrations es = handedBack es
  | gone => ∃ a, creations es = [a] ∧ (handOuts es).Sublist [a] ∧ (results es).length ≤ 1 ∧
      (registrations es = handedBack es ∨ Forced es ∧ handedBack es = [])

theorem Ledger.step (h : Ledger es l) (hst : Step l e l') : Ledger (es ++ [e]) l' := by
  cases hst with
  | created a =>
    obtain rfl : es = [] := h
    exact ⟨a, rfl, rfl, rfl, rfl, rfl⟩
  | handedOut | registered =>
    obtain ⟨b, hc, ho, hr, hb, hrg⟩ := h
    exact ⟨b, by simpa [creation?] using hc, by simpa [handOut?] using ho,
      by simpa [result?] using hr, by simpa [returned] using hb,
      by simp [registration?, hrg]⟩
  | completed a ws r =>
    obtain ⟨b, hc, ho, hr, hb, hrg⟩ := h
    refine ⟨b, by simpa [creation?] using hc, ?_, by simp [result?, hr],
      by simp [registration?, returned, hb, hrg]⟩
    rw [← ho]
    simp [handOut?]
  | discarded a b ws f hws hb' =>
    obtain ⟨c, hc, ho, hr, hb, hrg⟩ := h
    refine ⟨c, by simpa [creation?] using hc, ?_, by simp [result?, hr], ?_⟩
    · rw [handOuts_snoc, ← ho]
      rcases hb' with rfl | rfl <;> simp [handOut?]
    · cases f with
      | false => exact .inl (by simp [registration?, returned, hb, hrg, hws rfl])
      | true => exact .inr ⟨⟨b, by simp⟩, by simp [returned, hb]⟩
  | released r f =>
    obtain ⟨c, hc, ho, hr, hrg⟩ := h
    exact ⟨c, by simpa [creation?] using hc, by simpa [handOut?] using ho,
      by simp [result?, hr], .inl (by simpa [registration?, returned] using hrg)⟩

theorem Run.ledger (h : Run es l) : Ledger es l := by
  induction h with
  | start => rfl
  | step _ hs ih => exact ih.step hs

section Accounts

variable (h : Run es l)

include h

theorem Run.handOuts_sublist : (handOuts es).Sublist (creations es) := by
  have hl := h.ledger
  rcases l with _ | ⟨b, ws⟩ | r | _
  · obtain rfl : es = [] := hl
    exact .slnil
  · obtain ⟨a, hc, ho, -⟩ := hl
    rw [hc, ← ho]
    exact List.sublist_append_left _ _
  · obtain ⟨a, hc, ho, -⟩ := hl
    rwa [hc]
  · obtain ⟨a, hc, ho, -⟩ := hl
    rwa [hc]

theorem Run.results_length : (results es).length ≤ 1 := by
  have hl := h.ledger
  rcases l with _ | ⟨b, ws⟩ | r | _
  · obtain rfl : es = [] := hl
    exact Nat.zero_le _
  · obtain ⟨a, -, -, hr, -⟩ := hl
    simp [hr]
  · obtain ⟨a, -, -, hr, -⟩ := hl
    simp [hr]
  · obtain ⟨a, -, -, hr, -⟩ := hl
    exact hr

/-- Registered waiters are handed back, or wait, or a forced discard came before the result. -/
theorem Run.registrations_eq : registrations es = handedBack es ++ l.pending ∨
    Forced es ∧ handedBack es = [] := by
  have hl := h.ledger
  rcases l with _ | ⟨b, ws⟩ | r | _
  · obtain rfl : es = [] := hl
    exact .inl rfl
  · obtain ⟨a, -, -, -, hb, hr⟩ := hl
    exact .inl (by rw [hb, hr, List.nil_append, pending])
  · obtain ⟨a, -, -, -, hr⟩ := hl
    exact .inl (by simp [hr, pending])
  · obtain ⟨a, -, -, -, hr⟩ := hl
    simpa [pending] using hr

theorem Run.of_mem_results {r : ρ} (hr : r ∈ results es) : l = resolved r ∨ l = gone := by
  have hl := h.ledger
  rcases l with _ | ⟨b, ws⟩ | r' | _
  · obtain rfl : es = [] := hl
    cases hr
  · obtain ⟨a, -, -, hrs, -⟩ := hl
    simp [hrs] at hr
  · obtain ⟨a, -, -, hrs, -⟩ := hl
    rw [hrs, List.mem_singleton] at hr
    exact .inl (by rw [hr])
  · exact .inr rfl

theorem Run.creations_of_gone (hg : l = gone) : creations es ≠ [] := by
  subst hg
  obtain ⟨a, hc, -⟩ := h.ledger
  simp [hc]

end Accounts

end Life

end Galfus
