import Galfus.Runtime.Futures

/-! # The futures that a registry holds

Only the creation of a future adds one; the other operations of the registry leave the set of
futures as it is or make it smaller.
-/

namespace Galfus.FutureRegistry

variable {σ ω ρ : Type} {r r' : FutureRegistry σ ω ρ} {key : FutureKey} {rc : FutureRecord σ ω ρ}

def Holds (r : FutureRegistry σ ω ρ) (key : FutureKey) : Prop :=
  (r.records.lookup key).isSome = true

def Within (r r' : FutureRegistry σ ω ρ) : Prop := ∀ key, r'.Holds key → r.Holds key

theorem Within.refl (r : FutureRegistry σ ω ρ) : r.Within r := fun _ h => h

theorem holds_store (h : r.Holds key) (k' : FutureKey) :
    (r.store key rc).Holds k' ↔ r.Holds k' := by
  unfold Holds store
  rw [Table.lookup_insert_eq]
  split
  · next heq =>
    rw [heq]
    exact ⟨fun _ => h, fun _ => rfl⟩
  · exact Iff.rfl

theorem holds_remove (k' : FutureKey) : (r.remove key).Holds k' ↔ k' ≠ key ∧ r.Holds k' := by
  unfold Holds remove recordTombstone
  rw [Table.lookup_erase_eq]
  split
  · next heq => simp [heq]
  · next hne => simp [hne]

theorem within_store (h : r.Holds key) : r.Within (r.store key rc) :=
  fun k' => (holds_store h k').mp

theorem within_remove : r.Within (r.remove key) := fun k' h => ((holds_remove k').mp h).2

theorem holds_of_lookup (h : r.records.lookup key = some rc) : r.Holds key := by
  unfold Holds
  rw [h]
  rfl

theorem within_takeActivation (a : Activation σ → Bool) : r.Within (r.takeActivation a key).2 := by
  unfold takeActivation
  split
  · exact .refl r
  · next h =>
    split
    · split
      · exact within_store (holds_of_lookup h)
      · exact .refl r
    · exact .refl r

theorem within_assignRequestId (ri : ℕ) : r.Within (r.assignRequestId key ri).2 := by
  unfold assignRequestId
  split
  · exact .refl r
  · next h =>
    split
    · exact within_store (holds_of_lookup h)
    · exact within_store (holds_of_lookup h)
    · exact .refl r
    · exact .refl r

theorem within_addWaiter (w : ω) : r.Within (r.addWaiter key w).2 := by
  unfold addWaiter
  split
  · exact .refl r
  · next h =>
    split
    · exact .refl r
    · exact .refl r
    all_goals
      split
      · exact within_store (holds_of_lookup h)
      · exact .refl r

theorem holds_complete (rs : ρ) (k' : FutureKey) : (r.complete key rs).2.Holds k' ↔ r.Holds k' := by
  unfold complete
  split
  · split <;> exact Iff.rfl
  · next h =>
    split
    · exact Iff.rfl
    · exact Iff.rfl
    · exact holds_store (holds_of_lookup h) k'
    · exact holds_store (holds_of_lookup h) k'

theorem complete_fst (rs : ρ) :
    (∃ ws, (r.complete key rs).1 = .ok ws) ↔ r.isPending key = true := by
  unfold complete isPending
  cases r.records.lookup key with
  | none =>
    dsimp only
    split <;> simp
  | some rc => cases hs : rc.state <;> simp [hs]

theorem complete_ok {rs : ρ} {ws : List ω} (h : r.complete key rs = (.ok ws, r')) :
    r.Holds key ∧ ∃ rc, r'.records.lookup key = some rc ∧ rc.waiters.isEmpty = true := by
  unfold complete at h
  split at h
  · split at h <;> cases h
  · next rc hl =>
    have hc : rc.waiters.cleared.isEmpty = true := by
      rw [Waiters.isEmpty_iff, Waiters.toList_cleared]
    split at h
    · cases h
    · cases h
    · cases h
      exact ⟨holds_of_lookup hl, _, AList.lookup_insert .., hc⟩
    · cases h
      exact ⟨holds_of_lookup hl, _, AList.lookup_insert .., hc⟩

theorem insertRecord_ok {u : Unit} (h : r.insertRecord key rc = (.ok u, r'))
    (k' : FutureKey) : r'.Holds k' ↔ k' = key ∨ r.Holds k' := by
  unfold insertRecord at h
  split at h
  · cases h
  · cases h
    unfold Holds
    rw [Table.lookup_insert_eq]
    by_cases heq : k' = key
    · simp [heq]
    · simp [heq]

theorem insertRecord_error {e : ExecutionFailure} (h : r.insertRecord key rc = (.error e, r')) :
    r' = r := by
  unfold insertRecord at h
  split at h
  · cases h
    rfl
  · cases h

/-- What a discard leaves: it fails, or the future is retained, or it is gone. -/
theorem discardInner_cases (r : FutureRegistry σ ω ρ) (key : FutureKey) (f : Bool) :
    (¬ r.Holds key ∧ ∃ e, r.discardInner key f = (.error e, r)) ∨
      (f = false ∧ r.discardInner key f = (.ok .retained, r)) ∨
      (r.Holds key ∧ ∃ d, d ≠ .retained ∧ r.discardInner key f = (.ok d, r.remove key)) := by
  unfold discardInner
  split
  · next h => exact .inl ⟨by simp [Holds, h], _, rfl⟩
  · next h =>
    split
    · next hf =>
      simp only [Bool.and_eq_true, Bool.not_eq_true'] at hf
      exact .inr (.inl ⟨hf.1, rfl⟩)
    · refine .inr (.inr ⟨holds_of_lookup h, ?_⟩)
      split
      all_goals exact ⟨_, by simp, rfl⟩

theorem discard_of_isEmpty (h : r.records.lookup key = some rc)
    (hem : rc.waiters.isEmpty = true) : (r.discard key).2 = r.remove key := by
  unfold discard discardInner
  rw [h]
  simp only [hem]
  split
  · next hc => simp at hc
  · split <;> rfl

theorem within_discardInner (r : FutureRegistry σ ω ρ) (key : FutureKey) (f : Bool) :
    r.Within (r.discardInner key f).2 := by
  rcases r.discardInner_cases key f with ⟨-, e, h⟩ | ⟨-, h⟩ | ⟨-, d, -, h⟩
  · rw [h]
    exact .refl r
  · rw [h]
    exact .refl r
  · rw [h]
    exact within_remove

theorem Within.trans {r'' : FutureRegistry σ ω ρ} (h : r.Within r') (h' : r'.Within r'') :
    r.Within r'' :=
  fun key hk => h key (h' key hk)

theorem discardOwned_spec (o : ℕ) (i : List ℕ) (r : FutureRegistry σ ω ρ) :
    r.Within (discardOwned o i r).2 ∧ ∀ d ∈ (discardOwned o i r).1,
      r.Holds (o, d.1) ∧ ¬ (discardOwned o i r).2.Holds (o, d.1) := by
  induction i generalizing r with
  | nil => exact ⟨.refl r, by simp [discardOwned]⟩
  | cons id rs ih =>
    unfold discardOwned
    split
    · exact ih r
    · next h =>
      obtain ⟨hw, hg⟩ := ih (r.remove (o, id))
      refine ⟨within_remove.trans hw, ?_⟩
      rintro d (_ | ⟨_, hd⟩)
      · refine ⟨holds_of_lookup h, fun hh => ?_⟩
        exact ((holds_remove _).mp (hw _ hh)).1 rfl
      · exact ⟨within_remove _ (hg d hd).1, (hg d hd).2⟩

theorem discardOwners_spec (os : List ℕ) (r : FutureRegistry σ ω ρ) :
    r.Within (discardOwners os r).2 ∧ ∀ d ∈ (discardOwners os r).1,
      r.Holds d.1 ∧ ¬ (discardOwners os r).2.Holds d.1 := by
  induction os generalizing r with
  | nil => exact ⟨.refl r, by simp [discardOwners]⟩
  | cons o rs ih =>
    obtain ⟨hf, hg⟩ := discardOwned_spec o (r.ownedIds o) r
    obtain ⟨hr, hg'⟩ := ih (r.discardAllForOwner o).2
    refine ⟨hf.trans hr, fun d hd => ?_⟩
    rcases List.mem_append.mp hd with hd | hd
    · obtain ⟨d', hd', rfl⟩ := List.mem_map.mp hd
      exact ⟨(hg d' hd').1, fun hh => (hg d' hd').2 (hr _ hh)⟩
    · exact ⟨hf _ (hg' d hd).1, (hg' d hd).2⟩

end Galfus.FutureRegistry
