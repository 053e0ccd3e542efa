import Galfus.Runtime.Futures
import Galfus.Runtime.Lifecycle

/-! # Histories of the registry of futures

The calls of the registry with their answers, and what they say about one future. Every
future lives the life of `Life` as long as no key is created twice.
-/

namespace Galfus

inductive RegistryCall (σ ω ρ : Type) where
  | create (key : FutureKey) (payloadType payloadModuleId : Option ℕ) (activation : Activation σ)
  | insertDirectAwait (key : FutureKey) (payloadType payloadModuleId : ℕ)
      (activation : Activation σ)
  | takeActivationForStart (key : FutureKey)
  | takeInlineGalfusActivation (key : FutureKey)
  | assignRequestId (key : FutureKey) (requestId : ℕ)
  | addWaiter (key : FutureKey) (waiter : ω)
  | complete (key : FutureKey) (result : ρ)
  | discard (key : FutureKey)
  | discardForRace (key : FutureKey)
  | discardAllForOwner (owner : ℕ)
  | discardAll

inductive RegistryAnswer (σ ω ρ : Type) where
  | done (answer : Except ExecutionFailure Unit)
  | activation (answer : Except ExecutionFailure (Option (Activation σ)))
  | wait (answer : Except ExecutionFailure (WaitDisposition ω ρ))
  | waiters (answer : Except ExecutionFailure (List ω))
  | discarded (answer : Except ExecutionFailure (DiscardDisposition σ))
  | allDiscarded (answer : List (FutureKey × Option (Activation σ)))

variable {σ ω ρ : Type}

namespace FutureRegistry

def perform (r : FutureRegistry σ ω ρ) :
    RegistryCall σ ω ρ → RegistryAnswer σ ω ρ × FutureRegistry σ ω ρ
  | .create key payloadType payloadModuleId activation =>
    (r.create key payloadType payloadModuleId activation).map .done id
  | .insertDirectAwait key payloadType payloadModuleId activation =>
    (r.insertDirectAwait key payloadType payloadModuleId activation).map .done id
  | .takeActivationForStart key => (r.takeActivationForStart key).map .activation id
  | .takeInlineGalfusActivation key => (r.takeInlineGalfusActivation key).map .activation id
  | .assignRequestId key requestId => (r.assignRequestId key requestId).map .done id
  | .addWaiter key waiter => (r.addWaiter key waiter).map .wait id
  | .complete key result => (r.complete key result).map .waiters id
  | .discard key => (r.discard key).map .discarded id
  | .discardForRace key => (r.discardForRace key).map .discarded id
  | .discardAllForOwner owner =>
    (r.discardAllForOwner owner).map
      (fun ds => .allDiscarded (ds.map fun d => ((owner, d.1), d.2))) id
  | .discardAll => r.discardAll.map .allDiscarded id

end FutureRegistry

/-- The calls of a registry with their answers, and the registry after them. -/
structure Session (σ ω ρ : Type) where
  transcript : List (RegistryCall σ ω ρ × RegistryAnswer σ ω ρ)
  registry : FutureRegistry σ ω ρ

namespace Session

def call (s : Session σ ω ρ) (c : RegistryCall σ ω ρ) : Session σ ω ρ :=
  let (answer, registry) := s.registry.perform c
  ⟨s.transcript ++ [(c, answer)], registry⟩

def ofCalls (calls : List (RegistryCall σ ω ρ)) : Session σ ω ρ :=
  calls.foldl call ⟨[], .new⟩

end Session

abbrev FutureEvents (σ ω ρ : Type) := List (FutureKey × LifeEvent (Activation σ) ω ρ)

/-- What the answer says about a future that was to be created. -/
def createEvents (key : FutureKey) (activation : Activation σ) :
    Except ExecutionFailure Unit → FutureEvents σ ω ρ
  | .ok () => [(key, .created activation)]
  | .error _ => []

/-- What the answer says about a future whose activation was asked for. -/
def takeEvents (key : FutureKey) :
    Except ExecutionFailure (Option (Activation σ)) → FutureEvents σ ω ρ
  | .ok (some activation) => [(key, .handedOut activation)]
  | .ok none | .error _ => []

/-- What the answer says about a future that was to be discarded. -/
def discardEvents (forced : Bool) (key : FutureKey) :
    Except ExecutionFailure (DiscardDisposition σ) → FutureEvents σ ω ρ
  | .ok (.created activation) => [(key, .discarded forced (some activation))]
  | .ok (.running _) | .ok .terminal => [(key, .discarded forced none)]
  | .ok .retained | .error _ => []

/-- What a call with its answer says about the futures. -/
def RegistryCall.events : RegistryCall σ ω ρ → RegistryAnswer σ ω ρ → FutureEvents σ ω ρ
  | create key _ _ activation, .done answer => createEvents key activation answer
  | insertDirectAwait key _ _ activation, .done answer => createEvents key activation answer
  | takeActivationForStart key, .activation answer => takeEvents key answer
  | takeInlineGalfusActivation key, .activation answer => takeEvents key answer
  | addWaiter key waiter, .wait (.ok .registered) => [(key, .registered waiter)]
  | complete key result, .waiters (.ok waiters) => [(key, .completed result waiters)]
  | discard key, .discarded answer => discardEvents false key answer
  | discardForRace key, .discarded answer => discardEvents true key answer
  | discardAllForOwner _, .allDiscarded answer =>
    answer.map fun d => (d.1, .discarded true none)
  | discardAll, .allDiscarded answer => answer.map fun d => (d.1, .discarded true none)
  | _, _ => []

namespace FutureEvents

def ofKey (key : FutureKey) (es : FutureEvents σ ω ρ) : List (LifeEvent (Activation σ) ω ρ) :=
  es.filterMap fun e => if e.1 = key then some e.2 else none

def discards (es : FutureEvents σ ω ρ) : List FutureKey :=
  es.filterMap fun e =>
    match e.2 with
    | .discarded .. => some e.1
    | _ => none

def creates (es : FutureEvents σ ω ρ) : List FutureKey :=
  es.filterMap fun e => e.2.creation?.map fun _ => e.1

variable {es : FutureEvents σ ω ρ} {key k : FutureKey} {e : LifeEvent (Activation σ) ω ρ}

theorem ofKey_snoc_self : ofKey key (es ++ [(key, e)]) = ofKey key es ++ [e] := by
  simp [ofKey]

theorem ofKey_snoc_of_ne (h : key ≠ k) : ofKey k (es ++ [(key, e)]) = ofKey k es := by
  simp [ofKey, h]

theorem creates_snoc :
    creates (es ++ [(key, e)]) = creates es ++ (e.creation?.map fun _ => key).toList := by
  rw [creates, List.filterMap_append]
  cases e <;> rfl

theorem length_creations_ofKey (es : FutureEvents σ ω ρ) (key : FutureKey) :
    (LifeEvent.creations (es.ofKey key)).length = es.creates.count key := by
  induction es using List.reverseRecOn with
  | nil => rfl
  | append_singleton es e ih =>
    obtain ⟨k, e⟩ := e
    rw [creates_snoc, List.count_append, ← ih]
    by_cases hk : k = key
    · subst hk
      rw [ofKey_snoc_self, LifeEvent.creations_snoc]
      cases e.creation? <;> simp
    · rw [ofKey_snoc_of_ne hk]
      cases e.creation? <;> simp [hk]

theorem discards_snoc_discarded (f : Bool) (a : Option (Activation σ)) :
    discards (es ++ [(key, .discarded f a)]) = discards es ++ [key] := by
  simp [discards]

end FutureEvents

namespace Session

def events (s : Session σ ω ρ) : FutureEvents σ ω ρ :=
  s.transcript.flatMap fun entry => entry.1.events entry.2

def CreatesOnce (s : Session σ ω ρ) : Prop := s.events.creates.Nodup

instance (s : Session σ ω ρ) : Decidable s.CreatesOnce :=
  inferInstanceAs (Decidable s.events.creates.Nodup)

end Session

/-- The record of a future at a stage of its life. -/
inductive Shows : Option (FutureRecord σ ω ρ) → Life (Activation σ) ω ρ → Prop
  | absent : Shows none .absent
  | gone : Shows none .gone
  | created {record : FutureRecord σ ω ρ} {a : Activation σ} (h : record.state = .created a) :
      Shows (some record) (.waiting (some a) record.waiters.toList)
  | running {record : FutureRecord σ ω ρ} {a : Activation σ} (h : record.state = .running a) :
      Shows (some record) (.waiting none record.waiters.toList)
  | resolved {record : FutureRecord σ ω ρ} {result : ρ} (h : record.state = .resolved result)
      (hw : record.waiters.toList = []) : Shows (some record) (.resolved result)

theorem Shows.discard {record : FutureRecord σ ω ρ} {l : Life (Activation σ) ω ρ} {f : Bool}
    {b : Option (Activation σ)} (h : Shows (some record) l)
    (hem : f = false → record.waiters.toList = [])
    (hb : b = none ∨ ∃ a, b = some a ∧ record.state = .created a) :
    Life.Step l (.discarded f b) .gone := by
  cases h with
  | created hc =>
    refine .discarded _ _ _ _ hem ?_
    rcases hb with hb | ⟨a, rfl, ha⟩
    · exact .inl hb
    · cases ha.symm.trans hc
      exact .inr rfl
  | running hc =>
    refine .discarded _ _ _ _ hem ?_
    rcases hb with hb | ⟨a, rfl, ha⟩
    · exact .inl hb
    · cases ha.symm.trans hc
  | resolved hc hw =>
    rcases hb with rfl | ⟨a, rfl, ha⟩
    · exact .released _ _
    · cases ha.symm.trans hc

/-- The registry is what the events so far make of it. -/
structure FutureRegistry.Tracks (es : FutureEvents σ ω ρ) (r : FutureRegistry σ ω ρ) : Prop where
  life : ∀ key, ∃ l, Life.Run (es.ofKey key) l ∧ Shows (r.records.lookup key) l ∧
    (l = .gone ↔ key ∈ es.discards)
  recent : r.tombstones.Keeps maxTombstones es.discards
  nodup : es.discards.Nodup

namespace FutureRegistry

open FutureEvents

variable {r r' : FutureRegistry σ ω ρ} {es : FutureEvents σ ω ρ} {key : FutureKey}
  {record rc' : FutureRecord σ ω ρ} {e : LifeEvent (Activation σ) ω ρ}

theorem tracks_new : Tracks [] (new : FutureRegistry σ ω ρ) := by
  refine ⟨fun key => ⟨.absent, .start, .absent, ?_⟩, Recent.keeps_empty, List.nodup_nil⟩
  simp [discards]

section

variable (h : Tracks es r)
include h

theorem Tracks.same : Tracks (es ++ []) r := (List.append_nil es).symm ▸ h

theorem Tracks.happen (hs : ∀ l, Shows (r.records.lookup key) l → (l = .gone ↔ key ∈ es.discards) →
      ∃ l', Life.Step l e l' ∧ Shows (some record) l') :
    Tracks (es ++ [(key, e)]) (r.store key record) := by
  obtain ⟨l₀, hr₀, hs₀, hg₀⟩ := h.life key
  obtain ⟨l', hst', hs'⟩ := hs l₀ hs₀ hg₀
  have hd : discards (es ++ [(key, e)]) = discards es := by
    cases hst' with
    | discarded | released => cases hs'
    | _ => simp [discards]
  have hl₀ : l₀ ≠ .gone := by
    rintro rfl
    cases hst'
  have hl' : l' ≠ .gone := by
    rintro rfl
    cases hs'
  refine ⟨fun k => ?_, hd ▸ h.recent, hd ▸ h.nodup⟩
  rw [hd, store, Table.lookup_insert_eq]
  by_cases hk : k = key
  · subst hk
    rw [ofKey_snoc_self, if_pos rfl]
    exact ⟨l', hr₀.step hst', hs', iff_of_false hl' fun hm => hl₀ (hg₀.mpr hm)⟩
  · rw [ofKey_snoc_of_ne (Ne.symm hk), if_neg hk]
    exact h.life k

theorem Tracks.store (hs : ∀ l, Shows (r.records.lookup key) l → Shows (some record) l) :
    Tracks es (r.store key record) := by
  refine ⟨fun k => ?_, h.recent, h.nodup⟩
  rw [FutureRegistry.store, Table.lookup_insert_eq]
  by_cases hk : k = key
  · subst hk
    obtain ⟨l, hr, hl, hg⟩ := h.life k
    rw [if_pos rfl]
    exact ⟨l, hr, hs l hl, hg⟩
  · rw [if_neg hk]
    exact h.life k

theorem Tracks.remove {f : Bool} {a : Option (Activation σ)}
    (hs : ∀ l, Shows (r.records.lookup key) l → Life.Step l (.discarded f a) .gone) :
    Tracks (es ++ [(key, .discarded f a)]) (r.remove key) := by
  obtain ⟨l₀, hr₀, hsh₀, hg₀⟩ := h.life key
  have hs₀ := hs l₀ hsh₀
  have hnw : key ∉ discards es := by
    intro hm
    rw [← hg₀] at hm
    subst hm
    cases hs₀
  have hn : (discards es ++ [key]).Nodup := by
    rw [List.nodup_append]
    exact ⟨h.nodup, List.nodup_singleton _, by
      rintro k hk _ hk' rfl
      exact hnw (List.mem_singleton.mp hk' ▸ hk)⟩
  refine ⟨fun k => ?_, ?_, ?_⟩
  · rw [FutureRegistry.remove, recordTombstone, Table.lookup_erase_eq, discards_snoc_discarded]
    by_cases hk : k = key
    · subst hk
      rw [ofKey_snoc_self, if_pos rfl]
      exact ⟨.gone, hr₀.step hs₀, .gone, by simp⟩
    · rw [ofKey_snoc_of_ne (Ne.symm hk), if_neg hk]
      obtain ⟨l, hr, hl, hg⟩ := h.life k
      exact ⟨l, hr, hl, by simp [hg, hk]⟩
  · rw [discards_snoc_discarded]
    exact h.recent.record (by decide) hn
  · rwa [discards_snoc_discarded]

theorem Tracks.insertRecord {a : Activation σ} (hst : record.state = .created a)
    (hw : record.waiters.toList = [])
    (ho : (r.insertRecord key record).1 = .ok () → key ∉ es.discards) :
    Tracks (es ++ createEvents key a (r.insertRecord key record).1)
      (r.insertRecord key record).2 := by
  unfold FutureRegistry.insertRecord at ho ⊢
  cases hk : r.records.lookup key with
  | some o =>
    exact h.same
  | none =>
    simp only [hk, Option.isSome_none, Bool.false_eq_true, if_false, true_implies] at ho ⊢
    refine h.happen fun l hs hg => ⟨.waiting (some a) [], ?_, ?_⟩
    · rw [hk] at hs
      cases hs with
      | absent => exact .created a
      | gone => exact absurd (hg.mp rfl) ho
    · exact hw ▸ .created hst

theorem Tracks.takeActivation (ac : Activation σ → Bool) :
    Tracks (es ++ takeEvents key (r.takeActivation ac key).1) (r.takeActivation ac key).2 := by
  unfold FutureRegistry.takeActivation
  split
  · exact h.same
  · next record hk =>
    split
    · next a hs =>
      split
      · refine h.happen fun l hsh _ => ⟨.waiting none record.waiters.toList, ?_, ?_⟩
        · rw [hk] at hsh
          cases hsh with
          | created hc =>
            cases hs.symm.trans hc
            exact .handedOut _ _
          | running hc | resolved hc => cases hs.symm.trans hc
        · exact .running (a := a.runningDescriptor) rfl
      · exact h.same
    · exact h.same

theorem Tracks.assignRequestId (ri : ℕ) : Tracks es (r.assignRequestId key ri).2 := by
  have hr : ∀ {record : FutureRecord σ ω ρ} {a b : Activation σ},
      r.records.lookup key = some record → record.state = .running a →
      Tracks es (r.store key { record with state := .running b }) := by
    intro record a b hk hs
    refine h.store fun l hsh => ?_
    rw [hk] at hsh
    cases hsh with
    | created hc => cases hs.symm.trans hc
    | running hc => exact .running (a := b) rfl
    | resolved hc => cases hs.symm.trans hc
  unfold FutureRegistry.assignRequestId
  split
  · exact h
  · next record hk =>
    split
    · next hs => exact hr hk hs
    · next hs => exact hr hk hs
    · exact h
    · exact h

theorem Tracks.addWaiter (w : ω) :
    Tracks (es ++ RegistryCall.events (.addWaiter key w) (.wait (r.addWaiter key w).1))
      (r.addWaiter key w).2 := by
  have hps : ∀ {record : FutureRecord σ ω ρ} {a : Activation σ} {ws : Waiters ω},
      r.records.lookup key = some record →
      record.state = .created a ∨ record.state = .running a → record.waiters.push w = .ok ws →
      Tracks (es ++ [(key, .registered w)]) (r.store key { record with waiters := ws }) := by
    intro record a ws hky hst hws
    refine h.happen fun l hsh _ => ?_
    rw [hky] at hsh
    cases hsh with
    | created hc =>
      exact ⟨_, .registered _ _ w, by rw [← Waiters.toList_push hws]; exact .created hc⟩
    | running hc =>
      exact ⟨_, .registered _ _ w, by rw [← Waiters.toList_push hws]; exact .running hc⟩
    | resolved hc => simp [hc] at hst
  unfold FutureRegistry.addWaiter
  split
  · exact h.same
  · next record hky =>
    split
    · exact h.same
    · exact h.same
    · next a hst =>
      split
      · next ws hws => exact hps hky (.inl hst) hws
      · exact h.same
    · next a hst =>
      split
      · next ws hws => exact hps hky (.inr hst) hws
      · exact h.same

theorem Tracks.complete (rs : ρ) :
    Tracks (es ++ RegistryCall.events (.complete key rs) (.waiters (r.complete key rs).1))
      (r.complete key rs).2 := by
  have hr : ∀ {record : FutureRecord σ ω ρ} {a : Activation σ}, r.records.lookup key = some record →
      record.state = .created a ∨ record.state = .running a →
      Tracks (es ++ [(key, .completed rs record.waiters.toList)]) (r.store key
        { record with state := .resolved rs, waiters := record.waiters.cleared }) := by
    intro record a hk hs
    refine h.happen fun l hsh _ => ?_
    rw [hk] at hsh
    cases hsh with
    | created hc | running hc => exact ⟨_, .completed _ _ rs, .resolved rfl (by simp)⟩
    | resolved hc => simp [hc] at hs
  unfold FutureRegistry.complete
  split
  · split <;> exact h.same
  · next record hk =>
    split
    · exact h.same
    · exact h.same
    · next a hs => exact hr hk (.inl hs)
    · next a hs => exact hr hk (.inr hs)

theorem Tracks.discardInner (f : Bool) : Tracks (es ++ discardEvents f key (r.discardInner key f).1)
      (r.discardInner key f).2 := by
  unfold FutureRegistry.discardInner
  split
  · exact h.same
  · next record hk =>
    split
    · exact h.same
    · next hf =>
      have hem : f = false → record.waiters.toList = [] := by
        rintro rfl
        rw [← Waiters.isEmpty_iff]
        simpa using hf
      split
      · next a hs =>
        exact h.remove fun l hl => (hk ▸ hl).discard hem (.inr ⟨a, rfl, hs⟩)
      · exact h.remove fun l hl => (hk ▸ hl).discard hem (.inl rfl)
      · exact h.remove fun l hl => (hk ▸ hl).discard hem (.inl rfl)
      · exact h.remove fun l hl => (hk ▸ hl).discard hem (.inl rfl)

omit h in
/-- An owner-wide discard is a sequence of forced ones. -/
theorem Tracks.discardOwned (o : ℕ) (i : List ℕ) (h : Tracks es r) :
    Tracks (es ++ (FutureRegistry.discardOwned o i r).1.map
      fun d => ((o, d.1), .discarded true none)) (FutureRegistry.discardOwned o i r).2 := by
  induction i generalizing es r with
  | nil => simpa [FutureRegistry.discardOwned] using h
  | cons fi rs ih =>
    unfold FutureRegistry.discardOwned
    cases hk : r.records.lookup (o, fi) with
    | none => exact ih h
    | some record =>
      have hr : Tracks (es ++ [((o, fi), .discarded true none)]) (r.remove (o, fi)) :=
        h.remove fun l hl => (hk ▸ hl).discard (by simp) (.inl rfl)
      simpa using ih hr

omit h in
theorem Tracks.discardOwners (os : List ℕ) (h : Tracks es r) :
    Tracks (es ++ (FutureRegistry.discardOwners os r).1.map
      fun d => (d.1, .discarded true none)) (FutureRegistry.discardOwners os r).2 := by
  induction os generalizing es r with
  | nil => simpa [FutureRegistry.discardOwners] using h
  | cons o rs ih =>
    have ht := ih (h.discardOwned o (r.ownedIds o))
    simpa [FutureRegistry.discardOwners, discardAllForOwner, Function.comp_def] using ht

/-- A key that is created is new if no key is created twice. -/
theorem Tracks.notMem_discards {a : Activation σ} {an : Except ExecutionFailure Unit}
    (ho : (creates (es ++ createEvents key a an)).Nodup) (hok : an = .ok ()) :
    key ∉ es.discards := by
  subst hok
  obtain ⟨l, hr, -, hg⟩ := h.life key
  intro hm
  have hcr := List.length_pos_iff.mpr (hr.creations_of_gone (hg.mpr hm))
  have hc := List.nodup_iff_count_le_one.mp ho key
  rw [← length_creations_ofKey, createEvents, ofKey_snoc_self, LifeEvent.creations_snoc,
    List.length_append] at hc
  simp only [LifeEvent.creation?, Option.toList_some, List.length_singleton] at hc
  omega

theorem Tracks.perform (c : RegistryCall σ ω ρ)
    (ho : (creates (es ++ c.events (r.perform c).1)).Nodup) :
    Tracks (es ++ c.events (r.perform c).1) (r.perform c).2 := by
  cases c with
  | create key pt pm a =>
    exact h.insertRecord rfl Waiters.toList_none (h.notMem_discards ho)
  | insertDirectAwait key pt pm a =>
    exact h.insertRecord rfl rfl (h.notMem_discards ho)
  | takeActivationForStart key => exact h.takeActivation fun _ => true
  | takeInlineGalfusActivation key => exact h.takeActivation Activation.isGalfusFunction
  | assignRequestId key ri =>
    exact (h.assignRequestId ri).same
  | addWaiter key w => exact h.addWaiter w
  | complete key rs => exact h.complete rs
  | discard key => exact h.discardInner false
  | discardForRace key => exact h.discardInner true
  | discardAllForOwner o =>
    have ht := h.discardOwned o (r.ownedIds o)
    simpa [FutureRegistry.perform, RegistryCall.events, discardAllForOwner, Function.comp_def]
  | discardAll => exact h.discardOwners r.owners

end

def waiting (r : FutureRegistry σ ω ρ) (key : FutureKey) : List ω :=
  match r.records.lookup key with
  | some record => record.waiters.toList
  | none => []

theorem pending_eq_waiting {l : Life (Activation σ) ω ρ} (h : Shows (r.records.lookup key) l) :
    l.pending = r.waiting key := by
  unfold waiting
  generalize r.records.lookup key = entry at h
  cases h with
  | resolved _ hw => exact hw.symm
  | _ => rfl

theorem addWaiter_of_resolved {rs : ρ} (h : Shows (r.records.lookup key) (.resolved rs))
    (w : ω) : (r.addWaiter key w).1 = .ok (.resolved w rs) := by
  unfold addWaiter
  generalize r.records.lookup key = entry at h
  cases h with
  | resolved hs _ => simp [hs]

theorem lookup_of_gone (h : Shows (r.records.lookup key) .gone) : r.records.lookup key = none := by
  generalize r.records.lookup key = entry at h
  cases h
  rfl

theorem addWaiter_of_gone (h : Shows (r.records.lookup key) .gone) (w : ω) : (r.addWaiter key w).1 =
      .error (failure .invalidContinuation "unknown or foreign future" key) := by
  rw [addWaiter, lookup_of_gone h]

/-- A future that was discarded lately is known to have been completed too late. -/
theorem Tracks.complete_of_recent (h : Tracks es r) (rs : ρ)
    (hr : key ∈ es.discards.drop (es.discards.length - maxTombstones)) :
    (r.complete key rs).1 = .error
      (failure .duplicateCompletion "future completed after being discarded" key) := by
  obtain ⟨l, -, hs, hg⟩ := h.life key
  obtain rfl := hg.mpr (List.mem_of_mem_drop hr)
  have hi : key ∈ r.tombstones.index := by
    rwa [h.recent.mem_index, h.recent.queue_eq]
  simp [FutureRegistry.complete, lookup_of_gone hs, hi]

end FutureRegistry

namespace Session

open LifeEvent

theorem ofCalls_snoc (cs : List (RegistryCall σ ω ρ)) (c : RegistryCall σ ω ρ) :
    ofCalls (cs ++ [c]) = (ofCalls cs).call c := by
  simp [ofCalls]

theorem events_call (s : Session σ ω ρ) (c : RegistryCall σ ω ρ) :
    (s.call c).events = s.events ++ c.events (s.registry.perform c).1 := by
  unfold events call
  rw [List.flatMap_append]
  exact congrArg _ (List.append_nil _)

theorem tracks (cs : List (RegistryCall σ ω ρ)) (ho : (ofCalls cs).CreatesOnce) :
    (ofCalls cs).registry.Tracks (ofCalls cs).events := by
  induction cs using List.reverseRecOn with
  | nil => exact FutureRegistry.tracks_new
  | append_singleton cs c ih =>
    unfold CreatesOnce at ho
    rw [ofCalls_snoc, events_call] at ho ⊢
    refine (ih ?_).perform c ho
    rw [FutureEvents.creates, List.filterMap_append] at ho
    exact (List.nodup_append.mp ho).1

/-- For calls that create no key twice: an activation is handed out once at most and was created;
one completion succeeds at most; it hands back the registered waiters, unless a forced discard came
first; a later waiter gets the result, unless the future was discarded; and the completion of one of
the last 1024 discarded futures is reported as a duplicate. -/
theorem futures_exactly_once (calls : List (RegistryCall σ ω ρ))
    (honce : (ofCalls calls).CreatesOnce) (key : FutureKey) :
    let r := (ofCalls calls).registry
    let ds := (ofCalls calls).events.discards
    let es := (ofCalls calls).events.ofKey key
    ((handOuts es).length ≤ 1 ∧ ∀ a ∈ handOuts es, a ∈ creations es) ∧ (results es).length ≤ 1 ∧
      ((registrations es = handedBack es ++ r.waiting key ∧
          (results es ≠ [] → r.waiting key = [])) ∨
        Forced es ∧ handedBack es = []) ∧
      (∀ result ∈ results es, ∀ w, (r.addWaiter key w).1 = .ok (.resolved w result) ∨
          key ∈ ds ∧ ∃ e, (r.addWaiter key w).1 = .error e) ∧
      (key ∈ ds.drop (ds.length - 1024) → ∀ result, ∃ e,
        (r.complete key result).1 = .error e ∧ e.kind = .duplicateCompletion) := by
  intro r ds es
  have htr := tracks calls honce
  obtain ⟨l, hrn, hsh, hgn⟩ := htr.life key
  have hpn : l.pending = r.waiting key := FutureRegistry.pending_eq_waiting hsh
  have hcr : (creations es).length ≤ 1 := by
    rw [FutureEvents.length_creations_ofKey]
    exact List.nodup_iff_count_le_one.mp honce key
  refine ⟨⟨hrn.handOuts_sublist.length_le.trans hcr, hrn.handOuts_sublist.subset⟩,
    hrn.results_length, ?_, ?_, ?_⟩
  · rcases hrn.registrations_eq with hrg | hfr
    · refine .inl ⟨hpn ▸ hrg, fun hre => ?_⟩
      obtain ⟨result, hrs⟩ := List.exists_mem_of_ne_nil _ hre
      rw [← hpn]
      rcases hrn.of_mem_results hrs with rfl | rfl <;> rfl
    · exact .inr hfr
  · intro result hrs w
    rcases hrn.of_mem_results hrs with rfl | rfl
    · exact .inl (FutureRegistry.addWaiter_of_resolved hsh w)
    · exact .inr ⟨hgn.mp rfl, _, FutureRegistry.addWaiter_of_gone hsh w⟩
  · intro hrc result
    exact ⟨_, htr.complete_of_recent result hrc, rfl⟩

/-- A future with two waiters that is started and completed, and one that loses a race. -/
def awaitedTwice : List (RegistryCall ℕ ℕ ℕ) :=
  [.create (1, 1) none none (.internal "__internal_thread_sleep" 0 []), .addWaiter (1, 1) 7,
    .takeActivationForStart (1, 1), .addWaiter (1, 1) 8, .complete (1, 1) 5, .discard (1, 1),
    .create (1, 2) none none (.galfusFunction 0 0 []), .addWaiter (1, 2) 9,
    .discardForRace (1, 2)]

theorem futures_exactly_once_awaitedTwice : (ofCalls awaitedTwice).CreatesOnce ∧
      registrations ((ofCalls awaitedTwice).events.ofKey (1, 1)) = [7, 8] ∧
      (results ((ofCalls awaitedTwice).events.ofKey (1, 1))).length ≤ 1 ∧
      ∃ e, ((ofCalls awaitedTwice).registry.complete (1, 2) 6).1 = .error e ∧
        e.kind = .duplicateCompletion :=
  ⟨by decide, rfl, (futures_exactly_once awaitedTwice (by decide) (1, 1)).2.1,
    (futures_exactly_once awaitedTwice (by decide) (1, 2)).2.2.2.2 (by decide) 6⟩

end Session

end Galfus
