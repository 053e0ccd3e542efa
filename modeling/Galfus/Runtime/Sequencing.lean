import Galfus.Runtime.Inbox
import Galfus.Runtime.PlainHost
import Galfus.Table.Run

/-! # The order of the events

Events are handled in the order of their sequence numbers, however the driver puts them into
batches. An event that comes before its turn waits; one that was handled is dropped.
-/

namespace Galfus.Orchestrator

open Exec (Moves)

variable {host : Host} {s s' : Orchestrator host}

section Turns

variable {event : RuntimeEvent host} {r : Except Empty Unit}

/-- A failure is not taken back. -/
def Fails (s s' : Orchestrator host) : Prop := s.failure.isSome = true → s'.failure.isSome = true

instance : Std.Refl (@Fails host) := ⟨fun _ => id⟩

instance : IsTrans (Orchestrator host) Fails := ⟨fun _ _ _ h h' => h' ∘ h⟩

theorem failure_eq_none_of_fails (h : Fails s s') (hn : s'.failure = none) : s.failure = none := by
  by_contra hne
  have hs := h (Option.isSome_iff_ne_none.mpr hne)
  rw [hn] at hs
  cases hs

def handleNext (event : RuntimeEvent host) : Orchestration host Unit := do
  let _ ← takeEvent
  processEvent event
  finishAfterEvent
  Exec.modify fun s => { s with activeEventSequence := none }

/-- Handle events one after the other up to the first failure. -/
def handleInOrder : List (RuntimeEvent host) → Orchestration host Unit
  | [] => pure ()
  | event :: rest => do
    handleNext event
    let s ← Exec.get
    if s.failure.isSome then pure () else handleInOrder rest

/-- The events whose turn it is, one after the other without a gap. -/
def ready (s : Orchestrator host) : List (RuntimeEvent host) :=
  s.pendingEvents.run s.pendingEvents.size s.nextEventSequence

def handleBatch (events : List (ℕ × RuntimeEvent host)) : Orchestration host Unit := do
  let accepted ← acceptEvents events
  if accepted then do
    let s ← Exec.get
    handleInOrder s.ready
  else pure ()

/-- The state in which an event is handled that was taken. -/
def taken (s : Orchestrator host) (event : RuntimeEvent host) : Orchestrator host :=
  { s with
    pendingEvents := s.pendingEvents.erase s.nextEventSequence
    kernel := s.kernel.release .eventQueue 1
    nextEventSequence := s.nextEventSequence + 1
    activeEventSequence := some s.nextEventSequence
    trace := s.trace ++ [.handled s.nextEventSequence event (event.carrier.all s.kernel.isOut)] }

theorem takeEvent_of_none (h : s.pendingEvents.lookup s.nextEventSequence = none) :
    takeEvent s = some (.ok none, s) := by
  unfold takeEvent
  rw [Exec.get_bind]
  rw [h]
  rfl

theorem takeEvent_of_some (h : s.pendingEvents.lookup s.nextEventSequence = some event) :
    takeEvent s =
      if s.nextEventSequence < usizeMax then some (.ok (some event), s.taken event) else none := by
  unfold takeEvent
  rw [Exec.get_bind]
  rw [h]
  split <;> rfl

/-- An event after which there is no failure leaves the other events alone. -/
theorem calm_processEvent (hr : processEvent event s = some (r, s')) (h : s'.failure = none) :
    Calm s s' := by
  by_cases hev : event = .cancelExecution
  · subst hev
    obtain ⟨_, s₁, -, hr⟩ := Exec.bind_run hr
    cases hr
    cases h
  · exact moves_processEvent hev _ _ _ hr

theorem calm_handled {r' : Except Empty Unit} {s₁ : Orchestrator host}
    (hr : processEvent event s = some (r, s₁)) (hf : finishAfterEvent s₁ = some (r', s'))
    (h : s'.failure = none) : Calm s s' := by
  have hc : Calm _ _ := moves_finishAfterEvent _ _ _ hf
  exact trans_of Calm (calm_processEvent hr (failure_eq_none_of_fails hc.failure h)) hc

theorem eventRounds_eq (rs : ℕ) (s : Orchestrator host) : eventRounds rs s =
      handleInOrder (s.pendingEvents.run rs s.nextEventSequence) s := by
  induction rs generalizing s with
  | zero => rfl
  | succ rs ih =>
    unfold eventRounds
    cases h : s.pendingEvents.lookup s.nextEventSequence with
    | none =>
      rw [Table.run_of_none h, Exec.bind_apply, takeEvent_of_none h]
      rfl
    | some event =>
      rw [Table.run_of_some h, handleInOrder, handleNext]
      simp only [Exec.bind_assoc]
      refine Exec.bind_congr fun a s₁ ht => ?_
      rw [takeEvent_of_some h, Option.ite_none_right_eq_some] at ht
      obtain ⟨-, heq⟩ := ht
      cases heq
      refine Exec.bind_congr fun _ s₂ hp => Exec.bind_congr fun _ s₃ hfn => ?_
      simp only [Exec.bind_apply, Exec.modify_apply, Exec.get_apply, Option.bind_some]
      split
      · rfl
      · next hf =>
        have hc := calm_handled hp hfn (Option.not_isSome_iff_eq_none.mp hf)
        have hi := hc.inbox
        simp only [inbox, taken, Prod.mk.injEq] at hi
        rw [ih, hi.1, hi.2.1, Table.run_erase]

theorem processEvents_eq_handleBatch (es : List (ℕ × RuntimeEvent host)) :
    processEvents es = handleBatch es := by
  refine congrArg (acceptEvents es >>= ·) (funext fun a => ?_)
  cases a with
  | false => rfl
  | true => exact funext fun s => eventRounds_eq _ _

/-- What a turn that ends without a failure does to the events. -/
theorem handleNext_spec (h : s.pendingEvents.lookup s.nextEventSequence = some event)
    (hr : handleNext event s = some (r, s')) (hf : s'.failure = none) :
    s'.pendingEvents = s.pendingEvents.erase s.nextEventSequence ∧
      s'.nextEventSequence = s.nextEventSequence + 1 ∧
      s'.handledEvents = s.handledEvents ++ [(s.nextEventSequence, event)] := by
  obtain ⟨a, s₁, ht, hr⟩ := Exec.bind_run hr
  rw [takeEvent_of_some h, Option.ite_none_right_eq_some] at ht
  obtain ⟨-, heq⟩ := ht
  cases heq
  obtain ⟨_, s₂, hp, hr⟩ := Exec.bind_run hr
  obtain ⟨_, s₃, hfn, hr⟩ := Exec.bind_run hr
  cases hr
  have hc := calm_handled hp hfn hf
  have hi := hc.inbox
  simp only [inbox, taken, Prod.mk.injEq] at hi
  refine ⟨hi.1, hi.2.1, ?_⟩
  show s₃.handledEvents = _
  rw [hc.handled]
  unfold handledEvents taken
  rw [List.filterMap_append]
  rfl

end Turns

theorem fails_of_calms {α : Type} {x : Orchestration host α} (h : Calms x) : Moves Fails x :=
  h.mono fun _ _ hc => hc.failure

theorem fails_processEvent (event : RuntimeEvent host) : Moves Fails (processEvent event) := by
  intro s r s' hr hs
  by_contra hn
  exact hn ((calm_processEvent hr (Option.not_isSome_iff_eq_none.mp hn)).failure hs)

theorem fails_takeEvent : Moves Fails (takeEvent : Orchestration host _) := by
  apply Moves.get_bind
  intro s
  split
  · exact .pure _
  · split
    · exact .bind (.modify fun _ => id) fun _ => .pure _
    · exact .stop

theorem fails_handleInOrder (es : List (RuntimeEvent host)) : Moves Fails (handleInOrder es) := by
  induction es with
  | nil => exact .pure _
  | cons event rs ih =>
    refine .bind ?_ fun _ => ?_
    · refine fails_takeEvent.bind fun _ => (fails_processEvent event).bind fun _ => ?_
      exact (fails_of_calms moves_finishAfterEvent).bind fun _ =>
        .modify fun _ => id
    · apply Moves.get_bind
      intro s
      split
      · exact .pure _
      · exact ih

theorem fails_acceptEvents (es : List (ℕ × RuntimeEvent host)) : Moves Fails (acceptEvents es) := by
  induction es with
  | nil => exact .pure _
  | cons e rs ih =>
    apply Moves.get_bind
    intro s
    split
    · exact ih
    · refine (fails_of_calms (calms_kernelCall _)).bind ?_
      rintro (e | _)
      · exact .bind (.modify fun _ _ => rfl) fun _ => .pure _
      · refine .bind (.modify fun _ => id) fun _ => ?_
        split
        · exact .bind (.modify fun _ _ => rfl) fun _ => .pure _
        · exact ih

theorem fails_step (es : List (ℕ × RuntimeEvent host)) : Moves Fails (step es) := by
  unfold step
  rw [processEvents_eq_handleBatch]
  refine .bind ?_ fun _ => fails_of_calms moves_dispatchRunnables
  refine (fails_acceptEvents es).bind ?_
  rintro (_ | _)
  · exact .pure _
  · exact .get_bind fun s => fails_handleInOrder _

section Batches

variable {received : List (ℕ × RuntimeEvent host)} {r : Except Empty Unit}

/-- The events up to the next one were handled in order, and the others that came wait. -/
structure InOrder (received : List (ℕ × RuntimeEvent host)) (s : Orchestrator host) : Prop where
  sequences : s.handledEvents.map Prod.fst = List.range' 1 s.handledEvents.length
  next : s.nextEventSequence = s.handledEvents.length + 1
  handled : ∀ e ∈ s.handledEvents, e ∈ received
  pending : ∀ n event, s.pendingEvents.lookup n = some event → (n, event) ∈ received
  kept : ∀ e ∈ received, e.1 < s.nextEventSequence ∨ (s.pendingEvents.lookup e.1).isSome

section

variable (h : InOrder received s)
include h

theorem InOrder.calm (hc : Calm s s') : InOrder received s' := by
  have hi := hc.inbox
  simp only [inbox, Prod.mk.injEq] at hi
  obtain ⟨hp, hn, -⟩ := hi
  constructor
  · rw [hc.handled]
    exact h.sequences
  · rw [hc.handled, hn]
    exact h.next
  · rw [hc.handled]
    exact h.handled
  · rw [hp]
    exact h.pending
  · rw [hp, hn]
    exact h.kept

theorem InOrder.drop {e : ℕ × RuntimeEvent host} (he : e.1 < s.nextEventSequence) :
    InOrder (received ++ [e]) s where
  sequences := h.sequences
  next := h.next
  handled e he := List.mem_append_left _ (h.handled e he)
  pending n event hn := List.mem_append_left _ (h.pending n event hn)
  kept e' he' := by
    rcases List.mem_append.mp he' with he' | he'
    · exact h.kept e' he'
    · rw [List.mem_singleton.mp he']
      exact .inl he

theorem InOrder.insert (k : VirtualKernel host) (e : ℕ × RuntimeEvent host) :
    InOrder (received ++ [e])
      { s with kernel := k, pendingEvents := s.pendingEvents.insert e.1 e.2 } where
  sequences := h.sequences
  next := h.next
  handled e he := List.mem_append_left _ (h.handled e he)
  pending n event hn := by
    rw [Table.lookup_insert_eq] at hn
    split at hn
    · next heq =>
      cases hn
      exact List.mem_append_right _ (List.mem_singleton.mpr (Prod.ext heq rfl))
    · exact List.mem_append_left _ (h.pending n event hn)
  kept e' he' := by
    rw [Table.lookup_insert_eq]
    rcases List.mem_append.mp he' with he' | he'
    · refine (h.kept e' he').imp id fun hs => ?_
      split
      · rfl
      · exact hs
    · rw [List.mem_singleton.mp he', if_pos rfl]
      exact .inr rfl

theorem InOrder.acceptEvents {es : List (ℕ × RuntimeEvent host)} {a : Bool}
    (hr : acceptEvents es s = some (.ok a, s')) (hf : s'.failure = none) :
    a = true ∧ InOrder (received ++ es) s' := by
  induction es generalizing s received with
  | nil =>
    cases hr
    rw [List.append_nil]
    exact ⟨rfl, h⟩
  | cons e rs ih =>
    rw [List.append_cons received e rs]
    unfold Orchestrator.acceptEvents at hr
    rw [Exec.get_bind] at hr
    split at hr
    · next hl => exact ih (h.drop hl) hr
    · obtain ⟨⟨er | an, s₁⟩, hrs, hr⟩ := Option.bind_eq_some_iff.mp hr
      · exact er.elim
      obtain ⟨-, rfl⟩ := Prod.mk.inj (Option.some.inj hrs)
      rcases an with er | _
      · cases hr
        cases hf
      · dsimp only at hr
        rw [Exec.bind_apply, Exec.modify_apply, Option.bind_some] at hr
        dsimp only at hr
        split at hr
        · cases hr
          cases hf
        · exact ih (h.insert _ e) hr

theorem InOrder.handleNext {event : RuntimeEvent host}
    (hev : s.pendingEvents.lookup s.nextEventSequence = some event)
    (hr : handleNext event s = some (r, s')) (hf : s'.failure = none) :
    InOrder received s' := by
  obtain ⟨hp, hnx, hh⟩ := handleNext_spec hev hr hf
  have hl : s'.handledEvents.length = s.handledEvents.length + 1 := by
    rw [hh, List.length_append, List.length_singleton]
  constructor
  · rw [hl, hh, List.map_append, h.sequences, List.range'_concat, h.next]
    simp [Nat.add_comm]
  · rw [hnx, hl, h.next]
  · intro e he
    rw [hh, List.mem_append, List.mem_singleton] at he
    rcases he with he | rfl
    · exact h.handled e he
    · exact h.pending _ _ hev
  · intro n event hn
    rw [hp, Table.lookup_erase_eq] at hn
    split at hn
    · cases hn
    · exact h.pending n event hn
  · intro e he
    rw [hp, hnx, Table.lookup_erase_eq]
    rcases h.kept e he with hlt | hs
    · exact .inl (Nat.lt_succ_of_lt hlt)
    · split
      · next heq => exact .inl (by omega)
      · exact .inr hs

theorem InOrder.handleInOrder {es : List (RuntimeEvent host)} {b : ℕ}
    (hev : s.pendingEvents.run b s.nextEventSequence = es)
    (hrn : handleInOrder es s = some (r, s')) (hfa : s'.failure = none) :
    InOrder received s' ∧ s'.pendingEvents.lookup s'.nextEventSequence =
      s.pendingEvents.lookup (s.nextEventSequence + es.length) := by
  induction es generalizing s b with
  | nil =>
    cases hrn
    exact ⟨h, rfl⟩
  | cons event rs ih =>
    cases b with
    | zero => cases hev
    | succ b =>
      cases hen : s.pendingEvents.lookup s.nextEventSequence with
      | none =>
        rw [Table.run_of_none hen] at hev
        cases hev
      | some e' =>
        rw [Table.run_of_some hen] at hev
        obtain ⟨rfl, hrs⟩ := List.cons.inj hev
        obtain ⟨_, s₁, htr, hrn⟩ := Exec.bind_run hrn
        rw [Exec.get_bind] at hrn
        split at hrn
        · next hfl =>
          cases hrn
          rw [hfa] at hfl
          cases hfl
        · next hnn =>
          have hnn := Option.not_isSome_iff_eq_none.mp hnn
          obtain ⟨hpn, hnx, -⟩ := handleNext_spec hen htr hnn
          have hrn' : s₁.pendingEvents.run b s₁.nextEventSequence = rs := by
            rw [hpn, hnx, Table.run_erase]
            exact hrs
          obtain ⟨hin, hed⟩ := ih (h.handleNext hen htr hnn) hrn' hrn
          refine ⟨hin, hed.trans ?_⟩
          rw [hpn, hnx, Table.lookup_erase_eq, if_neg (by omega), List.length_cons]
          congr 1
          omega

/-- After a batch the next event is one that did not come. -/
theorem InOrder.processEvents {es : List (ℕ × RuntimeEvent host)}
    (hr : processEvents es s = some (r, s')) (hf : s'.failure = none) :
    InOrder (received ++ es) s' ∧ s'.pendingEvents.lookup s'.nextEventSequence = none := by
  rw [processEvents_eq_handleBatch] at hr
  obtain ⟨a, s₁, ha, hr⟩ := Exec.bind_run hr
  cases a with
  | false =>
    cases hr
    cases (h.acceptEvents ha hf).1
  | true =>
    have hn := failure_eq_none_of_fails (fails_handleInOrder _ _ _ _ hr) hf
    obtain ⟨hin, hen⟩ := (h.acceptEvents ha hn).2.handleInOrder rfl hr hf
    exact ⟨hin, hen.trans (Table.lookup_run_end le_rfl)⟩

theorem InOrder.step {es : List (ℕ × RuntimeEvent host)} {r : Except Empty Unit}
    (hr : step es s = some (r, s')) (hf : s'.failure = none) :
    InOrder (received ++ es) s' ∧ s'.pendingEvents.lookup s'.nextEventSequence = none := by
  obtain ⟨_, s₁, hp, hr⟩ := Exec.bind_run hr
  have hc : Calm s₁ s' := moves_dispatchRunnables _ _ _ hr
  have hn := failure_eq_none_of_fails hc.failure hf
  obtain ⟨hin, hen⟩ := h.processEvents hp hn
  have hi := hc.inbox
  simp only [inbox, Prod.mk.injEq] at hi
  refine ⟨hin.calm hc, ?_⟩
  rw [hi.1, hi.2.1]
  exact hen

theorem InOrder.steps {bs : List (List (ℕ × RuntimeEvent host))} {r : Except Empty PUnit}
    (hen : s.pendingEvents.lookup s.nextEventSequence = none)
    (hr : (bs.forM Orchestrator.step) s = some (r, s')) (hf : s'.failure = none) :
    InOrder (received ++ bs.flatten) s' ∧ s'.pendingEvents.lookup s'.nextEventSequence = none := by
  induction bs generalizing s received with
  | nil =>
    cases hr
    rw [List.flatten_nil, List.append_nil]
    exact ⟨h, hen⟩
  | cons b rs ih =>
    obtain ⟨_, s₁, hs, hr⟩ := Exec.bind_run hr
    have hn := failure_eq_none_of_fails (Moves.forM rs fails_step _ _ _ hr) hf
    obtain ⟨hin, hen⟩ := h.step hs hn
    rw [List.flatten_cons, ← List.append_assoc]
    exact ih hin hen hr

end

/-- However the events are put into batches, as long as nothing fails, those that were handled are
those of the longest prefix that came, in their order and each once. -/
theorem events_handled_in_order {events : ℕ → RuntimeEvent host}
    {batches : List (List (ℕ × RuntimeEvent host))} (hpending : s.pendingEvents = ∅)
    (hnext : s.nextEventSequence = 1) (hhandled : s.handledEvents = [])
    (hevents : ∀ e ∈ batches.flatten, e.2 = events e.1) :
    (∀ batch, (processEvents batch : Orchestration host Unit) = handleBatch batch) ∧
      ∀ r s', (batches.forM step) s = some (r, s') → s'.failure = none →
        ∃ n, s'.handledEvents = (List.range' 1 n).map (fun i => (i, events i)) ∧
          (∀ i ∈ List.range' 1 n, (i, events i) ∈ batches.flatten) ∧
          ∀ e ∈ batches.flatten, e.1 ≠ n + 1 := by
  refine ⟨processEvents_eq_handleBatch, fun r s' hrn hfl => ?_⟩
  have hst : InOrder [] s := by
    constructor
    · rw [hhandled]
      rfl
    · rw [hhandled, hnext]
      rfl
    · rw [hhandled]
      exact fun _ h => h
    · rw [hpending]
      intro n event h
      cases h
    · intro e h
      cases h
  have hnn : s.pendingEvents.lookup s.nextEventSequence = none := by
    rw [hpending]
    rfl
  obtain ⟨hin, hen⟩ := hst.steps hnn hrn hfl
  have hls : s'.handledEvents =
      (List.range' 1 s'.handledEvents.length).map fun i => (i, events i) := by
    rw [← hin.sequences, List.map_map]
    refine (List.map_id _).symm.trans (List.map_congr_left fun e he => ?_)
    exact Prod.ext rfl (hevents e (hin.handled e he))
  refine ⟨_, hls, fun i hi => ?_, fun e he heq => ?_⟩
  · apply hin.handled
    rw [hls]
    exact List.mem_map_of_mem hi
  · rcases hin.kept e he with hlt | hsm
    · have := hin.next
      omega
    · rw [heq, ← hin.next, hen] at hsm
      cases hsm

/-- Ticks out of order, one of them twice. -/
def tickBatches : List (List (ℕ × RuntimeEvent plainHost)) :=
  [[(2, .tick 2)], [(5, .tick 5), (1, .tick 1)], [(2, .tick 2), (3, .tick 3)]]

theorem ticks_handled_in_order :
    ∃ r s', (tickBatches.forM step) (.new plainLaunch.limits none none) = some (r, s') ∧
      s'.failure = none ∧ ∃ n, s'.handledEvents =
          (List.range' 1 n).map (fun i => (i, (.tick i : RuntimeEvent plainHost))) ∧
        (∀ i ∈ List.range' 1 n, (i, (.tick i : RuntimeEvent plainHost)) ∈ tickBatches.flatten) ∧
        ∀ e ∈ tickBatches.flatten, e.1 ≠ n + 1 := by
  obtain ⟨⟨r, s'⟩, hr, hf⟩ := @exists_of_any _
    ((tickBatches.forM step) (.new plainLaunch.limits none none))
    (fun p => p.2.failure.isNone = true) _ (by decide +kernel)
  have hf := Option.isNone_iff_eq_none.mp hf
  refine ⟨r, s', hr, hf, ?_⟩
  refine (events_handled_in_order rfl rfl rfl ?_).2 r s' hr hf
  intro e he
  simp only [tickBatches, List.flatten_cons, List.flatten_nil, List.cons_append, List.nil_append,
    List.mem_cons, List.not_mem_nil, or_false] at he
  rcases he with rfl | rfl | rfl | rfl | rfl <;> rfl

end Batches

end Galfus.Orchestrator
