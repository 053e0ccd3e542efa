import Galfus.Runtime.Wide

/-! # What the handlers leave alone

The handlers of events change neither the events that are pending nor the sequence number of
the next one, and they do not take a failure back. What they note is added to the trace. Only the
shutdown, which also ends the execution, forgets the events.
-/

namespace Galfus.Orchestrator

open Exec (Moves)

variable {host : Host} {α : Type} {s s' : Orchestrator host}

def handledEvents (s : Orchestrator host) : List (ℕ × RuntimeEvent host) :=
  s.trace.filterMap ThreadNote.handled?

structure Calm (s s' : Orchestrator host) : Prop where
  inbox : s'.inbox = s.inbox
  handled : s'.handledEvents = s.handledEvents
  failure : s.failure.isSome = true → s'.failure.isSome = true
  trace : s.trace <+: s'.trace
  workers : s.futureWorkers = ∅ → s'.futureWorkers = ∅
  continuations : s.pendingContinuations = ∅ → s'.pendingContinuations = ∅

/-- What a change of other parts of the state leaves alone. -/
def watched (s : Orchestrator host) :=
  (s.inbox, s.failure, s.trace, s.futureWorkers, s.pendingContinuations)

theorem calm_of_eq (h : s'.watched = s.watched) : Calm s s' := by
  simp only [watched, Prod.mk.injEq] at h
  obtain ⟨hi, hf, ht, hw, hc⟩ := h
  exact ⟨hi, congrArg (List.filterMap _) ht, fun h => hf ▸ h,
    ht ▸ List.prefix_rfl, fun h => hw ▸ h, fun h => hc ▸ h⟩

theorem calm_of_note {n : ThreadNote host} (hn : n.handled? = none)
    (ht : s'.trace = s.trace ++ [n]) (h : { s' with trace := s.trace }.watched = s.watched) :
    Calm s s' := by
  have hc := calm_of_eq h
  refine ⟨hc.inbox, ?_, hc.failure, ht ▸ List.prefix_append _ _, hc.workers, hc.continuations⟩
  unfold handledEvents
  rw [ht]
  simp [hn]

instance : Closed (@Calm host) where
  refl _ := calm_of_eq rfl
  trans _ _ _ h h' := ⟨h'.inbox.trans h.inbox, h'.handled.trans h.handled, h'.failure ∘ h.failure,
    h.trace.trans h'.trace, h'.workers ∘ h.workers, h'.continuations ∘ h.continuations⟩
  kernel _ _ _ := calm_of_eq rfl
  quota _ _ _ := calm_of_eq rfl
  aggregates _ _ _ _ := calm_of_eq rfl
  set _ _ h := by
    simp only [tracked, Prod.mk.injEq] at h
    obtain ⟨-, -, hi, hf, ht, hw, hc, -⟩ := h
    apply calm_of_eq
    rw [watched, hi, hf, ht, hw, hc, watched]
  fail _ _ := ⟨rfl, rfl, fun _ => rfl, List.prefix_rfl, id, id⟩
  note _ _ h := calm_of_note h rfl rfl
  worker _ id := ⟨rfl, rfl, fun h => h, List.prefix_rfl, congrArg (AList.erase id), fun h => h⟩
  continuation _ key :=
    ⟨rfl, rfl, fun h => h, List.prefix_rfl, fun h => h, congrArg (AList.erase key)⟩

abbrev Calms (x : Orchestration host α) : Prop := Moves Calm x

theorem calms_set {f : Orchestrator host → Orchestrator host}
    (h : ∀ s, (f s).watched = s.watched) : Calms (Exec.modify f) :=
  .modify fun s => calm_of_eq (h s)

theorem calms_kernelCall (f : VirtualKernel host → α × VirtualKernel host) :
    Calms (kernelCall f) := by
  rintro s _ _ ⟨⟩
  exact calm_of_eq rfl

theorem calms_registryCall (f : FutureRegistry host.Surface PendingContinuation host.Result →
    α × FutureRegistry host.Surface PendingContinuation host.Result) :
    Calms (registryCall f : Orchestration host α) := by
  rintro s _ _ ⟨⟩
  exact calm_of_eq rfl

theorem calms_freeFutureId (futureId : ℕ) :
    Calms (freeFutureId futureId : Orchestration host Unit) :=
  calms_set fun _ => rfl

theorem calms_cleanDiscarded (key : FutureKey) (activation : Option (Activation host.Surface)) :
    Calms (cleanDiscarded key activation : Orchestration host Unit) := by
  cases activation with
  | none => exact calms_freeFutureId _
  | some activation =>
    exact (moves_cancelFutureActivation _ _).bind fun _ => calms_freeFutureId _

theorem calms_cancelThreadFutures (threadId : ℕ) :
    Calms (cancelThreadFutures threadId : Orchestration host Unit) :=
  (calms_registryCall _).bind fun _ => .forM _ fun _ => calms_cleanDiscarded _ _

theorem calms_discardRaced (key : FutureKey) :
    Calms (discardRaced key : Orchestration host Unit) := by
  apply Moves.get_bind
  intro s
  refine .bind (calms_set fun _ => rfl) fun _ => (calms_registryCall _).bind ?_
  intro answer
  split
  · exact (moves_cancelFutureActivation _ _).bind fun _ => calms_freeFutureId _
  · exact calms_freeFutureId _

theorem calms_completeRecord (c : Cause) (key : FutureKey) (r : host.Result) :
    Calms (completeRecord c key r) := by
  rintro s _ _ ⟨⟩
  exact calm_of_eq rfl

theorem calms_discardDirect (isDirectAwait : Bool) (key : FutureKey) :
    Calms (discardDirect isDirectAwait key : Orchestration host Unit) := by
  unfold discardDirect
  split
  · exact (calms_registryCall _).bind fun _ => calms_freeFutureId _
  · exact .pure _

theorem calms_deliverResult (key : FutureKey) (pm : Option String)
    (ri : Option ℕ) (i : Bool) (r : host.Result)
    (ws : List PendingContinuation) :
    Calms (deliverResult key pm ri i r ws) := by
  refine (moves_registerResult _ _).bind ?_
  rintro (e | _)
  · exact (moves_fail _).bind fun _ => moves_cancel _
  · refine .bind (.forM _ fun _ => moves_resumePending _ _ _ _) fun _ => ?_
    refine (calms_discardDirect _ _).bind fun _ => ?_
    exact (moves_freeRequest _).bind fun _ => moves_countMetrics _

theorem calms_completeFuture (c : Cause) (ti fi : ℕ) (r : host.Result) :
    Calms (completeFuture c ti fi r) := by
  apply Moves.get_bind
  intro s
  dsimp only
  split
  · exact .stop
  · exact .bind (calms_set fun _ => rfl) fun _ => moves_failAndTeardown _ _
  · refine (calms_completeRecord _ _ _).bind ?_
    rintro (e | ws)
    · exact moves_noteUnmatched _ _
    · exact calms_deliverResult _ _ _ _ _ _

theorem calms_removeMailboxFutureWait (key : FutureKey) :
    Calms (removeMailboxFutureWait key : Orchestration host Unit) :=
  calms_set fun _ => rfl

theorem calms_popMailboxWait (targetThreadId : ℕ) (wait : MailboxFutureWait) :
    Calms (popMailboxWait targetThreadId wait : Orchestration host Unit) := by
  apply Moves.get_bind
  intro s
  refine (Moves.unwrap _).bind fun _ => (Moves.unwrap _).bind fun _ => ?_
  exact calms_set fun _ => rfl

theorem calms_serveRounds (targetThreadId senderId rounds : ℕ) :
    Calms (serveRounds targetThreadId senderId rounds : Orchestration host Unit) := by
  induction rounds with
  | zero => exact .pure _
  | succ rounds ih =>
    apply Moves.get_bind
    intro s
    split
    · exact .pure _
    · split
      · refine (calms_kernelCall _).bind ?_
        rintro (_ | message)
        · exact .pure _
        · refine (calms_popMailboxWait _ _).bind fun _ => ?_
          refine (calms_removeMailboxFutureWait _).bind fun _ => ?_
          refine .bind (calms_set fun _ => rfl) fun _ => ?_
          exact (calms_completeFuture _ _ _ _).bind fun _ => ih
      · exact (calms_popMailboxWait _ _).bind fun _ => ih

theorem calms_depositMessage (targetId : ℕ) (message : MailboxMessage)
    (mailbox : List MailboxMessage) (quota : MailboxQuota) :
    Calms (depositMessage targetId message mailbox quota : Orchestration host Unit) :=
  .modify fun _ => calm_of_note rfl rfl rfl

theorem calms_sendInternalThreadMessage (senderId : ℕ) (targetId : Option ℕ)
    (data : Option (List (BitVec 8))) :
    Calms (sendInternalThreadMessage senderId targetId data : Orchestration host Bool) := by
  apply Moves.get_bind
  intro s
  split
  · split
    · split
      · exact .pure _
      · split
        · exact .bind (calms_set fun _ => rfl) fun _ => .pure _
        · refine (calms_depositMessage _ _ _ _).bind fun _ => (moves_wakeTarget _).bind fun _ => ?_
          refine .bind (.get_bind fun _ => calms_serveRounds _ _ _) fun _ => ?_
          exact .pure _
    · exact .pure _
  · exact .pure _

theorem calms_receiveMessage (threadId : ℕ) (senderId : Option ℕ) :
    Calms (receiveMessage threadId senderId : Orchestration host _) := by
  intro s r s' hr
  unfold receiveMessage at hr
  split at hr
  · cases hr
    exact calm_of_eq rfl
  · cases hr
    exact calm_of_eq rfl

theorem calms_spawnThread (t : host.Thread) (key : Option String) : Calms (spawnThread t key) := by
  intro s r s' hr
  unfold spawnThread at hr
  split at hr
  · cases hr
    exact calm_of_note rfl rfl rfl
  · cases hr
    exact calm_of_eq rfl

theorem calm_allocated {l : Lease} (h : Allocated s s' l) : Calm s s' := by
  cases h
  exact calm_of_eq rfl

theorem calm_insertFuture {ti : ℕ} {l : Lease}
    {i : FutureRegistry host.Surface PendingContinuation host.Result → FutureKey →
      Except ExecutionFailure Unit × FutureRegistry host.Surface PendingContinuation host.Result}
    {r : Except Empty (Except ExecutionFailure Unit)}
    (hr : insertFuture ti l i s = some (r, s')) : Calm s s' := by
  unfold insertFuture at hr
  split at hr
  · cases hr
    exact calm_of_eq rfl
  · cases hr
    exact calm_of_eq rfl

instance : Wide (@Calm host) where
  registry _ _ _ := calm_of_eq rfl
  spawn := calms_spawnThread
  receive := calms_receiveMessage
  register _ hr := by
    cases hr
    exact calm_of_eq rfl
  unregister _ := calms_set fun _ => rfl
  send := calms_sendInternalThreadMessage
  complete _ _ _ hr := calms_completeFuture _ _ _ _ _ _ _ hr
  allocate := calm_allocated
  create h hr := trans_of Calm (calm_allocated h) (calm_insertFuture hr)
  drop {s} _ _ _ registry _ activation _ _ hr := by
    have hs : Calm s { s with futureRegistry := registry } := calm_of_eq rfl
    exact trans_of Calm hs (calms_cleanDiscarded _ activation _ _ _ hr)
  cancelFutures := calms_cancelThreadFutures
  race := calms_discardRaced

end Galfus.Orchestrator
