import Galfus.Runtime.Boxes
import Galfus.Runtime.Mild

/-! # Methods that are not about futures or messages

Most methods of the orchestrator schedule threads, release resources or report failures. What
they do to threads can remove mailboxes; futures, receives and the history stay as they are.
-/

namespace Galfus.Orchestrator

open VirtualKernel
open Exec (Moves)

variable {host : Host} {α : Type}

/-- A preorder of states that the methods which are not about futures or messages move along. -/
class Closed (R : Orchestrator host → Orchestrator host → Prop) : Prop extends Mild R where
  kernel : ∀ (s : Orchestrator host) (k : VirtualKernel host), s.kernel.Shrinks k →
    R s { s with kernel := k }
  note : ∀ s (n : ThreadNote host), n.handled? = none → R s { s with trace := s.trace ++ [n] }
  worker : ∀ s id, R s { s with futureWorkers := s.futureWorkers.erase id }
  continuation : ∀ s key, R s { s with pendingContinuations := s.pendingContinuations.erase key }
  aggregates : ∀ s coordinators ids finishes, R s { s with
    aggregateCoordinators := coordinators
    coordinatorIds := ids
    pendingAggregateFinishes := finishes }

structure Still (s s' : Orchestrator host) : Prop where
  kernel : s.kernel.Shrinks s'.kernel
  ledger : s'.ledger = s.ledger

instance : Closed (@Still host) where
  refl s := ⟨Shrinks.refl s.kernel, rfl⟩
  trans _ _ _ h h' := ⟨h.kernel.trans h'.kernel, h'.ledger.trans h.ledger⟩
  kernel _ _ h := ⟨h, rfl⟩
  quota _ _ h := ⟨Shrinks.of_eq rfl rfl h, rfl⟩
  aggregates s _ _ _ := ⟨Shrinks.refl s.kernel, rfl⟩
  set s s' h := by
    have hk : s'.kernel = s.kernel := congrArg Prod.fst h
    exact ⟨hk ▸ Shrinks.refl s.kernel, congrArg (fun t => t.2.1) h⟩
  fail s _ := ⟨Shrinks.refl s.kernel, rfl⟩
  note s _ _ := ⟨Shrinks.refl s.kernel, rfl⟩
  worker s _ := ⟨Shrinks.refl s.kernel, rfl⟩
  continuation s _ := ⟨Shrinks.refl s.kernel, rfl⟩

variable {R : Orchestrator host → Orchestrator host → Prop} [Closed R]

variable (ti : ℕ) (t : host.Thread) (c : Continuation)

theorem moves_kernelCall {f : VirtualKernel host → α × VirtualKernel host}
    (h : ∀ k : VirtualKernel host, k.Shrinks (f k).2) : Moves R (kernelCall f) := by
  rintro s _ _ ⟨⟩
  exact Closed.kernel s _ (h s.kernel)

theorem moves_kernelDo {f : VirtualKernel host → VirtualKernel host}
    (h : ∀ k : VirtualKernel host, k.Shrinks (f k)) : Moves R (kernelDo f) :=
  .modify fun s => Closed.kernel s _ (h s.kernel)

theorem moves_note {n : ThreadNote host} (h : n.handled? = none) : Moves R (note n) :=
  .modify fun s => Closed.note s n h

theorem moves_cancel : Moves R (kernelDo (·.cancel ti)) :=
  moves_kernelDo fun _ => shrinks_cancel ti

theorem moves_takeThread : Moves R (kernelCall (·.takeThread ti)) :=
  moves_kernelCall fun _ => shrinks_takeThread ti

theorem moves_unblock : Moves R (kernelCall (·.unblock ti)) :=
  moves_kernelCall fun _ => shrinks_unblock ti

theorem moves_enqueueRunnable : Moves R (kernelCall (·.enqueueRunnable ti t)) :=
  moves_kernelCall fun _ => shrinks_enqueueRunnable ti t

theorem moves_markRunning : Moves R (kernelDo (·.markRunning ti)) :=
  moves_kernelDo fun _ => shrinks_markRunning ti

theorem moves_parkRunning : Moves R (kernelDo (·.parkRunning ti t)) :=
  moves_kernelDo fun _ => shrinks_restoreVmState ti t

theorem moves_failThread (e : ExecutionFailure) : Moves R (failThread ti t e) :=
  (moves_fail e).bind fun _ => (moves_cancel ti).bind fun _ => moves_dropThread t

theorem moves_cancelAndTeardownThread : Moves R (cancelAndTeardownThread ti) := by
  refine (moves_takeThread ti).bind ?_
  rintro (_ | t)
  · exact moves_cancel ti
  · exact (moves_teardownThreadHandles t).bind fun t =>
      (moves_dropThread t).bind fun _ => moves_cancel ti

theorem moves_cancelAndTeardownAllThreads : Moves R cancelAndTeardownAllThreads :=
  .get_bind fun _ => .forM _ moves_cancelAndTeardownThread

theorem moves_failAndTeardown (e : ExecutionFailure) : Moves R (failAndTeardown ti e) :=
  (moves_fail e).bind fun _ => moves_cancelAndTeardownThread ti

theorem moves_dispatchRounds (rs r : ℕ) : Moves R (dispatchRounds rs r) := by
  induction rs generalizing r with
  | zero => exact .pure _
  | succ rs ih =>
    cases r with
    | zero => exact .pure _
    | succ r =>
      refine .bind (moves_kernelCall fun _ => shrinks_nextRunnableDetailed) ?_
      rintro (_ | ⟨ti, f⟩)
      · exact .pure _
      · refine (moves_takeThread ti).bind ?_
        rintro (_ | t)
        · exact ih _
        · refine (moves_markRunning ti).bind ?_
          intro _
          refine (moves_reserve _ _).bind ?_
          rintro (e | _)
          · exact moves_failThread _ _ _
          · exact (moves_note rfl).bind fun _ => ih _

theorem moves_dispatchRunnables : Moves R dispatchRunnables :=
  .get_bind fun _ => .bind (moves_set fun _ => rfl) fun _ =>
    moves_dispatchRounds _ _

theorem moves_resumeOrFailFront (v : VmValue) : Moves R (resumeOrFailFront ti t c v) := by
  unfold resumeOrFailFront
  split
  · refine .bind (moves_kernelCall fun _ => shrinks_enqueueRunnableFront _ _) ?_
    rintro (e | _)
    · exact moves_failAndTeardown _ _
    · exact moves_dispatchRunnables
  · exact (moves_failAndTeardown _ _).bind fun _ => moves_dropThread _

theorem moves_blockOrFail : Moves R (blockOrFail ti t) := by
  refine .bind (moves_kernelCall fun _ => shrinks_block _ _ _) ?_
  rintro (e | _)
  · exact (moves_fail _).bind fun _ => (moves_cancel _).map _
  · exact .pure _

theorem moves_enqueueOrTeardown : Moves R (enqueueOrTeardown ti t) := by
  refine (moves_enqueueRunnable ti t).bind ?_
  rintro (e | _)
  · exact moves_failAndTeardown _ _
  · exact .pure _

theorem moves_putCoordinator (ci : ℕ) (c : AggregateCoordinator host) :
    Moves R (putCoordinator ci c) :=
  .modify fun s => Closed.aggregates s _ _ _

theorem moves_noteMember (ci : ℕ) (c : AggregateCoordinator host) : Moves R (noteMember ci c) :=
  (moves_putCoordinator _ _).bind fun _ => .modify fun s => Closed.aggregates s _ _ _

theorem moves_completeAggregateMember (ci i : ℕ) (r : host.Result) :
    Moves R (completeAggregateMember ci i r) := by
  apply Moves.get_bind
  intro s
  split
  · exact .pure _
  · split
    · exact .pure _
    · split
      · split
        · exact .stop
        · exact .pure _
        · exact (moves_note rfl).bind fun _ => moves_noteMember _ _
      · split
        · exact .stop
        · exact (moves_note rfl).bind fun _ => moves_noteMember _ _

theorem moves_resumeThread (p : PendingContinuation) (r : host.Result)
    (key : PendingKey) : Moves R (resumeThread ti t p r key) := by
  refine (moves_note rfl).bind ?_
  intro _
  split
  · split
    · split
      · exact moves_resumeOrFailFront _ _ _ _
      · exact (moves_failAndTeardown _ _).bind fun _ => moves_dropThread _
    · exact .stop
  · exact (moves_failAndTeardown _ _).bind fun _ => moves_dropThread _

theorem moves_resumePending (p : PendingContinuation) (r : host.Result)
    (key : PendingKey) : Moves R (resumePending ti p r key) := by
  unfold resumePending
  split
  · exact moves_completeAggregateMember _ _ _
  · refine (moves_unblock ti).bind ?_
    rintro (e | _)
    · exact moves_failAndTeardown _ _
    · refine (moves_takeThread ti).bind ?_
      rintro (_ | t)
      · exact .pure _
      · exact moves_resumeThread _ _ _ _ _

theorem moves_completePending (key : PendingKey) (r : host.Result) :
    Moves R (completePending ti key r) := by
  apply Moves.get_bind
  intro s
  split
  · split
    · refine .bind (.modify fun s => Closed.continuation s _) fun _ => ?_
      refine (moves_resumePending _ _ _ _).bind ?_
      intro _
      refine (moves_countMetrics _).bind ?_
      intro _
      split
      · exact moves_freeRequestId _
      · exact .pure _
    · exact (moves_countMetrics _).bind fun _ => moves_recordLateCompletion _ _
  · exact (moves_countMetrics _).bind fun _ => moves_recordLateCompletion _ _

theorem moves_cancelWorker (wi : ℕ) : Moves R (cancelWorker wi) :=
  .bind (.modify fun s => Closed.worker s _) fun _ => moves_cancelAndTeardownThread _

theorem moves_cancelFutureActivation (key : FutureKey) (a : Activation host.Surface) :
    Moves R (cancelFutureActivation key a) := by
  unfold cancelFutureActivation
  split
  · exact moves_cancelProviderRequest _ _ _
  · exact moves_cancelAdapterRequest _ _ _ _
  · exact .get_bind fun _ => .forM _ moves_cancelWorker
  all_goals exact .pure _

theorem moves_cancelPendingContinuation (key : PendingKey) :
    Moves R (cancelPendingContinuation key) := by
  refine .bind (.modify fun s => Closed.continuation s _) fun _ => ?_
  split
  · exact moves_freeRequestId _
  · exact .pure _

theorem moves_cancelPendingContinuations : Moves R (cancelPendingContinuations ti) :=
  .get_bind fun _ => .forM _ moves_cancelPendingContinuation

theorem moves_cancelAllPendingContinuations : Moves R cancelAllPendingContinuations :=
  .get_bind fun _ => .forM _ moves_cancelPendingContinuations

theorem moves_clearCoordinators : Moves R clearCoordinators :=
  .modify fun s => trans_of R
    (Mild.quota s (s.kernel.quota.release .pendingStates s.aggregateCoordinators.keys.length) rfl)
    (Closed.aggregates _ _ _ _)

theorem moves_wakeTarget (ti : ℕ) : Moves R (wakeTarget ti) := by
  refine (moves_unblock ti).bind ?_
  rintro (e | _)
  · exact (moves_fail _).bind fun _ => moves_cancel _
  · exact .pure _

theorem moves_startThread (c : host.Thread) (a : List VmValue) : Moves R (startThread ti c a) := by
  unfold startThread
  split
  · exact .pure _
  · refine .bind (moves_kernelCall fun _ => shrinks_takeCreatedThread _) ?_
    rintro (_ | t)
    · exact .pure _
    · refine (moves_prepareSpawn _ _ _).bind ?_
      rintro ⟨_ | _, t⟩
      · exact (moves_parkRunning _ _).map _
      · refine .bind (moves_kernelCall fun _ => shrinks_markSpawned _) ?_
        rintro (e | _)
        · exact (moves_parkRunning _ _).bind fun _ => (moves_fail _).map _
        · refine (moves_enqueueRunnable _ _).bind ?_
          rintro (e | _)
          · exact (moves_fail _).map _
          · exact (moves_markRunning _).map _

theorem moves_allocateRequestLease (fi : ℕ) (t : host.Thread) :
    Moves R (allocateRequestLease ti fi t) := by
  refine (moves_reserve _ _).bind ?_
  rintro (e | _)
  · exact (moves_failThread _ _ _).map _
  · apply Moves.get_bind
    intro s
    split
    · exact .bind (moves_set fun _ => rfl) fun _ => .pure _
    · exact (moves_release _ _).bind fun _ => (moves_failThread _ _ _).map _

theorem moves_runInline (mi fi : ℕ) (a : List VmValue) : Moves R (runInline ti t c mi fi a) := by
  refine .bind (.unwrap _) ?_
  rintro (e | t)
  · exact moves_failThread _ _ _
  · refine (moves_enqueueRunnable _ _).bind ?_
    rintro (e | _)
    · exact (moves_fail _).bind fun _ => moves_cancel _
    · exact .pure _

theorem moves_noteAwait (im : Bool) (ti fi : ℕ) : Moves R (noteAwait im ti fi) := by
  unfold noteAwait
  split
  · exact .pure _
  · exact moves_note rfl

theorem moves_blockAwaiting (im : Bool) (ti : ℕ) (t : host.Thread) :
    Moves R (blockAwaiting im ti t) := by
  unfold blockAwaiting
  split
  · exact .pure _
  · exact moves_blockOrFail _ _

theorem moves_handleAdapterHandleDropped (h : AdapterHandleId) :
    Moves R (handleAdapterHandleDropped ti t c h) := by
  refine (moves_releaseAdapterHandle h).bind ?_
  rintro (e | _)
  · exact moves_failThread _ _ _
  · exact moves_resumeOrFailFront _ _ _ _

theorem moves_abandonAggregate (ci ti : ℕ) (t : host.Thread) : Moves R (abandonAggregate ci ti t) :=
  .bind (.modify fun s => Closed.aggregates s _ _ _) fun _ =>
    (moves_release _ _).bind fun _ => (moves_cancel _).bind fun _ => moves_dropThread _

theorem moves_allocateCoordinatorId : Moves R (allocateCoordinatorId ti t) := by
  apply Moves.get_bind
  intro s
  split
  · exact .bind (.modify fun s => Closed.aggregates s _ _ _) fun _ => .pure _
  · exact (moves_failThread _ _ _).map _

theorem moves_armCoordinator (ci : ℕ) : Moves R (armCoordinator ci) :=
  .modify fun s => Closed.aggregates s _ _ _

theorem moves_advanceStartup (im : ℕ) : Moves R (advanceStartup ti t im) := by
  apply Moves.get_bind
  intro s
  refine .bind (moves_set fun _ => rfl) fun _ => ?_
  split
  · exact (moves_failAndTeardown _ _).bind fun _ => moves_dropThread _
  · refine (moves_nextStartup _ _ _).bind ?_
    rintro ⟨⟨mi, f, a⟩, t⟩
    dsimp only
    split
    · exact moves_enqueueOrTeardown _ _
    · exact .bind (moves_set fun _ => rfl) fun _ =>
        (moves_failAndTeardown _ _).bind fun _ => moves_dropThread _

theorem moves_effectCompleted (l : Lease) (r : host.Result) : Moves R (effectCompleted ti l r) := by
  apply Moves.get_bind
  intro s
  split
  · exact moves_completePending _ _ _
  · exact moves_lateAfterCancel

theorem moves_markExited (r : Except ExecutionFailure (BitVec 32)) :
    Moves R (kernelDo (·.markExited ti t r)) :=
  moves_kernelDo fun _ => shrinks_markExited ti t r

theorem moves_noteWokeUp (w : ℕ × Except ExecutionFailureKind Unit) : Moves R (noteWokeUp w) := by
  unfold noteWokeUp
  split
  · exact .pure _
  · exact moves_failAndTeardown _ _

theorem still_acceptEvents (es : List (ℕ × RuntimeEvent host)) : Moves Still (acceptEvents es) := by
  induction es with
  | nil => exact .pure _
  | cons ev r ih =>
    apply Moves.get_bind
    intro s
    split
    · exact ih
    · refine (moves_reserve _ _).bind ?_
      rintro (e | _)
      · exact (moves_fail _).map _
      · refine .bind (.modify fun s => ⟨.refl s.kernel, rfl⟩) fun _ => ?_
        split
        · exact (moves_fail _).map _
        · exact ih

theorem still_takeEvent : Moves Still (takeEvent : Orchestration host _) := by
  apply Moves.get_bind
  intro s
  split
  · exact .pure _
  · split
    · exact .bind (.modify fun _ => ⟨shrinks_release _ _, rfl⟩) fun _ => .pure _
    · exact .stop

end Galfus.Orchestrator
