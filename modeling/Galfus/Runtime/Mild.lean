import Galfus.Exec.Moves
import Galfus.Runtime.EventLoop

/-! # Methods that only count

Many methods of the orchestrator only count resources, call the host or note something that no
thread waits for. They are moves along every preorder of states that allows a change of the
quota, of the parts that are not tracked and of the failure.
-/

namespace Galfus.Orchestrator

open Exec (Moves)

variable {host : Host}

/-- The futures, the receives that wait and the history. -/
def ledger (s : Orchestrator host) :=
  (s.futureRegistry, s.futureIds, s.futureGenerations, s.mailboxFutureWaits,
    s.mailboxFutureWaitTargets, s.mailboxWaitSequence, s.history)

/-- The events that wait, the numbers of the next event and of the one that is handled, and whether
the execution is closed. -/
def inbox (s : Orchestrator host) :=
  (s.pendingEvents, s.nextEventSequence, s.activeEventSequence, s.shuttingDown)

/-- The coordinators, their ids and those that are to be finished. -/
def aggregates (s : Orchestrator host) :=
  (s.aggregateCoordinators, s.coordinatorIds, s.pendingAggregateFinishes)

/-- What is not changed without a rule for it. -/
def tracked (s : Orchestrator host) :=
  (s.kernel, s.ledger, s.inbox, s.failure, s.trace, s.futureWorkers, s.pendingContinuations,
    s.aggregates)

/-- A preorder of states that the methods which only count move along. -/
class Mild (R : Orchestrator host → Orchestrator host → Prop) : Prop
    extends Std.Refl R, IsTrans (Orchestrator host) R where
  quota : ∀ (s : Orchestrator host) (q : GlobalQuota), q.limits = s.kernel.quota.limits →
    R s { s with kernel := { s.kernel with quota := q } }
  set : ∀ s s', s'.tracked = s.tracked → R s s'
  fail : ∀ s e, R s { s with failure := some e }

variable {R : Orchestrator host → Orchestrator host → Prop} [Mild R]

variable (hs : List AdapterHandleId) (ti : ℕ) (ri : ℕ) (th : host.Thread)

theorem moves_set {f : Orchestrator host → Orchestrator host} (h : ∀ s, (f s).tracked = s.tracked) :
    Moves R (Exec.modify f : Orchestration host Unit) :=
  .modify fun s => Mild.set s (f s) (h s)

theorem moves_fail (e : ExecutionFailure) : Moves R (fail e) :=
  .modify fun s => Mild.fail s e

theorem moves_release (k : ResourceLimitKind) (a : ℕ) : Moves R (kernelDo (·.release k a)) :=
  .modify fun s => Mild.quota s _ rfl

theorem moves_reserve (k : ResourceLimitKind) (a : ℕ) : Moves R (kernelCall (·.reserve k a)) := by
  intro s r s' hr
  have hs : s' = { s with kernel := (s.kernel.reserve k a).2 } :=
    (Prod.mk.inj (Option.some.inj hr)).2.symm
  rcases VirtualKernel.reserve_cases s.kernel k a with ⟨e, h⟩ | h
  · rw [hs, h]
    exact refl s
  · rw [hs, h]
    exact Mild.quota s _ rfl

theorem moves_dropThread : Moves R (kernelDo (·.dropThread th)) := by
  apply Moves.modify
  intro s
  unfold VirtualKernel.dropThread
  split
  · exact Mild.quota s _ rfl
  · exact refl s

theorem moves_freeRequestId : Moves R (freeRequestId ri) :=
  .bind (moves_set fun _ => rfl) fun _ => moves_release _ _

theorem moves_freeRequest (ri : Option ℕ) : Moves R (freeRequest ri) := by
  cases ri with
  | none => exact .pure _
  | some ri => exact moves_freeRequestId ri

theorem moves_releaseAdapterHandle (h : AdapterHandleId) : Moves R (releaseAdapterHandle h) := by
  apply Moves.get_bind
  intro s
  split
  · exact .pure _
  · split
    · exact .bind (moves_set fun _ => rfl) fun _ => .pure _
    · exact .bind (moves_set fun _ => rfl) fun _ =>
        (moves_release _ _).map _

theorem moves_releaseAdapterHandles : Moves R (releaseAdapterHandles hs) := by
  induction hs with
  | nil => exact .pure _
  | cons h r ih =>
    refine (moves_releaseAdapterHandle h).bind ?_
    rintro (e | _)
    · exact .pure _
    · exact ih

theorem moves_releaseOrFail : Moves R (releaseOrFail hs) := by
  refine (moves_releaseAdapterHandles hs).bind ?_
  rintro (e | _)
  · exact moves_fail _
  · exact .pure _

theorem moves_flushThreadHandleDrops : Moves R (flushThreadHandleDrops th) :=
  (moves_releaseOrFail _).map _

theorem moves_teardownThreadHandles : Moves R (teardownThreadHandles th) :=
  (moves_releaseOrFail _).map _

theorem moves_registerAdapterHandles (pm : String) (v : host.Surface) :
    Moves R (registerAdapterHandles pm v) := by
  unfold registerAdapterHandles
  dsimp only
  split
  · exact .pure _
  · refine (moves_reserve _ _).bind ?_
    rintro (e | _)
    · exact .pure _
    · apply Moves.get_bind
      intro s
      split
      · exact (moves_release _ _).map _
      · split
        · exact (moves_release _ _).map _
        · split
          · exact .bind (moves_set fun _ => rfl) fun _ => .pure _
          · exact .bind (moves_set fun _ => rfl) fun _ =>
              (moves_release _ _).map _

theorem moves_registerResult (pm : Option String) (r : host.Result) :
    Moves R (registerResult pm r) := by
  unfold registerResult
  split
  · exact moves_registerAdapterHandles _ _
  · exact .pure _

theorem moves_closeHandles (r : CloseReport) : Moves R (closeHandles hs r) := by
  induction hs generalizing r with
  | nil => exact .pure _
  | cons h rs ih =>
    refine (moves_releaseAdapterHandle h).bind ?_
    rintro (e | _)
    · exact ih _
    · exact ih _

theorem moves_closeAdapterBindings : Moves R closeAdapterBindings := by
  apply Moves.get_bind
  intro s
  split
  · exact moves_closeHandles _ _
  · exact .pure _

theorem moves_countMetrics (f : CompletionMetrics → CompletionMetrics) : Moves R (countMetrics f) :=
  moves_set fun _ => rfl

theorem moves_recordLateCompletion (key : PendingKey) : Moves R (recordLateCompletion ti key) :=
  moves_set fun _ => rfl

theorem moves_noteUnmatched (key : FutureKey) (e : ExecutionFailure) :
    Moves R (noteUnmatched key e) := by
  unfold noteUnmatched
  split
  · exact (moves_countMetrics _).bind fun _ => moves_recordLateCompletion _ _
  · exact moves_countMetrics _

theorem moves_registerThreadExitFuture (t o fi : ℕ) : Moves R (registerThreadExitFuture t o fi) :=
  moves_set fun _ => rfl

theorem moves_registerTimerFutureWait (fi tm : ℕ) : Moves R (registerTimerFutureWait ti fi tm) :=
  moves_set fun _ => rfl

theorem moves_lateAfterCancel : Moves R lateAfterCancel :=
  moves_countMetrics _

theorem moves_recordCancellation (o : CancellationOutcome) : Moves R (recordCancellation o) :=
  moves_set fun _ => rfl

theorem moves_cancelProviderRequest (pa : String) : Moves R (cancelProviderRequest ti ri pa) := by
  apply Moves.get_bind
  intro s
  split
  · exact .pure _
  · split
    · exact .bind (moves_set fun _ => rfl) fun _ =>
        (moves_recordCancellation _).bind fun _ => moves_freeRequestId _
    · exact moves_freeRequestId _

theorem moves_cancelAdapterRequest (pm sy : String) :
    Moves R (cancelAdapterRequest ti ri pm sy) := by
  apply Moves.get_bind
  intro s
  split
  · exact moves_freeRequestId _
  · split
    · exact .bind (moves_set fun _ => rfl) fun _ =>
        (moves_recordCancellation _).bind fun _ => moves_freeRequestId _
    · exact .bind (moves_set fun _ => rfl) fun _ => moves_freeRequestId _

theorem moves_encodeMessage (t : String) (mi rt : ℕ) (th : host.Thread) (m : MailboxMessage) :
    Moves R (encodeMessage t mi rt th m) := by
  unfold encodeMessage
  split
  · split
    · exact .pure _
    · exact .pure _
  · exact .stop

theorem moves_prepareSpawn (c t : host.Thread) (a : Option VmValue) :
    Moves R (prepareSpawn c t a) := by
  unfold prepareSpawn
  split
  · exact .pure _
  · split
    · refine .bind (.unwrap _) ?_
      rintro ⟨_ | a, t⟩
      · exact .pure _
      · dsimp only
        split
        · exact .pure _
        · exact .pure _
    · exact .stop

theorem moves_nextStartup (p : StartupPlan) : Moves R (nextStartup ti th p) := by
  unfold nextStartup
  split
  · exact .bind (moves_set fun _ => rfl) fun _ => .pure _
  · exact .bind (moves_set fun _ => rfl) fun _ => .pure _

theorem moves_setStartupPlan (p : Option StartupPlan) : Moves R (setStartupPlan ti p) := by
  cases p with
  | none => exact .pure _
  | some p => exact moves_set fun _ => rfl

end Galfus.Orchestrator
