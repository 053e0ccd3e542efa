import Galfus.Runtime.EffectRefinement

/-! # Executions refine the core

Whatever an execution is given, its core goes step by step from the empty one to the one that
is reached.
-/

namespace Galfus.Orchestrator

open Exec (Moves)
open Galfus.Core (Step Steps)

variable {host : Host}

theorem leads_clearWaits : Leads (clearWaits : Orchestration host Unit) := by
  rintro s _ s' ⟨⟩
  have hs : Still s { s with
      kernel := s.kernel.release .eventQueue s.pendingEvents.keys.length } :=
    ⟨VirtualKernel.shrinks_release _ _, rfl⟩
  refine trans_of Tends hs.tends (tends_of_step fun _ => ?_)
  convert Step.cleared using 1
  refine Core.ext rfl rfl rfl rfl rfl rfl ?_ rfl rfl rfl
  funext target senderId
  exact MailboxWaitQueues.queueOf_empty senderId

theorem leads_shutdown : Leads (shutdown : Orchestration host _) := by
  apply Moves.get_bind
  intro s
  split
  · exact .pure _
  · refine .bind (leads_set (fun _ => rfl) fun _ => rfl) fun _ => ?_
    refine moves_cancelAllPendingContinuations.bind fun _ => ?_
    refine leads_cancelAllFutures.bind fun _ => leads_clearWaits.bind fun _ => ?_
    refine moves_clearCoordinators.bind fun _ => ?_
    refine moves_cancelAndTeardownAllThreads.bind fun _ => ?_
    refine moves_closeAdapterBindings.bind fun _ => ?_
    exact .bind (leads_set (fun _ => rfl) fun _ => rfl) fun _ => .pure _

theorem leads_processEvent (e : RuntimeEvent host) : Leads (processEvent e) := by
  by_cases h : e = .cancelExecution
  · subst h
    exact leads_shutdown.bind fun _ => moves_fail _
  · exact moves_processEvent h

theorem leads_eventRounds (rounds : ℕ) : Leads (eventRounds rounds : Orchestration host Unit) := by
  induction rounds with
  | zero => exact .pure _
  | succ rounds ih =>
    apply (leads_of_still still_takeEvent).bind
    rintro (_ | event)
    · exact .pure _
    · refine (leads_processEvent event).bind fun _ => moves_finishAfterEvent.bind fun _ => ?_
      refine .bind (leads_set (fun _ => rfl) fun _ => rfl) fun _ => ?_
      apply Moves.get_bind
      intro s
      split
      · exact .pure _
      · exact ih

theorem leads_processEvents (es : List (ℕ × RuntimeEvent host)) : Leads (processEvents es) := by
  apply (leads_of_still (still_acceptEvents _)).bind
  intro a
  split
  · exact .get_bind fun s => leads_eventRounds _
  · exact .pure _

theorem leads_step (es : List (ℕ × RuntimeEvent host)) : Leads (step es) :=
  (leads_processEvents es).bind fun _ => moves_dispatchRunnables

theorem leads_launchRoot (t : host.Thread) (p : Option StartupPlan) : Leads (launchRoot t p) := by
  apply (leads_spawnThread _ _).bind
  rintro (e | ti)
  · exact .stop
  · refine .bind (leads_set (fun _ => rfl) fun _ => rfl) fun _ => ?_
    refine (moves_setStartupPlan _ _).bind fun _ => ?_
    refine (moves_markRunning _).bind fun _ => (moves_takeThread _).bind fun t => ?_
    refine .bind (.unwrap _) fun t => ?_
    refine (moves_enqueueRunnable _ _).bind ?_
    rintro (e | _)
    · exact .stop
    · exact .pure _

theorem leads_closeIfDone : Leads (closeIfDone : Orchestration host Unit) := by
  apply Moves.get_bind
  intro s
  split
  · exact leads_shutdown.map _
  · exact .pure _

theorem leads_handleInput (i : Input host) : Leads (handleInput i) := by
  apply Moves.get_bind
  intro s
  split
  · exact .pure _
  · cases i with
    | poll es => exact (leads_step es).bind fun _ => leads_closeIfDone
    | taskFinished => exact moves_release _ _
    | shutdown => exact leads_shutdown.map _

theorem leads_inputs (i : List (Input host)) : Leads (i.forM handleInput) :=
  .forM i leads_handleInput

/-- The core of an execution is reached from that of an orchestrator that was just made. -/
theorem execute_steps {l : Launch host} {i : List (Input host)} {s : Orchestrator host}
    (h : execute l i = some s)
    (hok : (new l.limits l.bindings l.providers).core.Ok) :
    Steps (new l.limits l.bindings l.providers).core s.core := by
  obtain ⟨⟨r, s'⟩, hr, heq⟩ := Option.bind_eq_some_iff.mp h
  cases heq
  exact ((leads_launchRoot l.thread l.plan).bind fun _ => leads_inputs i) _ _ _ hr hok

end Galfus.Orchestrator
