import Galfus.Runtime.Holding
import Galfus.Runtime.Quiet

/-! # Methods for futures and messages

The methods that create, await, complete and drop futures and those that send and receive
messages are put together from a few that change futures, receives and mailboxes. All handlers
of events but the shutdown are moves along every preorder of states that allows these few.
-/

namespace Galfus.Orchestrator

open Exec (Moves)

variable {host : Host} {α : Type}

/-- An id was given out for a future that is to be created. -/
inductive Allocated (s : Orchestrator host) : Orchestrator host → Lease → Prop
  | intro {id : ℕ} {futureIds : IdManager} (h : s.futureIds.tryAllocate = some (id, futureIds)) :
    Allocated s { s with futureIds := futureIds, futureGenerations := s.futureGenerations.bump id }
      ((s.futureGenerations.bump id).lease id)

/-- A preorder of states that the handlers of events move along, apart from the shutdown. -/
class Wide (R : Orchestrator host → Orchestrator host → Prop) : Prop extends Closed R where
  registry : ∀ (s : Orchestrator host) registry, s.futureRegistry.Within registry →
    R s { s with futureRegistry := registry }
  spawn : ∀ thread key, Moves R (spawnThread thread key)
  receive : ∀ threadId senderId, Moves R (receiveMessage threadId senderId)
  register : ∀ {threadId futureId senderId timeoutMs s s₁ r s'},
    receiveMessage threadId senderId s = some (.ok none, s₁) →
    registerMailboxFutureWait threadId threadId futureId senderId timeoutMs s₁ = some (r, s') →
    R s₁ s'
  unregister : ∀ key, Moves R (removeMailboxFutureWait key)
  send : ∀ senderId targetId data, Moves R (sendInternalThreadMessage senderId targetId data)
  complete : ∀ {cause threadId futureId result s r s'},
    (∀ target wait message, cause ≠ .delivery target wait message) →
    (∀ lease, cause.lease? = some lease → lease.id = futureId) →
    (cause.isChecked = true → s.isCurrent cause = true) →
    completeFuture cause threadId futureId result s = some (r, s') → R s s'
  allocate : ∀ {s s' lease}, Allocated s s' lease → R s s'
  create : ∀ {s s₁ lease threadId record r s'}, Allocated s s₁ lease →
    insertFuture threadId lease (fun registry key => registry.insertRecord key record) s₁ =
      some (r, s') → R s s'
  drop : ∀ {s s' : Orchestrator host} {key d registry r} (activation),
    s.futureRegistry.discard key = (.ok d, registry) → d ≠ .retained →
    cleanDiscarded key activation { s with futureRegistry := registry } = some (r, s') → R s s'
  cancelFutures : ∀ threadId, Moves R (cancelThreadFutures threadId)
  race : ∀ key, Moves R (discardRaced key)

variable {R : Orchestrator host → Orchestrator host → Prop} [Wide R]

variable (ti : ℕ) (th : host.Thread) (c : Continuation) (mi : ℕ)
  (o : String) (args : List VmValue) (rt : ℕ)

theorem moves_registryCall {f : FutureRegistry host.Surface PendingContinuation host.Result →
      α × FutureRegistry host.Surface PendingContinuation host.Result}
    (h : ∀ r, FutureRegistry.Within r (f r).2) : Moves R (registryCall f) := by
  rintro s _ _ ⟨⟩
  exact Wide.registry s _ (h s.futureRegistry)

theorem moves_discardMembers (c : AggregateCoordinator host) : Moves R (discardMembers c) := by
  unfold discardMembers
  split
  · exact .forM _ fun _ => Wide.race _
  · exact .pure _

theorem moves_finishAggregateIfReady (ci : ℕ) : Moves R (finishAggregateIfReady ci) := by
  apply Moves.get_bind
  intro s
  split
  · exact .pure _
  · split
    · exact .stop
    · exact .pure _
    · refine .bind (.modify fun s => Closed.aggregates s _ _ _) fun _ => ?_
      refine (moves_release _ _).bind fun _ => ?_
      refine .bind (.modify fun s => Closed.aggregates s _ _ _) fun _ => ?_
      exact (moves_discardMembers _).bind fun _ => moves_resumePending _ _ _ _

theorem moves_finishAggregates (ci : List ℕ) : Moves R (finishAggregates ci) := by
  induction ci with
  | nil => exact .pure _
  | cons c r ih =>
    refine (moves_finishAggregateIfReady _).bind fun _ => .get_bind fun s => ?_
    split
    · exact .pure _
    · exact ih

theorem moves_finishAfterEvent : Moves R finishAfterEvent := by
  apply Moves.get_bind
  intro s
  split
  · exact .pure _
  · exact .get_bind fun _ =>
      .bind (.modify fun s => Closed.aggregates s _ _ _) fun _ =>
        moves_finishAggregates _

theorem moves_createThread : Moves R (createThread ti th args) := by
  unfold createThread
  split
  · refine (Wide.spawn _ _).bind ?_
    rintro (e | id)
    · exact (moves_failThread _ _ _).map _
    · exact .pure _
  · exact .pure _

theorem moves_tryCompleteInternalAwait (o : String) (args : List VmValue) :
    Moves R (tryCompleteInternalAwait ti th mi rt o args) := by
  unfold tryCompleteInternalAwait
  split
  · apply Moves.get_bind
    intro s
    dsimp only
    split
    · exact .pure _
    · exact .pure _
  · refine (Wide.receive _ _).bind ?_
    rintro (_ | m)
    · exact .pure _
    · exact (moves_encodeMessage _ _ _ _ _).map _
  · split
    · exact .pure _
    · exact .pure _
  · exact .pure _

theorem moves_receiveEncoded (si : Option ℕ) (t : String) (mi rt : ℕ) (th : host.Thread) :
    Moves R (do
      match ← receiveMessage ti si with
      | none => pure (.ok .null, th)
      | some m => encodeMessage t mi rt th m :
        Orchestration host (Except ExecutionFailure VmValue × host.Thread)) := by
  refine (Wide.receive _ _).bind ?_
  rintro (_ | m)
  · exact .pure _
  · exact moves_encodeMessage _ _ _ _ _

theorem moves_internalThreadResult : Moves R (internalThreadResult ti th mi o args rt) := by
  apply Moves.get_bind
  intro s
  split
  · exact .pure _
  · exact .pure _
  · exact .pure _
  · exact .pure _
  · exact .pure _
  · exact moves_receiveEncoded _ _ _ _ _ _
  · exact moves_receiveEncoded _ _ _ _ _ _
  · exact (Wide.send _ _ _).map _
  · exact .pure _

theorem moves_handleInternalThreadCall : Moves R (handleInternalThreadCall ti th c mi o args
      rt) := by
  refine (moves_internalThreadResult _ _ _ _ _ _).bind ?_
  rintro ⟨e | v, th⟩
  · exact moves_failThread _ _ _
  · exact moves_resumeOrFailFront _ _ _ _

section Activations

variable (fi : ℕ)
include fi

theorem moves_receiveOrWait (si tm : Option ℕ) : Moves R (do
      match ← receiveMessage ti si with
      | some m => pure (.immediate (messageResult (some m)))
      | none => do
        registerMailboxFutureWait ti ti fi si tm
        pure .suspended : Orchestration host (InternalStart host)) := by
  intro s r s' hr
  obtain ⟨m, s₁, hrc, hr⟩ := Exec.bind_run hr
  have hm : R s s₁ := Wide.receive ti si _ _ _ hrc
  cases m with
  | some m =>
    cases hr
    exact hm
  | none =>
    obtain ⟨_, s₂, hrg, hr⟩ := Exec.bind_run hr
    cases hr
    exact trans_of R hm (Wide.register hrc hrg)

theorem moves_internalStart : Moves R (internalStart ti th fi o args) := by
  apply Moves.get_bind
  intro s
  dsimp only
  split
  · exact .pure _
  · exact .pure _
  · exact .pure _
  · exact .pure _
  · exact (Wide.send _ _ _).map _
  · exact .pure _
  · exact (Wide.receive _ _).map _
  · split
    · exact .pure _
    · split
      · exact (moves_registerThreadExitFuture _ _ _).map _
      · exact .pure _
  · exact moves_receiveOrWait _ _ _ _
  · exact moves_createThread _ _ _
  · exact (moves_registerTimerFutureWait _ _ _).map _
  · exact (moves_startThread _ _ _).map _
  · split
    · exact .pure _
    · exact (moves_failThread _ _ _).map _

theorem moves_completeImmediate (r : host.Result) : Moves R (completeFuture .immediate ti fi r) :=
  fun _ _ _ => Wide.complete (by simp) (by simp [Cause.lease?]) (by simp [Cause.isChecked])

theorem moves_startInternalActivation (im : Bool) :
    Moves R (startInternalActivation ti th fi o args im) := by
  refine (moves_internalStart _ _ _ _ _).bind ?_
  rintro (r | _ | _)
  · dsimp only
    split
    · exact (moves_completeImmediate _ _ _).map _
    · refine (moves_blockOrFail _ _).bind ?_
      intro b
      split
      · exact (moves_completeImmediate _ _ _).map _
      · exact .pure _
  · exact .pure _
  · exact .pure _

theorem moves_dispatchRequest (th : host.Thread) : Moves R (dispatchRequest ti fi th) := by
  refine (moves_allocateRequestLease _ _ _).bind ?_
  rintro (_ | lease)
  · exact .pure _
  · refine (moves_registryCall fun _ => FutureRegistry.within_assignRequestId _).bind ?_
    rintro (e | _)
    · exact (moves_failThread _ _ _).map _
    · apply Moves.get_bind
      intro s
      refine .bind (.unwrap _) fun _ => (moves_reserve _ _).bind ?_
      rintro (e | _)
      · exact (moves_failThread _ _ _).map _
      · exact .pure _

theorem moves_startActivation (a : Activation host.Surface) (im : Bool) :
    Moves R (startActivation ti th fi a im) := by
  cases a with
  | galfusFunction => exact .stop
  | provider =>
    apply Moves.get_bind
    intro s
    split
    · exact moves_dispatchRequest _ _ _
    · exact (moves_failThread _ _ _).map _
  | adapter =>
    apply Moves.get_bind
    intro s
    split
    · exact (moves_failThread _ _ _).map _
    · split
      · exact moves_dispatchRequest _ _ _
      · exact (moves_failThread _ _ _).map _
  | internal => exact moves_startInternalActivation _ _ _ _ _ _

end Activations

theorem moves_awaitFuture (futureId : ℕ) (w : PendingContinuation) (im : Bool) :
    Moves R (awaitFuture ti th futureId w im) := by
  refine (moves_noteAwait _ _ _).bind fun _ => ?_
  refine (moves_registryCall fun _ => FutureRegistry.within_addWaiter _).bind ?_
  rintro (e | _ | ⟨w, r⟩ | _)
  · exact moves_failThread _ _ _
  · refine (moves_registryCall fun _ => FutureRegistry.within_takeActivation _).bind ?_
    rintro (e | _ | a)
    · exact moves_failThread _ _ _
    · exact (moves_blockAwaiting _ _ _).map _
    · refine (moves_startActivation _ _ _ _ _).bind ?_
      rintro (_ | th)
      · exact .pure _
      · exact (moves_blockAwaiting _ _ _).map _
  · refine (moves_blockAwaiting _ _ _).bind ?_
    intro b
    split
    · exact moves_resumePending _ _ _ _
    · exact .pure _
  · exact moves_failThread _ _ _

theorem moves_handleFutureWait (futureId mi rt : ℕ) :
    Moves R (handleFutureWait ti th c futureId mi rt) := by
  apply Moves.get_bind
  intro s
  refine .bind (moves_set fun _ => rfl) fun _ => ?_
  split
  · exact moves_awaitFuture _ _ _ _ _
  · refine (moves_registryCall fun _ => FutureRegistry.within_takeActivation _).bind ?_
    rintro (e | _ | a)
    · exact moves_failThread _ _ _
    · exact moves_awaitFuture _ _ _ _ _
    · cases a with
      | galfusFunction => exact moves_runInline _ _ _ _ _ _
      | provider | adapter | internal => exact moves_awaitFuture _ _ _ _ _

theorem moves_dropFutures (fi : List ℕ) (th : host.Thread) : Moves R (dropFutures ti fi th) := by
  induction fi generalizing th with
  | nil => exact .pure _
  | cons futureId rs ih =>
    refine (Wide.unregister _).bind fun _ => ?_
    intro s r s' hrn
    obtain ⟨_, s₁, hds, hrn⟩ := Exec.bind_run hrn
    have hwt : R s s₁ := moves_registryCall
      (fun _ => FutureRegistry.within_discardInner _ _ _) _ _ _ hds
    rcases han : s.futureRegistry.discard (ti, futureId) with ⟨a, rg⟩
    unfold registryCall at hds
    dsimp only at hds
    rw [han] at hds
    cases hds
    rcases a with e | (activation | activation | _ | _)
    · exact trans_of R hwt (((moves_failThread _ _ _).map _) _ _ _ hrn)
    · obtain ⟨_, s₂, hfr, hrn⟩ := Exec.bind_run hrn
      exact trans_of R (Wide.drop none han (by simp) hfr) (ih _ _ _ _ hrn)
    · obtain ⟨_, s₂, hcn, hrn⟩ := Exec.bind_run hrn
      obtain ⟨_, s₃, hfr, hrn⟩ := Exec.bind_run hrn
      have hcl : cleanDiscarded (ti, futureId) (some activation)
          { s with futureRegistry := rg } = some (.ok (), s₃) := by
        show (cancelFutureActivation _ _ >>= fun _ => freeFutureId _) _ = _
        rw [Exec.bind_apply, hcn]
        exact hfr
      exact trans_of R (Wide.drop _ han (by simp) hcl) (ih _ _ _ _ hrn)
    · exact trans_of R hwt (ih _ _ _ _ hrn)
    · obtain ⟨_, s₂, hfr, hrn⟩ := Exec.bind_run hrn
      exact trans_of R (Wide.drop none han (by simp) hfr) (ih _ _ _ _ hrn)

section Creation

/-- After an id was given out, the moves lead on from the state before. -/
def Grows (R : Orchestrator host → Orchestrator host → Prop) (lease : Lease)
    (x : Orchestration host α) : Prop :=
  ∀ s s₁ r s', Allocated s s₁ lease → x s₁ = some (r, s') → R s s'

variable {l : Lease}

theorem Grows.of_moves {x : Orchestration host α} (h : Moves R x) : Grows R l x :=
  fun _ s₁ r s' ha hr => trans_of R (Wide.allocate ha) (h s₁ r s' hr)

omit [Wide R] in
theorem Grows.get_bind {g : Orchestrator host → Orchestration host α}
    (h : ∀ s, Grows R l (g s)) : Grows R l (Exec.get >>= g) :=
  fun s s₁ r s' => h s₁ s s₁ r s'

omit [Wide R] in
theorem Grows.unwrap_bind {β : Type} {y : Option β} {g : β → Orchestration host α}
    (h : ∀ b, Grows R l (g b)) : Grows R l (Exec.unwrap y >>= g) := by
  intro s s₁ r s' ha hr
  obtain ⟨b, s₂, hu, hr⟩ := Exec.bind_run hr
  obtain ⟨b', -, heq⟩ := Option.map_eq_some_iff.mp hu
  cases heq
  exact h b s s₁ r s' ha hr

theorem Grows.insertFuture_bind {ti : ℕ}
    {rc : FutureRecord host.Surface PendingContinuation host.Result}
    {g : Except ExecutionFailure Unit → Orchestration host α} (hg : ∀ e, Moves R (g e)) :
    Grows R l (insertFuture ti l (fun rg key => rg.insertRecord key rc) >>= g) := by
  intro s s₁ r s' ha hr
  obtain ⟨a, s₂, hi, hr⟩ := Exec.bind_run hr
  exact trans_of R (Wide.create ha hi) (hg a s₂ r s' hr)

/-- A future is created with the id that was given out, or the id is given out in vain. -/
theorem moves_allocateFutureLease_bind {ti : ℕ} {th : host.Thread}
    {g : Option Lease → Orchestration host α} (hnn : Moves R (g none))
    (hsm : ∀ l, Grows R l (g (some l))) :
    Moves R (allocateFutureLease ti th >>= g) := by
  intro s r s' hrn
  obtain ⟨an, s₁, hal, hrn⟩ := Exec.bind_run hrn
  obtain ⟨rs, s₂, hrs, hal⟩ := Exec.bind_run hal
  have hmv : R _ _ := moves_reserve _ _ _ _ _ hrs
  rcases rs with e | _
  · obtain ⟨_, s₃, hfl, hal⟩ := Exec.bind_run hal
    cases hal
    exact trans_of R hmv (trans_of R (moves_failThread _ _ _ _ _ _ hfl) (hnn _ _ _ hrn))
  · dsimp only at hal
    rw [Exec.get_bind] at hal
    cases hid : s₂.futureIds.tryAllocate with
    | none =>
      rw [hid] at hal
      obtain ⟨_, s₃, hre, hal⟩ := Exec.bind_run hal
      obtain ⟨_, s₄, hfl, hal⟩ := Exec.bind_run hal
      cases hal
      have hrl : R _ _ := moves_release _ _ _ _ _ hre
      exact trans_of R hmv (trans_of R hrl
        (trans_of R (moves_failThread _ _ _ _ _ _ hfl) (hnn _ _ _ hrn)))
    | some a =>
      rw [hid] at hal
      cases hal
      exact trans_of R hmv (hsm _ _ _ _ _ (.intro hid) hrn)

theorem grows_createFutureFor (t : String) (ti : ℕ) (th : host.Thread)
    (c : Continuation) (mi tm fi : ℕ) (args : List VmValue)
    (a : List ℕ) (rt : ℕ) :
    Grows R l (createFutureFor t ti th c l mi tm fi args a rt) := by
  apply Grows.get_bind
  intro s
  split
  · apply Grows.unwrap_bind
    rintro (e | ac)
    · exact .of_moves (moves_failThread _ _ _)
    · apply Grows.insertFuture_bind
      rintro (e | _)
      · exact moves_failThread _ _ _
      · exact moves_resumeOrFailFront _ _ _ _
  · exact .of_moves .stop

theorem moves_createAwaited : Moves R (createAwaited ti th c mi o args rt) := by
  apply moves_allocateFutureLease_bind
  · exact .pure _
  · intro l
    apply Grows.insertFuture_bind
    rintro (e | _)
    · exact moves_failThread _ _ _
    · exact moves_handleFutureWait _ _ _ _ _ _

end Creation

theorem moves_registerMembers (ci mi : ℕ) (th : host.Thread) (i : ℕ) (fi : List ℕ) :
    Moves R (registerMembers ti ci mi th i fi) := by
  induction fi generalizing i with
  | nil => exact .pure _
  | cons futureId r ih =>
    apply Moves.get_bind
    intro s
    split
    · exact (moves_fail _).bind fun _ => (moves_abandonAggregate _ _ _).map _
    · refine .bind (moves_set fun _ => rfl) fun _ => ?_
      refine (moves_handleFutureWait _ _ _ _ _ _).bind fun _ => ?_
      refine .bind (moves_set fun _ => rfl) fun _ => .get_bind fun s => ?_
      split
      · exact (moves_abandonAggregate _ _ _).map _
      · exact ih _

theorem moves_beginAggregateWait (fi : List ℕ) (m : AggregateMode) :
    Moves R (beginAggregateWait ti th c mi rt fi m) := by
  refine (moves_reserve _ _).bind ?_
  rintro (e | _)
  · exact moves_failThread _ _ _
  · refine (moves_allocateCoordinatorId _ _).bind ?_
    rintro (_ | ci)
    · exact moves_release _ _
    · refine (moves_putCoordinator _ _).bind fun _ => ?_
      refine (moves_note rfl).bind fun _ => (moves_note rfl).bind fun _ => ?_
      refine (moves_registerMembers _ _ _ _ _ _).bind ?_
      intro r
      split
      · refine (moves_armCoordinator _).bind fun _ => (moves_blockOrFail _ _).bind ?_
        intro b
        split
        · exact moves_finishAggregateIfReady _
        · exact .pure _
      · exact .pure _

theorem moves_handleEffect (ef : VmEffect) (c : Continuation) :
    Moves R (handleEffect ti th ef c) := by
  cases ef with
  | futuresDropped =>
    refine (moves_dropFutures _ _ _).bind ?_
    rintro (_ | th)
    · exact .pure _
    · exact moves_resumeOrFailFront _ _ _ _
  | adapterHandleDropped => exact moves_handleAdapterHandleDropped _ _ _ _
  | futureWait => exact moves_handleFutureWait _ _ _ _ _ _
  | createFuture =>
    apply moves_allocateFutureLease_bind
    · exact .pure _
    · exact fun lease => grows_createFutureFor _ _ _ _ _ _ _ _ _ _
  | createAwaitFuture =>
    refine (moves_tryCompleteInternalAwait _ _ _ _ _ _).bind ?_
    rintro ⟨_ | e | v, th⟩
    · exact moves_createAwaited _ _ _ _ _ _ _
    · exact moves_failThread _ _ _
    · exact moves_resumeOrFailFront _ _ _ _
  | internalThreadCall => exact moves_handleInternalThreadCall _ _ _ _ _ _ _
  | createIndirectFuture =>
    apply moves_allocateFutureLease_bind
    · exact .pure _
    · intro lease
      dsimp only
      split
      · exact grows_createFutureFor _ _ _ _ _ _ _ _ _ _
      · exact .of_moves (moves_failThread _ _ _)
  | futureWaitAll | futureWaitRace => exact moves_beginAggregateWait _ _ _ _ _ _ _

theorem moves_expireDeadlines (ds : List MailboxDeadline) : Moves R (expireDeadlines ds) := by
  induction ds with
  | nil => exact .bind (moves_set fun _ => rfl) fun _ => .pure _
  | cons d r ih =>
    apply Moves.get_bind
    intro s
    split
    · exact .bind (moves_set fun _ => rfl) fun _ => .pure _
    · split
      · exact (Wide.unregister _).bind fun _ => ih.map _
      · exact ih

theorem moves_handleTick (dm : ℕ) : Moves R (handleTick dm) := by
  refine .bind (moves_kernelCall fun _ => VirtualKernel.shrinks_tick _) fun wu => ?_
  refine .bind (.forM _ fun wk => moves_noteWokeUp wk) fun _ => ?_
  refine .bind ?_ fun _ => ?_
  · refine .bind (moves_set fun _ => rfl) fun _ => .get_bind fun s => ?_
    refine (moves_expireDeadlines _).bind fun e => .forM _ fun w => ?_
    exact fun _ _ _ => Wide.complete (by simp) (by simp [Cause.lease?]) (by simp [Cause.isChecked])
  · apply Moves.get_bind
    intro s
    refine .bind (moves_set fun _ => rfl) fun _ => .forM _ fun w => ?_
    exact fun _ _ _ => Wide.complete (by simp) (by simp [Cause.lease?]) (by simp [Cause.isChecked])

/-- A completion that is reported counts if the lease is the current one of its id. -/
theorem moves_completeChecked {c : Cause} {lease : Lease} (rs : host.Result)
    (o : Orchestration host Unit) (ho : Moves R o)
    (hl : c.lease? = some lease)
    (hcs : ∀ t w m, c ≠ .delivery t w m) :
    Moves R (do
      let s ← Exec.get
      if lease.generation = s.futureGenerations.of lease.id then
        completeFuture c ti lease.id rs
      else o) := by
  intro s r s' hr
  rw [Exec.get_bind] at hr
  split at hr
  · next hc =>
    refine Wide.complete hcs (fun l' h => ?_) (fun _ => ?_) hr
    · rw [hl] at h
      cases h
      rfl
    · unfold isCurrent
      rw [hl]
      exact beq_iff_eq.mpr hc.symm
  · exact ho s r s' hr

theorem moves_futureCompleted (lease : Lease) (r : host.Result) :
    Moves R (futureCompleted ti lease r) :=
  moves_completeChecked _ _ _ moves_lateAfterCancel rfl (by simp)

theorem moves_threadSpawned : Moves R (threadSpawned th) := by
  refine (moves_flushThreadHandleDrops _).bind fun th => ?_
  refine (Wide.spawn _ _).bind ?_
  rintro (e | id)
  · exact (moves_fail _).bind fun _ => moves_cancelAndTeardownAllThreads
  · refine (moves_takeThread _).bind fun th => ?_
    exact .bind (.unwrap _) fun th => moves_enqueueOrTeardown _ _

theorem moves_threadExited (r : Except ExecutionFailure (BitVec 32)) :
    Moves R (threadExited ti th r) := by
  refine (Wide.cancelFutures _).bind fun _ => (moves_teardownThreadHandles _).bind fun _ => ?_
  refine (moves_markExited _ _ _).bind fun _ => .get_bind fun s => ?_
  refine .bind (moves_set fun _ => rfl) fun _ => .forM _ fun _ => ?_
  exact moves_futureCompleted _ _ _

theorem moves_futureWorkerCompleted (wt ot : ℕ) (lease : Lease)
    (th : host.Thread) (r : Except ExecutionFailure (BitVec 32)) :
    Moves R (futureWorkerCompleted wt ot lease th r) := by
  refine .bind (.modify fun s => Closed.worker s _) fun _ => ?_
  refine (moves_teardownThreadHandles _).bind fun _ => (moves_markExited _ _ _).bind fun _ => ?_
  exact moves_completeChecked _ _ _ (.pure _) rfl (by simp)

theorem moves_cancelThread : Moves R (cancelThread ti) := by
  refine (moves_cancelPendingContinuations _).bind fun _ => ?_
  refine (Wide.cancelFutures _).bind fun _ => ?_
  exact .bind (moves_set fun _ => rfl) fun _ => moves_cancelAndTeardownThread _

theorem moves_processEvent {e : RuntimeEvent host} (h : e ≠ .cancelExecution) :
    Moves R (processEvent e) := by
  cases e with
  | threadSpawned => exact moves_threadSpawned _
  | exited => exact moves_threadExited _ _ _
  | initialized =>
    exact (moves_flushThreadHandleDrops _).bind fun _ => moves_advanceStartup _ _ _
  | failed => exact (moves_fail _).bind fun _ => moves_cancelThread _
  | effectCompleted => exact moves_effectCompleted _ _ _
  | futureCompleted => exact moves_futureCompleted _ _ _
  | futureWorkerCompleted => exact moves_futureWorkerCompleted _ _ _ _ _
  | tick => exact moves_handleTick _
  | cancelExecution => exact absurd rfl h
  | syscall =>
    apply Moves.get_bind
    intro s
    split
    · exact (moves_cancelAndTeardownThread _).bind fun _ => moves_dropThread _
    · exact (moves_flushThreadHandleDrops _).bind fun _ => moves_handleEffect _ _ _ _
  | yielded =>
    exact (moves_flushThreadHandleDrops _).bind fun _ => moves_enqueueOrTeardown _ _
  | cancelThread => exact moves_cancelThread _

end Galfus.Orchestrator
