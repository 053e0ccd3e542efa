import Galfus.Runtime.Orchestrator

/-! # Waits and completions

Futures wait for the exit of a thread, for a message or for a timer. A completion goes to the
waiters of the future: to a thread that is blocked, or to the coordinator of an aggregate.
-/

namespace Galfus.Orchestrator

variable {host : Host}

def registerThreadExitFuture (targetThreadId ownerThreadId futureId : ℕ) :
    Orchestration host Unit :=
  Exec.modify fun s =>
    let waits := (s.threadExitWaits.lookup targetThreadId).getD []
    let waits := waits ++ [(ownerThreadId, s.futureGenerations.lease futureId)]
    { s with threadExitWaits := s.threadExitWaits.insert targetThreadId waits }

variable (key : FutureKey) (threadId : ℕ)

def registerMailboxFutureWait (targetThreadId futureId : ℕ) (senderId : Option ℕ)
    (timeoutMs : Option ℕ) : Orchestration host Unit :=
  Exec.modify fun s =>
    let lease := s.futureGenerations.lease futureId
    let wait : MailboxFutureWait := ⟨threadId, lease, senderId, s.mailboxWaitSequence⟩
    let queues := (s.mailboxFutureWaits.lookup targetThreadId).getD .empty
    { s with
      mailboxFutureWaitTargets :=
        s.mailboxFutureWaitTargets.insert (threadId, futureId) (targetThreadId, lease)
      mailboxWaitSequence := wrappingSucc s.mailboxWaitSequence
      mailboxFutureWaits := s.mailboxFutureWaits.insert targetThreadId (queues.push wait)
      mailboxDeadlines :=
        match timeoutMs with
        | some timeout =>
          insertSorted ⟨saturatingAdd s.virtualTimeMs timeout, targetThreadId, wait⟩
            s.mailboxDeadlines
        | none => s.mailboxDeadlines
      history := s.history ++ [.registered targetThreadId wait] }

def registerTimerFutureWait (futureId timeoutMs : ℕ) : Orchestration host Unit :=
  Exec.modify fun s =>
    let deadlineMs := saturatingAdd s.virtualTimeMs timeoutMs
    let wait : TimerFutureWait := ⟨deadlineMs, s.futureGenerations.lease futureId, threadId⟩
    { s with timerFutureWaits := insertSorted wait s.timerFutureWaits }

def removeMailboxFutureWait : Orchestration host Unit :=
  Exec.modify fun s =>
    { s with mailboxFutureWaitTargets := s.mailboxFutureWaitTargets.erase key }

def mailboxFutureWaitIsRegistered (s : Orchestrator host) (targetThreadId : ℕ)
    (wait : MailboxFutureWait) : Bool :=
  match s.mailboxFutureWaitTargets.lookup wait.key with
  | some (target, lease) => target == targetThreadId && lease == wait.futureLease
  | none => false

def waitQueues (s : Orchestrator host) (targetThreadId : ℕ) : MailboxWaitQueues :=
  (s.mailboxFutureWaits.lookup targetThreadId).getD .empty

def nextMailboxWait (s : Orchestrator host) (targetThreadId senderId : ℕ) :
    Option MailboxFutureWait :=
  (s.waitQueues targetThreadId).next senderId

def popMailboxWait (targetThreadId : ℕ) (wait : MailboxFutureWait) : Orchestration host Unit := do
  let s ← Exec.get
  let queues ← Exec.unwrap (s.mailboxFutureWaits.lookup targetThreadId)
  let queues ← Exec.unwrap (queues.pop wait.senderId)
  Exec.modify fun s =>
    { s with mailboxFutureWaits :=
        if queues.isEmpty then s.mailboxFutureWaits.erase targetThreadId
        else s.mailboxFutureWaits.insert targetThreadId queues }

def recordLateCompletion (key : PendingKey) : Orchestration host Unit :=
  Exec.modify fun s =>
    let kept := if s.lateCompletions.length = 64 then s.lateCompletions.tail else s.lateCompletions
    { s with lateCompletions := kept ++ [(threadId, key)] }

def countMetrics (f : CompletionMetrics → CompletionMetrics) : Orchestration host Unit :=
  Exec.modify fun s => { s with completionMetrics := f s.completionMetrics }

def putCoordinator (coordinatorId : ℕ) (coordinator : AggregateCoordinator host) :
    Orchestration host Unit :=
  Exec.modify fun s =>
    { s with aggregateCoordinators := s.aggregateCoordinators.insert coordinatorId coordinator }

/-- Put a coordinator with a new result back; if it is armed it is finished after the event. -/
def noteMember (coordinatorId : ℕ) (coordinator : AggregateCoordinator host) :
    Orchestration host Unit := do
  putCoordinator coordinatorId coordinator
  Exec.modify fun s =>
    { s with pendingAggregateFinishes :=
        if coordinator.armed then insertSorted coordinatorId s.pendingAggregateFinishes
        else s.pendingAggregateFinishes }

def completeAggregateMember (coordinatorId index : ℕ) (result : host.Result) :
    Orchestration host Unit := do
  let s ← Exec.get
  match s.aggregateCoordinators.lookup coordinatorId with
  | none => pure ()
  | some coordinator =>
    if coordinator.futureIds.length ≤ index then pure ()
    else
      match coordinator.results with
      | some results =>
        match results[index]? with
        | none => Exec.stop
        | some (some _) => pure ()
        | some none => do
          note (.member coordinatorId index s.activeEventSequence result)
          noteMember coordinatorId { coordinator with
            results := some (results.set index (some result))
            remainingResults := coordinator.remainingResults - 1 }
      | none =>
        match s.activeEventSequence with
        | none => Exec.stop
        | some sequence => do
          let wins :=
            match coordinator.winner with
            | none => true
            | some (winnerSequence, winnerIndex, _) =>
              sequence < winnerSequence || (sequence == winnerSequence && index < winnerIndex)
          note (.member coordinatorId index (some sequence) result)
          noteMember coordinatorId
            (if wins then { coordinator with winner := some (sequence, index, result) }
              else coordinator)

/-- Add what the key of a pending continuation says to a failure. -/
def withPendingId (key : PendingKey) (e : ExecutionFailure) : ExecutionFailure :=
  match key with
  | .request requestId => e.withRequestId requestId
  | .future futureId => e.withFutureId futureId
  | .coordinator _ => e

/-- The failure of a thread whose asynchronous call failed. -/
def asynchronousFailure (thread : host.Thread) (pending : PendingContinuation) (key : PendingKey)
    (e : ExecutionFailure) : ExecutionFailure :=
  let e := (((withPendingId key e).withThreadId threadId).withModuleId
    pending.moduleId).withExecutionStack pending.stack
  match host.initializingModule thread with
  | some initializingModuleId =>
    (((ExecutionFailure.new .initializationFailure
      "module initializer asynchronous request failed").withThreadId threadId).withModuleId
        initializingModuleId).withCause e
  | none => e

def resumeThread (thread : host.Thread) (pending : PendingContinuation) (result : host.Result)
    (key : PendingKey) : Orchestration host Unit := do
  note (.resumed threadId key result)
  match result with
  | .ok value =>
    if host.moduleLoaded pending.moduleId then
      match host.encode thread value pending.returnType pending.moduleId with
      | (.ok value, thread) => resumeOrFailFront threadId thread pending.continuation value
      | (.error e, thread) => do
        failAndTeardown threadId ((((withPendingId key (.new .boundaryCodecFailure
            ("invalid asynchronous result: " ++ e))).withThreadId threadId).withModuleId
              pending.moduleId).withStack pending.stack)
        kernelDo (·.dropThread thread)
    else Exec.stop
  | .error e => do
    failAndTeardown threadId (asynchronousFailure threadId thread pending key e)
    kernelDo (·.dropThread thread)

def resumePending (pending : PendingContinuation) (result : host.Result) (key : PendingKey) :
    Orchestration host Unit :=
  match pending.operation with
  | .aggregateMember coordinatorId index => completeAggregateMember coordinatorId index result
  | .future => do
    match ← kernelCall (·.unblock threadId) with
    | .error e => failAndTeardown threadId (runnableLimit threadId e)
    | .ok _ =>
      match ← kernelCall (·.takeThread threadId) with
      | none => pure ()
      | some thread => resumeThread threadId thread pending result key

def completePending (key : PendingKey) (result : host.Result) : Orchestration host Unit := do
  let s ← Exec.get
  match s.pendingContinuations.lookup key with
  | some pending =>
    if pending.threadId = threadId then do
      Exec.modify fun s => { s with pendingContinuations := s.pendingContinuations.erase key }
      resumePending threadId pending result key
      countMetrics fun m => { m with accepted := m.accepted + 1 }
      match key with
      | .request requestId => freeRequestId requestId
      | _ => pure ()
    else do
      countMetrics fun m => { m with unknownRequest := m.unknownRequest + 1 }
      recordLateCompletion threadId key
  | none => do
    countMetrics fun m => { m with unknownRequest := m.unknownRequest + 1 }
    recordLateCompletion threadId key

/-- The result of a host call: an adapter must not return the handles of another one. -/
def adaptResult (proxyModule : Option String) (bindingId : Option ℕ) (result : host.Result) :
    host.Result :=
  match result with
  | .ok (.surface contract value _) =>
    if proxyModule.any fun proxyModule => !host.validateAdapterHandles value proxyModule then
      .error (.new .boundaryCodecFailure
        "adapter returned a handle for a different binding or opaque type namespace")
    else .ok (.surface contract value bindingId)
  | result => result

/-- Whether the result fits the payload of a future that is not awaited directly. Without the module
of the payload there is no answer. -/
def checkPayload (registry : FutureRegistry host.Surface PendingContinuation host.Result)
    (key : FutureKey) (result : host.Result) : Option (Except ExecutionFailure Unit) :=
  if registry.isDirectAwait key then some (.ok ())
  else
    match registry.payloadSchema key, result with
    | some (payloadModuleId, payloadType), .ok value =>
      if host.moduleLoaded payloadModuleId then
        match (host.encode host.newThread value payloadType payloadModuleId).1 with
        | .ok _ => some (.ok ())
        | .error e =>
          some (.error ((((ExecutionFailure.new .boundaryCodecFailure
            ("invalid future worker result: " ++ e.quote)).withThreadId key.1).withFutureId
              key.2).withModuleId payloadModuleId))
      else none
    | _, _ => some (.ok ())

/-- Whether the lease of a notification is the current one of its id. -/
def isCurrent (s : Orchestrator host) (cause : Cause) : Bool :=
  match cause.lease? with
  | some lease => s.futureGenerations.of lease.id == lease.generation
  | none => true

def completeRecord (cause : Cause) (key : FutureKey) (result : host.Result) :
    Orchestration host (Except ExecutionFailure (List PendingContinuation)) := fun s =>
  let (answer, registry) := s.futureRegistry.complete key result
  let observation :=
    match answer with
    | .ok _ => .completed key cause (s.isCurrent cause) result
    | .error _ => .missed key cause
  some (.ok answer, { s with futureRegistry := registry, history := s.history ++ [observation] })

def registerResult (proxyModule : Option String) (result : host.Result) :
    Orchestration host (Except ExecutionFailure Unit) :=
  match proxyModule, result with
  | some proxyModule, .ok (.surface _ value _) => registerAdapterHandles proxyModule value
  | _, _ => pure (.ok ())

/-- A future of a direct await is discarded after its completion. -/
def discardDirect (isDirectAwait : Bool) (key : FutureKey) : Orchestration host Unit :=
  if isDirectAwait then do
    let _ ← registryCall (·.discard key)
    freeFutureId key.2
  else pure ()

def freeRequest (requestId : Option ℕ) : Orchestration host Unit :=
  match requestId with
  | some requestId => freeRequestId requestId
  | none => pure ()

def deliverResult (proxyModule : Option String) (requestId : Option ℕ) (isDirectAwait : Bool)
    (result : host.Result) (waiters : List PendingContinuation) : Orchestration host Unit := do
  match ← registerResult proxyModule result with
  | .error e => do
    fail ((e.withThreadId key.1).withFutureId key.2)
    kernelDo (·.cancel key.1)
  | .ok () => do
    waiters.forM fun waiter => resumePending waiter.threadId waiter result (.future key.2)
    discardDirect isDirectAwait key
    freeRequest requestId
    countMetrics fun m => { m with accepted := m.accepted + 1 }

/-- A completion found no future that waits for it. -/
def noteUnmatched (e : ExecutionFailure) : Orchestration host Unit :=
  if e.kind = .duplicateCompletion then do
    countMetrics fun m => { m with duplicate := m.duplicate + 1 }
    recordLateCompletion key.1 (.future key.2)
  else countMetrics fun m => { m with unknownRequest := m.unknownRequest + 1 }

def completeFuture (cause : Cause) (threadId futureId : ℕ) (result : host.Result) :
    Orchestration host Unit := do
  let s ← Exec.get
  let key := (threadId, futureId)
  let proxyModule := s.futureRegistry.adapterProxyModule key
  let bindingId := do host.bindingId (← s.adapterBindings) (← proxyModule)
  let result := adaptResult proxyModule bindingId result
  match checkPayload s.futureRegistry key result with
  | none => Exec.stop
  | some (.error e) => do
    observe (.missed key cause)
    failAndTeardown threadId e
  | some (.ok ()) => do
    match ← completeRecord cause key result with
    | .error e => noteUnmatched key e
    | .ok waiters =>
      deliverResult key proxyModule (s.futureRegistry.requestId key)
        (s.futureRegistry.isDirectAwait key) result waiters

def isPassed : Option (Except ExecutionFailure Unit) → Bool
  | some (.ok ()) => true
  | _ => false

/-- Whether the future of a receive waits for the message, with the lease of the receive. -/
def isLive (s : Orchestrator host) (wait : MailboxFutureWait) (message : MailboxMessage) : Bool :=
  s.futureGenerations.of wait.futureLease.id == wait.futureLease.generation &&
    s.futureRegistry.isPending wait.key &&
    isPassed (checkPayload s.futureRegistry wait.key (.ok (.bytes message.data)))

/-- Whether no receive that is registered and waits for this message came before this one. -/
def isFirst (s : Orchestrator host) (targetThreadId : ℕ) (wait : MailboxFutureWait)
    (message : MailboxMessage) : Bool :=
  let queues := s.waitQueues targetThreadId
  (queues.anySender ++ queues.ofSender message.senderId).all fun other =>
    !s.mailboxFutureWaitIsRegistered targetThreadId other || wait.sequence ≤ other.sequence

/-- Serve waits with messages. Each round takes a wait off a queue, so as many rounds as there
are waits are enough. -/
def serveRounds (targetThreadId senderId : ℕ) : ℕ → Orchestration host Unit
  | 0 => pure ()
  | rounds + 1 => do
    let s ← Exec.get
    match s.nextMailboxWait targetThreadId senderId with
    | none => pure ()
    | some wait =>
      if s.mailboxFutureWaitIsRegistered targetThreadId wait then do
        match ← kernelCall (·.takeMessage targetThreadId wait.senderId) with
        | none => pure ()
        | some message => do
          popMailboxWait targetThreadId wait
          removeMailboxFutureWait wait.key
          observe (.served targetThreadId wait message (s.isLive wait message)
            (s.isFirst targetThreadId wait message))
          completeFuture (.delivery targetThreadId wait message) wait.waitingThreadId
            wait.futureLease.id (.ok (.bytes message.data))
          serveRounds targetThreadId senderId rounds
      else do
        popMailboxWait targetThreadId wait
        serveRounds targetThreadId senderId rounds

def completeMailboxFutureWaits (targetThreadId senderId : ℕ) : Orchestration host Unit := do
  let s ← Exec.get
  let queues := s.waitQueues targetThreadId
  serveRounds targetThreadId senderId (queues.anySender.length + (queues.ofSender senderId).length)

/-- Take the deadlines that are due; the waits that are still registered have timed out. -/
def expireDeadlines : List MailboxDeadline → Orchestration host (List MailboxFutureWait)
  | [] => do
    Exec.modify fun s => { s with mailboxDeadlines := [] }
    pure []
  | deadline :: rest => do
    let s ← Exec.get
    if deadline.deadlineMs > s.virtualTimeMs then do
      Exec.modify fun s => { s with mailboxDeadlines := deadline :: rest }
      pure []
    else if s.mailboxFutureWaitIsRegistered deadline.targetThreadId deadline.wait then do
      removeMailboxFutureWait deadline.wait.key
      let expired ← expireDeadlines rest
      pure (deadline.wait :: expired)
    else expireDeadlines rest

def expireMailboxFutureWaits (deltaMs : ℕ) : Orchestration host Unit := do
  Exec.modify fun s => { s with virtualTimeMs := saturatingAdd s.virtualTimeMs deltaMs }
  let s ← Exec.get
  let expired ← expireDeadlines s.mailboxDeadlines
  expired.forM fun wait =>
    completeFuture (.timeout wait) wait.waitingThreadId wait.futureLease.id (.ok .null)

def expireTimerFutureWaits : Orchestration host Unit := do
  let s ← Exec.get
  let due : TimerFutureWait → Bool := fun wait => wait.deadlineMs ≤ s.virtualTimeMs
  Exec.modify fun s => { s with timerFutureWaits := s.timerFutureWaits.dropWhile due }
  (s.timerFutureWaits.takeWhile due).forM fun wait =>
    completeFuture (.timer wait.futureLease) wait.waitingThreadId wait.futureLease.id (.ok .null)

def recordCancellation (outcome : CancellationOutcome) : Orchestration host Unit :=
  Exec.modify fun s =>
    { s with cancellationReport :=
        Function.update s.cancellationReport outcome (s.cancellationReport outcome + 1) }

/-- Tell a provider that a request has no owner any more. -/
def cancelProviderRequest (requestId : ℕ) (providerAlias : String) : Orchestration host Unit := do
  let s ← Exec.get
  match s.providers with
  | none => pure ()
  | some providers =>
    if host.hasHost providers providerAlias then do
      let (outcome, providers) := host.cancelProvider providers providerAlias threadId
        (s.requestGenerations.lease requestId)
      Exec.modify fun s => { s with providers := some providers }
      recordCancellation outcome
      freeRequestId requestId
    else freeRequestId requestId

def cancelAdapterRequest (requestId : ℕ) (proxyModule symbol : String) :
    Orchestration host Unit := do
  let s ← Exec.get
  match s.adapterBindings with
  | none => freeRequestId requestId
  | some bindings =>
    match host.cancelAdapter bindings proxyModule symbol threadId
        (s.requestGenerations.lease requestId) with
    | (some outcome, bindings) => do
      Exec.modify fun s => { s with adapterBindings := some bindings }
      recordCancellation outcome
      freeRequestId requestId
    | (none, bindings) => do
      Exec.modify fun s => { s with adapterBindings := some bindings }
      freeRequestId requestId

def cancelWorker (workerId : ℕ) : Orchestration host Unit := do
  Exec.modify fun s => { s with futureWorkers := s.futureWorkers.erase workerId }
  cancelAndTeardownThread workerId

/-- The workers that run a future, in ascending order here. -/
def workersOf (s : Orchestrator host) (key : FutureKey) : List ℕ :=
  (s.futureWorkers.keys.filter fun workerId =>
    (s.futureWorkers.lookup workerId).any fun owner =>
      owner.1 = key.1 && owner.2.id = key.2).insertionSort (· ≤ ·)

def cancelFutureActivation (activation : Activation host.Surface) : Orchestration host Unit :=
  match activation with
  | .provider providerAlias _ _ (some requestId) =>
    cancelProviderRequest key.1 requestId providerAlias
  | .adapter proxyModule symbol _ (some requestId) =>
    cancelAdapterRequest key.1 requestId proxyModule symbol
  | .galfusFunction .. => do
    let s ← Exec.get
    (s.workersOf key).forM cancelWorker
  | .provider _ _ _ none | .adapter _ _ _ none | .internal .. => pure ()

/-- Clean up after a future that was discarded while its owner goes. -/
def cleanDiscarded (activation : Option (Activation host.Surface)) : Orchestration host Unit :=
  match activation with
  | some activation => do
    cancelFutureActivation key activation
    freeFutureId key.2
  | none => freeFutureId key.2

def cancelThreadFutures : Orchestration host Unit := do
  let discarded ← registryCall (·.discardAllForOwner threadId)
  discarded.forM fun d => cleanDiscarded (threadId, d.1) d.2

def cancelAllFutures : Orchestration host Unit := do
  let discarded ← registryCall (·.discardAll)
  discarded.forM fun d => cleanDiscarded d.1 d.2

def cancelPendingContinuation (key : PendingKey) : Orchestration host Unit := do
  Exec.modify fun s => { s with pendingContinuations := s.pendingContinuations.erase key }
  match key with
  | .request requestId => freeRequestId requestId
  | _ => pure ()

def pendingKeys (s : Orchestrator host) (threadId : ℕ) : List PendingKey :=
  (s.pendingContinuations.keys.filter fun key =>
    (s.pendingContinuations.lookup key).any fun pending =>
      pending.threadId = threadId).insertionSort fun a b => (compare a b).isLE

def cancelPendingContinuations : Orchestration host Unit := do
  let s ← Exec.get
  (s.pendingKeys threadId).forM cancelPendingContinuation

/-- The result of a coordinator that is ready. There is no answer if a result is missing. -/
def aggregateResult (coordinator : AggregateCoordinator host) : Option (Option host.Result) :=
  match coordinator.mode with
  | .all =>
    if coordinator.remainingResults = 0 then do
      let results ← coordinator.results
      let results ← results.mapM id
      pure (some ((results.mapM id).map .aggregate))
    else pure none
  | .race => pure (coordinator.winner.map fun winner => winner.2.2)

def heldByOther (s : Orchestrator host) (key : FutureKey) : Bool :=
  s.futureRegistry.records.keys.any fun k => k.2 == key.2 && k.1 != key.1

def discardRaced : Orchestration host Unit := do
  let s ← Exec.get
  observe (.raced key (s.heldByOther key))
  match ← registryCall (·.discardForRace key) with
  | .ok (.running activation) => do
    cancelFutureActivation key activation
    freeFutureId key.2
  | _ => freeFutureId key.2

def discardMembers (coordinator : AggregateCoordinator host) : Orchestration host Unit :=
  match coordinator.mode with
  | .race =>
    coordinator.futureIds.forM fun futureId =>
      discardRaced (coordinator.pending.threadId, futureId)
  | .all => pure ()

def finishAggregateIfReady (coordinatorId : ℕ) : Orchestration host Unit := do
  let s ← Exec.get
  match s.aggregateCoordinators.lookup coordinatorId with
  | none => pure ()
  | some coordinator =>
    match aggregateResult coordinator with
    | none => Exec.stop
    | some none => pure ()
    | some (some result) => do
      Exec.modify fun s =>
        { s with aggregateCoordinators := s.aggregateCoordinators.erase coordinatorId }
      kernelDo (·.release .pendingStates 1)
      Exec.modify fun s => { s with coordinatorIds := s.coordinatorIds.free coordinatorId }
      discardMembers coordinator
      resumePending coordinator.pending.threadId coordinator.pending result
        (.coordinator coordinatorId)

def finishAggregates : List ℕ → Orchestration host Unit
  | [] => pure ()
  | coordinatorId :: rest => do
    finishAggregateIfReady coordinatorId
    let s ← Exec.get
    if s.failure.isSome then pure () else finishAggregates rest

def finishPendingAggregates : Orchestration host Unit := do
  let s ← Exec.get
  Exec.modify fun s => { s with pendingAggregateFinishes := [] }
  finishAggregates s.pendingAggregateFinishes

end Galfus.Orchestrator
