import Galfus.Runtime.Effects

/-! # The event loop

The events that tasks and drivers submit are handled in the order of their sequence numbers.
An execution is launched with its root thread and then polled; it is closed when it failed or
when no thread is active.
-/

namespace Galfus.Orchestrator

variable {host : Host}

variable (threadId : ℕ) (thread : host.Thread)

def enqueueOrTeardown : Orchestration host Unit := do
  match ← kernelCall (·.enqueueRunnable threadId thread) with
  | .ok () => pure ()
  | .error e => failAndTeardown threadId (runnableLimit threadId e)

/-- The next function of a startup plan and its arguments; a plan that is not at its end is put
back. -/
def nextStartup (plan : StartupPlan) : Orchestration host ((ℕ × ℕ × List VmValue) × host.Thread) :=
  match plan.initializers with
  | (moduleId, function) :: rest => do
    Exec.modify fun s =>
      { s with startupPlans := s.startupPlans.insert threadId { plan with initializers := rest } }
    pure ((moduleId, function, []), host.beginModuleInitialization moduleId thread)
  | [] => do
    Exec.modify fun s => { s with initializationComplete := true }
    pure ((plan.entryModuleId, plan.entryFunc, [plan.entryArgs]), thread)

def advanceStartup (initializedModuleId : ℕ) : Orchestration host Unit := do
  let thread := host.markModuleInitialized initializedModuleId thread
  let s ← Exec.get
  Exec.modify fun s => { s with startupPlans := s.startupPlans.erase threadId }
  match s.startupPlans.lookup threadId with
  | none => do
    failAndTeardown threadId ((((ExecutionFailure.new .initializationFailure
      "module initializer completed without a startup plan").withThreadId threadId).withModuleId
        initializedModuleId).withStack (host.executionStack thread))
    kernelDo (·.dropThread thread)
  | some plan => do
    let ((moduleId, function, args), thread) ← nextStartup threadId thread plan
    match host.prepareFunction thread moduleId function args with
    | (.ok (), thread) => enqueueOrTeardown threadId thread
    | (.error e, thread) => do
      Exec.modify fun s => { s with startupPlans := s.startupPlans.erase threadId }
      failAndTeardown threadId (((ExecutionFailure.new .initializationFailure e).withThreadId
        threadId).withModuleId initializedModuleId)
      kernelDo (·.dropThread thread)

def pendingThreads (s : Orchestrator host) : List ℕ :=
  ((s.pendingContinuations.keys.filterMap fun key =>
    (s.pendingContinuations.lookup key).map fun pending => pending.threadId).insertionSort
      (· ≤ ·)).dedup

def cancelAllPendingContinuations : Orchestration host Unit := do
  let s ← Exec.get
  s.pendingThreads.forM cancelPendingContinuations

def clearWaits : Orchestration host Unit :=
  Exec.modify fun s =>
    { s with
      startupPlans := ∅
      threadExitWaits := ∅
      mailboxFutureWaits := ∅
      mailboxFutureWaitTargets := ∅
      mailboxDeadlines := []
      timerFutureWaits := []
      kernel := s.kernel.release .eventQueue s.pendingEvents.keys.length
      pendingEvents := ∅
      pendingAggregateFinishes := [] }

def clearCoordinators : Orchestration host Unit :=
  Exec.modify fun s =>
    let coordinators := s.aggregateCoordinators.keys
    { s with
      aggregateCoordinators := ∅
      coordinatorIds := coordinators.foldl IdManager.free s.coordinatorIds
      kernel := s.kernel.release .pendingStates coordinators.length }

def closeHandles : List AdapterHandleId → CloseReport → Orchestration host CloseReport
  | [], report => pure report
  | handle :: rest, report => do
    match ← releaseAdapterHandle handle with
    | .ok () => closeHandles rest { report with released := report.released + 1 }
    | .error e => closeHandles rest { report with failures := report.failures ++ [e] }

def closeAdapterBindings : Orchestration host CloseReport := do
  let s ← Exec.get
  match s.adapterBindings with
  | some bindings => closeHandles (host.activeHandles bindings) ⟨0, []⟩
  | none => pure ⟨0, []⟩

def shutdown : Orchestration host CloseReport := do
  let s ← Exec.get
  if s.shuttingDown then pure (s.shutdownReport.getD ⟨0, []⟩)
  else do
    Exec.modify fun s => { s with shuttingDown := true }
    cancelAllPendingContinuations
    cancelAllFutures
    clearWaits
    clearCoordinators
    cancelAndTeardownAllThreads
    let report ← closeAdapterBindings
    Exec.modify fun s => { s with shutdownReport := some report }
    pure report

def lateAfterCancel : Orchestration host Unit :=
  countMetrics fun m => { m with lateAfterCancel := m.lateAfterCancel + 1 }

/-- `FutureCompleted`: a completion counts if the lease is the current one of its id. -/
def futureCompleted (lease : Lease) (result : host.Result) : Orchestration host Unit := do
  let s ← Exec.get
  if lease.generation = s.futureGenerations.of lease.id then
    completeFuture (.event lease) threadId lease.id result
  else lateAfterCancel

def effectCompleted (lease : Lease) (result : host.Result) : Orchestration host Unit := do
  let s ← Exec.get
  if lease.generation = s.requestGenerations.of lease.id then
    completePending threadId (.request lease.id) result
  else lateAfterCancel

def exitCode (result : Except ExecutionFailure (BitVec 32)) : host.Result :=
  result.map .i32

def threadSpawned : Orchestration host Unit := do
  let thread ← flushThreadHandleDrops thread
  match ← spawnThread thread none with
  | .error e => do
    fail e
    cancelAndTeardownAllThreads
  | .ok id => do
    let thread ← kernelCall (·.takeThread id)
    let thread ← Exec.unwrap thread
    enqueueOrTeardown id thread

def threadExited (result : Except ExecutionFailure (BitVec 32)) : Orchestration host Unit := do
  cancelThreadFutures threadId
  let thread ← teardownThreadHandles thread
  kernelDo (·.markExited threadId thread result)
  let s ← Exec.get
  Exec.modify fun s => { s with threadExitWaits := s.threadExitWaits.erase threadId }
  ((s.threadExitWaits.lookup threadId).getD []).forM fun waiter =>
    futureCompleted waiter.1 waiter.2 (exitCode result)

def futureWorkerCompleted (workerThreadId ownerThreadId : ℕ) (lease : Lease)
    (thread : host.Thread) (result : Except ExecutionFailure (BitVec 32)) :
    Orchestration host Unit := do
  Exec.modify fun s => { s with futureWorkers := s.futureWorkers.erase workerThreadId }
  let thread ← teardownThreadHandles thread
  kernelDo (·.markExited workerThreadId thread result)
  let s ← Exec.get
  if lease.generation = s.futureGenerations.of lease.id then
    completeFuture (.worker lease) ownerThreadId lease.id (exitCode result)
  else pure ()

def noteWokeUp (woke : ℕ × Except ExecutionFailureKind Unit) : Orchestration host Unit :=
  match woke.2 with
  | .ok () => pure ()
  | .error e => failAndTeardown woke.1 (runnableLimit woke.1 e)

def handleTick (deltaMs : ℕ) : Orchestration host Unit := do
  let wokeUp ← kernelCall (·.tick deltaMs)
  wokeUp.forM noteWokeUp
  expireMailboxFutureWaits deltaMs
  expireTimerFutureWaits

def cancelThread : Orchestration host Unit := do
  cancelPendingContinuations threadId
  cancelThreadFutures threadId
  Exec.modify fun s => { s with startupPlans := s.startupPlans.erase threadId }
  cancelAndTeardownThread threadId

def processEvent (event : RuntimeEvent host) : Orchestration host Unit :=
  match event with
  | .threadSpawned thread => threadSpawned thread
  | .exited threadId thread result => threadExited threadId thread result
  | .initialized threadId thread moduleId => do
    let thread ← flushThreadHandleDrops thread
    advanceStartup threadId thread moduleId
  | .failed threadId e => do
    fail (e.withThreadId threadId)
    cancelThread threadId
  | .effectCompleted threadId lease contract result =>
    effectCompleted threadId lease (result.map fun value => .surface contract value none)
  | .futureCompleted threadId lease result => futureCompleted threadId lease result
  | .futureWorkerCompleted workerThreadId ownerThreadId lease thread result =>
    futureWorkerCompleted workerThreadId ownerThreadId lease thread result
  | .tick deltaMs => handleTick deltaMs
  | .cancelExecution => do
    let _ ← shutdown
    fail (.new .cancelled "execution cancelled")
  | .syscall threadId thread effect continuation => do
    let s ← Exec.get
    if s.shuttingDown then do
      cancelAndTeardownThread threadId
      kernelDo (·.dropThread thread)
    else do
      let thread ← flushThreadHandleDrops thread
      handleEffect threadId thread effect continuation
  | .yielded threadId thread => do
    let thread ← flushThreadHandleDrops thread
    enqueueOrTeardown threadId thread
  | .cancelThread threadId => cancelThread threadId

/-- Take over the events of the driver up to the first failure; whether there was none. An
event that comes too late is dropped. -/
def acceptEvents : List (ℕ × RuntimeEvent host) → Orchestration host Bool
  | [] => pure true
  | (sequence, event) :: rest => do
    let s ← Exec.get
    if sequence < s.nextEventSequence then acceptEvents rest
    else
      match ← kernelCall (·.reserve .eventQueue 1) with
      | .error e => do
        fail (.new e "event queue quota exceeded")
        pure false
      | .ok () => do
        Exec.modify fun s => { s with pendingEvents := s.pendingEvents.insert sequence event }
        if (s.pendingEvents.lookup sequence).isSome then do
          fail (.new .invalidContinuation
            ("duplicate external event sequence " ++ toString sequence))
          pure false
        else acceptEvents rest

def finishAfterEvent : Orchestration host Unit := do
  let s ← Exec.get
  if s.failure.isSome then pure () else finishPendingAggregates

def takeEvent : Orchestration host (Option (RuntimeEvent host)) := do
  let s ← Exec.get
  match s.pendingEvents.lookup s.nextEventSequence with
  | none => pure none
  | some event =>
    if s.nextEventSequence < usizeMax then do
      Exec.modify fun s =>
        { s with
          pendingEvents := s.pendingEvents.erase s.nextEventSequence
          kernel := s.kernel.release .eventQueue 1
          nextEventSequence := s.nextEventSequence + 1
          activeEventSequence := some s.nextEventSequence
          trace := s.trace ++
            [.handled s.nextEventSequence event (event.carrier.all s.kernel.isOut)] }
      pure (some event)
    else Exec.stop

/-- Process events. Each round takes one, so as many rounds as there are events are enough. -/
def eventRounds : ℕ → Orchestration host Unit
  | 0 => pure ()
  | rounds + 1 => do
    match ← takeEvent with
    | none => pure ()
    | some event => do
      processEvent event
      finishAfterEvent
      Exec.modify fun s => { s with activeEventSequence := none }
      let s ← Exec.get
      if s.failure.isSome then pure () else eventRounds rounds

def processEvents (events : List (ℕ × RuntimeEvent host)) : Orchestration host Unit := do
  let accepted ← acceptEvents events
  if accepted then do
    let s ← Exec.get
    eventRounds s.pendingEvents.keys.length
  else pure ()

def step (events : List (ℕ × RuntimeEvent host)) : Orchestration host Unit := do
  processEvents events
  dispatchRunnables

structure Launch (host : Host) where
  limits : ResourceLimitKind → ℕ
  bindings : Option host.Bindings
  providers : Option host.Providers
  thread : host.Thread
  plan : Option StartupPlan

def setStartupPlan (plan : Option StartupPlan) : Orchestration host Unit :=
  match plan with
  | some plan =>
    Exec.modify fun s =>
      { s with
        initializationComplete := false
        startupPlans := s.startupPlans.insert threadId plan }
  | none => pure ()

def launchRoot (plan : Option StartupPlan) : Orchestration host Unit := do
  match ← spawnThread thread none with
  | .error _ => Exec.stop
  | .ok threadId => do
    Exec.modify fun s => { s with rootThreadId := some threadId }
    setStartupPlan threadId plan
    kernelDo (·.markRunning threadId)
    let thread ← kernelCall (·.takeThread threadId)
    let thread ← Exec.unwrap thread
    match ← kernelCall (·.enqueueRunnable threadId thread) with
    | .ok () => pure ()
    | .error _ => Exec.stop

/-- What an execution is given: the events of a poll, a task that ends and gives back its
place, or the call that shuts it down. -/
inductive Input (host : Host) where
  | poll (events : List (ℕ × RuntimeEvent host))
  | taskFinished
  | shutdown

def closeIfDone : Orchestration host Unit := do
  let s ← Exec.get
  if s.failure.isSome || s.kernel.registry.activeCount = 0 then do
    let _ ← shutdown
    pure ()
  else pure ()

/-- `Execution::poll` up to the step of the driver, and the other inputs. An execution that is
closed does nothing. -/
def handleInput (input : Input host) : Orchestration host Unit := do
  let s ← Exec.get
  if s.shuttingDown then pure ()
  else
    match input with
    | .poll events => do
      step events
      closeIfDone
    | .taskFinished => kernelDo (·.release .kernelTasks 1)
    | .shutdown => do
      let _ ← shutdown
      pure ()

/-- The state after a launch and some inputs, unless there was a panic. -/
def execute (launch : Launch host) (inputs : List (Input host)) : Option (Orchestrator host) := do
  let (_, s) ← (launchRoot launch.thread launch.plan >>= fun _ => inputs.forM handleInput)
    (.new launch.limits launch.bindings launch.providers)
  pure s

end Galfus.Orchestrator
