import Galfus.Runtime.Kernel

/-! # The orchestrator

The state that one execution lane owns: the kernel, the registry of futures, the waits for
timers, messages and exits, and the coordinators of aggregate awaits. Its methods change this
state; a failure ends the execution and is kept in `failure`. The history and the trace are not
part of the source: they list what happened to messages and futures, and to threads.
-/

namespace Galfus

inductive PendingOperation where
  | future
  | aggregateMember (coordinatorId index : ℕ)
  deriving DecidableEq

structure PendingContinuation where
  threadId : ℕ
  continuation : Continuation
  moduleId : ℕ
  returnType : ℕ
  stack : List ExecutionFrame
  operation : PendingOperation

inductive PendingKey where
  | request (id : ℕ)
  | future (id : ℕ)
  | coordinator (id : ℕ)
  deriving DecidableEq, Ord

structure MailboxFutureWait where
  waitingThreadId : ℕ
  futureLease : Lease
  senderId : Option ℕ
  sequence : ℕ
  deriving DecidableEq, Ord

namespace MailboxFutureWait

def key (wait : MailboxFutureWait) : FutureKey := (wait.waitingThreadId, wait.futureLease.id)

end MailboxFutureWait

structure MailboxDeadline where
  deadlineMs : ℕ
  targetThreadId : ℕ
  wait : MailboxFutureWait
  deriving DecidableEq, Ord

structure TimerFutureWait where
  deadlineMs : ℕ
  futureLease : Lease
  waitingThreadId : ℕ
  deriving DecidableEq, Ord

structure MailboxWaitQueues where
  anySender : List MailboxFutureWait
  bySender : Table ℕ (List MailboxFutureWait)

namespace MailboxWaitQueues

def empty : MailboxWaitQueues := ⟨[], ∅⟩

/-- The waits for messages of one sender only. -/
def ofSender (q : MailboxWaitQueues) (sender : ℕ) : List MailboxFutureWait :=
  (q.bySender.lookup sender).getD []

def push (q : MailboxWaitQueues) (wait : MailboxFutureWait) : MailboxWaitQueues :=
  match wait.senderId with
  | some senderId =>
    { q with bySender := q.bySender.insert senderId (q.ofSender senderId ++ [wait]) }
  | none => { q with anySender := q.anySender ++ [wait] }

def next (q : MailboxWaitQueues) (sender : ℕ) : Option MailboxFutureWait :=
  match q.anySender.head?, (q.ofSender sender).head? with
  | some any, some ofSender => some (if any.sequence ≤ ofSender.sequence then any else ofSender)
  | some wait, none | none, some wait => some wait
  | none, none => none

/-- Take the first wait off the queue of a sender, or off that of any sender; it is a panic if
the sender has no queue. -/
def pop (q : MailboxWaitQueues) : Option ℕ → Option MailboxWaitQueues
  | some senderId => do
    let waits ← q.bySender.lookup senderId
    pure { q with
      bySender :=
        if waits.tail.isEmpty then q.bySender.erase senderId
        else q.bySender.insert senderId waits.tail }
  | none => some { q with anySender := q.anySender.tail }

def isEmpty (q : MailboxWaitQueues) : Bool := q.anySender.isEmpty && q.bySender.keys.isEmpty

end MailboxWaitQueues

inductive AggregateMode where
  | all
  | race
  deriving DecidableEq

structure AggregateCoordinator (host : Host) where
  mode : AggregateMode
  futureIds : List ℕ
  pending : PendingContinuation
  results : Option (List (Option host.Result))
  remainingResults : ℕ
  winner : Option (ℕ × ℕ × host.Result)
  armed : Bool

structure StartupPlan where
  initializers : List (ℕ × ℕ)
  entryModuleId : ℕ
  entryFunc : ℕ
  entryArgs : VmValue

structure CompletionMetrics where
  accepted : ℕ
  duplicate : ℕ
  lateAfterCancel : ℕ
  unknownRequest : ℕ

structure CloseReport where
  released : ℕ
  failures : List String

inductive RuntimeEvent (host : Host) where
  | threadSpawned (thread : host.Thread)
  | syscall (threadId : ℕ) (thread : host.Thread) (effect : VmEffect) (continuation : Continuation)
  | exited (threadId : ℕ) (thread : host.Thread) (result : Except ExecutionFailure (BitVec 32))
  | initialized (threadId : ℕ) (thread : host.Thread) (moduleId : ℕ)
  | failed (threadId : ℕ) (error : ExecutionFailure)
  | yielded (threadId : ℕ) (thread : host.Thread)
  | effectCompleted (threadId : ℕ) (requestLease : Lease) (contract : host.Contract)
      (result : Except ExecutionFailure host.Surface)
  | futureCompleted (threadId : ℕ) (futureLease : Lease) (result : host.Result)
  | futureWorkerCompleted (workerThreadId ownerThreadId : ℕ) (futureLease : Lease)
      (thread : host.Thread) (result : Except ExecutionFailure (BitVec 32))
  | tick (deltaMs : ℕ)
  | cancelExecution
  | cancelThread (threadId : ℕ)

/-- The thread whose state an event carries. -/
def RuntimeEvent.carrier {host : Host} : RuntimeEvent host → Option ℕ
  | syscall threadId _ _ _ | exited threadId _ _ | initialized threadId _ _ | yielded threadId _
  | futureWorkerCompleted threadId _ _ _ _ => some threadId
  | _ => none

/-- Why a future is completed: its own activation had the result at once, or a notification
came that was registered for a lease. -/
inductive Cause where
  | immediate
  | timer (lease : Lease)
  | delivery (target : ℕ) (wait : MailboxFutureWait) (message : MailboxMessage)
  | timeout (wait : MailboxFutureWait)
  | event (lease : Lease)
  | worker (lease : Lease)
  deriving DecidableEq

namespace Cause

def lease? : Cause → Option Lease
  | immediate => none
  | timer lease | event lease | worker lease => some lease
  | delivery _ wait _ | timeout wait => some wait.futureLease

/-- Whether the generation of the lease is compared before the future is completed. -/
def isChecked : Cause → Bool
  | event _ | worker _ => true
  | _ => false

end Cause

/-- What is noted in the history about mailboxes, messages, receives and futures. The flags say
whether a receive or a future waits, a receive is the first one, a lease is current, or another
thread has a future with this id. -/
inductive Observation (host : Host) where
  | opened (threadId : ℕ)
  | sent (target : ℕ) (message : MailboxMessage) (awaited : Bool)
  | received (threadId : ℕ) (message : MailboxMessage)
  | registered (target : ℕ) (wait : MailboxFutureWait)
  | served (target : ℕ) (wait : MailboxFutureWait) (message : MailboxMessage) (live first : Bool)
  | created (key : FutureKey) (lease : Lease)
  | completed (key : FutureKey) (cause : Cause) (current : Bool) (result : host.Result)
  | missed (key : FutureKey) (cause : Cause)
  | raced (key : FutureKey) (held : Bool)

/-- What is noted about threads. The flags say whether the thread whose state an event carries is
out, and whether a message is expected by a thread, which is not blocked or waits for it. -/
inductive ThreadNote (host : Host) where
  | handled (sequence : ℕ) (event : RuntimeEvent host) (isOut : Bool)
  | spawned (threadId : ℕ)
  | awaits (threadId : ℕ) (key : PendingKey)
  | gathers (coordinatorId : ℕ) (mode : AggregateMode) (futureIds : List ℕ)
  | member (coordinatorId index : ℕ) (sequence : Option ℕ) (result : host.Result)
  | resumed (threadId : ℕ) (key : PendingKey) (result : host.Result)
  | dispatched (threadId : ℕ)
  | messaged (targetId : ℕ) (isExpected : Bool)

def ThreadNote.handled? {host : Host} : ThreadNote host → Option (ℕ × RuntimeEvent host)
  | .handled sequence event _ => some (sequence, event)
  | _ => none

structure Orchestrator (host : Host) where
  kernel : VirtualKernel host
  pendingEvents : Table ℕ (RuntimeEvent host)
  nextEventSequence : ℕ
  activeEventSequence : Option ℕ
  pendingAggregateFinishes : List ℕ
  failure : Option ExecutionFailure
  pendingContinuations : Table PendingKey PendingContinuation
  startupPlans : Table ℕ StartupPlan
  requestIds : IdManager
  requestGenerations : Generations
  futureIds : IdManager
  futureGenerations : Generations
  coordinatorIds : IdManager
  adapterBindings : Option host.Bindings
  providers : Option host.Providers
  initializationComplete : Bool
  shuttingDown : Bool
  shutdownReport : Option CloseReport
  cancellationReport : CancellationOutcome → ℕ
  completionMetrics : CompletionMetrics
  lateCompletions : List (ℕ × PendingKey)
  rootThreadId : Option ℕ
  futureWorkers : Table ℕ (ℕ × Lease)
  threadExitWaits : Table ℕ (List (ℕ × Lease))
  mailboxFutureWaits : Table ℕ MailboxWaitQueues
  mailboxFutureWaitTargets : Table FutureKey (ℕ × Lease)
  mailboxDeadlines : List MailboxDeadline
  mailboxWaitSequence : ℕ
  timerFutureWaits : List TimerFutureWait
  virtualTimeMs : ℕ
  futureRegistry : FutureRegistry host.Surface PendingContinuation host.Result
  aggregateCoordinators : Table ℕ (AggregateCoordinator host)
  aggregateRegistration : Option (ℕ × ℕ)
  /-- How often the driver was asked for its capacity. -/
  dispatches : ℕ
  history : List (Observation host)
  trace : List (ThreadNote host)

abbrev Orchestration (host : Host) := Exec Empty (Orchestrator host)

namespace Orchestrator

variable {host : Host}

def new (limits : ResourceLimitKind → ℕ) (bindings : Option host.Bindings)
    (providers : Option host.Providers) : Orchestrator host where
  kernel := .new limits
  pendingEvents := ∅
  nextEventSequence := 1
  activeEventSequence := none
  pendingAggregateFinishes := []
  failure := none
  pendingContinuations := ∅
  startupPlans := ∅
  requestIds := .new 1
  requestGenerations := ∅
  futureIds := .new 1
  futureGenerations := ∅
  coordinatorIds := .new 1
  adapterBindings := bindings
  providers := providers
  initializationComplete := true
  shuttingDown := false
  shutdownReport := none
  cancellationReport := fun _ => 0
  completionMetrics := ⟨0, 0, 0, 0⟩
  lateCompletions := []
  rootThreadId := none
  futureWorkers := ∅
  threadExitWaits := ∅
  mailboxFutureWaits := ∅
  mailboxFutureWaitTargets := ∅
  mailboxDeadlines := []
  mailboxWaitSequence := 0
  timerFutureWaits := []
  virtualTimeMs := 0
  futureRegistry := .new
  aggregateCoordinators := ∅
  aggregateRegistration := none
  dispatches := 0
  history := []
  trace := []

def kernelCall {α : Type} (f : VirtualKernel host → α × VirtualKernel host) :
    Orchestration host α := fun s =>
  let (a, kernel) := f s.kernel
  some (.ok a, { s with kernel := kernel })

theorem kernelCall_bind {α β : Type} {f : VirtualKernel host → α × VirtualKernel host}
    {g : α → Orchestration host β} {s : Orchestrator host} {a : α} {k : VirtualKernel host}
    (h : f s.kernel = (a, k)) :
    (kernelCall f >>= g) s = g a { s with kernel := k } := by
  rw [Exec.bind_apply]
  unfold kernelCall
  rw [h]
  rfl

def kernelDo (f : VirtualKernel host → VirtualKernel host) : Orchestration host Unit :=
  Exec.modify fun s => { s with kernel := f s.kernel }

def registryCall {α : Type} (f : FutureRegistry host.Surface PendingContinuation host.Result →
      α × FutureRegistry host.Surface PendingContinuation host.Result) :
    Orchestration host α := fun s =>
  let (a, registry) := f s.futureRegistry
  some (.ok a, { s with futureRegistry := registry })

def observe (o : Observation host) : Orchestration host Unit :=
  Exec.modify fun s => { s with history := s.history ++ [o] }

def note (n : ThreadNote host) : Orchestration host Unit :=
  Exec.modify fun s => { s with trace := s.trace ++ [n] }

def fail (e : ExecutionFailure) : Orchestration host Unit :=
  Exec.modify fun s => { s with failure := some e }

/-- The execution fails, the thread is cancelled and its state, which the method has, is
dropped. -/
def failThread (threadId : ℕ) (thread : host.Thread) (e : ExecutionFailure) :
    Orchestration host Unit := do
  fail e
  kernelDo (·.cancel threadId)
  kernelDo (·.dropThread thread)

def freeFutureId (futureId : ℕ) : Orchestration host Unit := do
  Exec.modify fun s => { s with futureIds := s.futureIds.free futureId }
  kernelDo (·.release .futures 1)

def freeRequestId (requestId : ℕ) : Orchestration host Unit := do
  Exec.modify fun s => { s with requestIds := s.requestIds.free requestId }
  kernelDo (·.release .pendingRequests 1)

def releaseAdapterHandle (handle : AdapterHandleId) : Orchestration host (Except String Unit) := do
  let s ← Exec.get
  match s.adapterBindings with
  | none => pure (.ok ())
  | some bindings =>
    match host.releaseHandle bindings handle with
    | (none, bindings) => do
      Exec.modify fun s => { s with adapterBindings := some bindings }
      pure (.ok ())
    | (some outcome, bindings) => do
      Exec.modify fun s => { s with adapterBindings := some bindings }
      kernelDo (·.release .externalHandles 1)
      pure outcome

theorem releaseAdapterHandle_apply (h : AdapterHandleId) (s : Orchestrator host) :
    releaseAdapterHandle h s =
      match s.adapterBindings with
      | none => some (.ok (.ok ()), s)
      | some bs =>
        match host.releaseHandle bs h with
        | (none, bs) => some (.ok (.ok ()), { s with adapterBindings := some bs })
        | (some o, bs) => some (.ok o, { s with
            adapterBindings := some bs
            kernel := s.kernel.release .externalHandles 1 }) := by
  change (match s.adapterBindings with
    | none => pure (.ok ())
    | some bs => _ : Orchestration host (Except String Unit)) s = _
  cases s.adapterBindings with
  | none => rfl
  | some bs =>
    dsimp only
    rcases host.releaseHandle bs h with ⟨_ | o, bs'⟩ <;> rfl

def releaseAdapterHandles : List AdapterHandleId → Orchestration host (Except String Unit)
  | [] => pure (.ok ())
  | handle :: rest => do
    match ← releaseAdapterHandle handle with
    | .ok () => releaseAdapterHandles rest
    | .error e => pure (.error e)

/-- Release handles; an error is the failure of the execution. -/
def releaseOrFail (handles : List AdapterHandleId) : Orchestration host Unit := do
  match ← releaseAdapterHandles handles with
  | .ok () => pure ()
  | .error e => fail (.new .adapterCallFailure e)

def flushThreadHandleDrops (thread : host.Thread) : Orchestration host host.Thread := do
  let (handles, thread) := host.takeHandleDrops thread
  releaseOrFail handles
  pure thread

def teardownThreadHandles (thread : host.Thread) : Orchestration host host.Thread := do
  let (handles, thread) := host.extractAllAdapterHandles thread
  releaseOrFail handles
  pure thread

theorem flushThreadHandleDrops_apply {t : host.Thread} {s s' : Orchestrator host}
    (h : releaseOrFail (host.takeHandleDrops t).1 s = some (.ok (), s')) :
    flushThreadHandleDrops t s = some (.ok (host.takeHandleDrops t).2, s') := by
  unfold flushThreadHandleDrops
  dsimp only
  rw [Exec.bind_apply, h]
  rfl

theorem teardownThreadHandles_apply {t : host.Thread} {s s' : Orchestrator host}
    (h : releaseOrFail (host.extractAllAdapterHandles t).1 s = some (.ok (), s')) :
    teardownThreadHandles t s = some (.ok (host.extractAllAdapterHandles t).2, s') := by
  unfold teardownThreadHandles
  dsimp only
  rw [Exec.bind_apply, h]
  rfl

def registerAdapterHandles (proxyModule : String) (value : host.Surface) :
    Orchestration host (Except ExecutionFailure Unit) := do
  let handles := host.collectAdapterHandles value
  if handles.isEmpty then pure (.ok ())
  else
    match ← kernelCall (·.reserve .externalHandles handles.length) with
    | .error e => pure (.error (.new e "external handles limit exceeded"))
    | .ok () => do
      let s ← Exec.get
      match s.adapterBindings with
      | none => do
        kernelDo (·.release .externalHandles handles.length)
        pure (.error (.new .boundaryCodecFailure "invalid handle: no adapter bindings"))
      | some bindings =>
        match host.bindingId bindings proxyModule with
        | none => do
          kernelDo (·.release .externalHandles handles.length)
          pure (.error (.new .boundaryCodecFailure "invalid handle: unknown proxy module"))
        | some bindingId =>
          match host.registerHandles bindings bindingId handles with
          | (.ok (), bindings) => do
            Exec.modify fun s => { s with adapterBindings := some bindings }
            pure (.ok ())
          | (.error e, bindings) => do
            Exec.modify fun s => { s with adapterBindings := some bindings }
            kernelDo (·.release .externalHandles handles.length)
            pure (.error e)

def cancelAndTeardownThread (threadId : ℕ) : Orchestration host Unit := do
  match ← kernelCall (·.takeThread threadId) with
  | some thread => do
    let thread ← teardownThreadHandles thread
    kernelDo (·.dropThread thread)
    kernelDo (·.cancel threadId)
  | none => kernelDo (·.cancel threadId)

def cancelAndTeardownAllThreads : Orchestration host Unit := do
  let s ← Exec.get
  s.kernel.threads.forM cancelAndTeardownThread

def failAndTeardown (threadId : ℕ) (e : ExecutionFailure) : Orchestration host Unit := do
  fail e
  cancelAndTeardownThread threadId

def runnableLimit (threadId : ℕ) (kind : ExecutionFailureKind) : ExecutionFailure :=
  (ExecutionFailure.new kind "runnable threads limit exceeded").withThreadId threadId

/-- Give threads to the driver while it takes some. Each round takes an entry off the queue. -/
def dispatchRounds : ℕ → ℕ → Orchestration host Unit
  | 0, _ => pure ()
  | _, 0 => pure ()
  | rounds + 1, remaining + 1 => do
    match ← kernelCall (·.nextRunnableDetailed) with
    | none => pure ()
    | some (threadId, _) =>
      match ← kernelCall (·.takeThread threadId) with
      | none => dispatchRounds rounds (remaining + 1)
      | some thread => do
        kernelDo (·.markRunning threadId)
        match ← kernelCall (·.reserve .kernelTasks 1) with
        | .ok () => do
          note (.dispatched threadId)
          dispatchRounds rounds remaining
        | .error e =>
          failThread threadId thread
            ((ExecutionFailure.new e "kernel tasks limit exceeded").withThreadId threadId)

def dispatchRunnables : Orchestration host Unit := do
  let s ← Exec.get
  Exec.modify fun s => { s with dispatches := s.dispatches + 1 }
  dispatchRounds s.kernel.runnable.queue.length (host.availableTaskCapacity s.dispatches)

def resumeOrFailFront (threadId : ℕ) (thread : host.Thread) (continuation : Continuation)
    (value : VmValue) : Orchestration host Unit :=
  match host.resume threadId thread continuation value with
  | (.ok (), thread) => do
    match ← kernelCall (·.enqueueRunnableFront threadId thread) with
    | .ok () => dispatchRunnables
    | .error e => failAndTeardown threadId (runnableLimit threadId e)
  | (.error e, thread) => do
    failAndTeardown threadId
      ((e.withThreadId threadId).withExecutionStack (host.executionStack thread))
    kernelDo (·.dropThread thread)

def blockOrFail (threadId : ℕ) (thread : host.Thread) : Orchestration host Bool := do
  match ← kernelCall (·.block threadId thread none) with
  | .ok () => pure true
  | .error e => do
    fail ((e.withThreadId threadId).withStack (host.executionStack thread))
    kernelDo (·.cancel threadId)
    pure false

end Orchestrator

end Galfus
