import Galfus.Runtime.Completion

/-! # Effects

What the orchestrator does for a thread that stopped at an effect: it creates futures, lets
the thread wait for them, starts their activations and drops them.
-/

namespace Galfus.Orchestrator

variable {host : Host}

variable (threadId : ℕ) (thread : host.Thread) (continuation : Continuation) (futureId moduleId : ℕ)
  (operation : String) (args : List VmValue) (returnType : ℕ)

/-- `internal_thread_arg`: a positive `i64` that is a `u32`. -/
def internalThreadArg (index : ℕ) : Option ℕ :=
  match args[index]? with
  | some (.int64 id) => if 0 < id.toInt ∧ id.toInt ≤ u32Max then some id.toNat else none
  | _ => none

def internalTimeoutArg (index : ℕ) : Option ℕ :=
  match args[index]? with
  | some (.int32 value) => if 0 ≤ value.toInt then some value.toNat else none
  | some (.int64 value) => if 0 ≤ value.toInt then some value.toNat else none
  | _ => none

/-- Take a message for a receive that is running, and give back its place. -/
def receiveMessage (senderId : Option ℕ) : Orchestration host (Option MailboxMessage) := fun s =>
  match s.kernel.takeMessage threadId senderId with
  | (none, kernel) => some (.ok none, { s with kernel := kernel })
  | (some message, kernel) =>
    some (.ok (some message), { s with
        kernel := kernel.releaseMessage threadId message
        history := s.history ++ [.received threadId message] })

def isAwaited (s : Orchestrator host) (targetId senderId : ℕ) : Bool :=
  let queues := s.waitQueues targetId
  (queues.anySender ++ queues.ofSender senderId).any fun wait =>
    s.mailboxFutureWaitIsRegistered targetId wait

/-- The first wait in the queues that is registered. -/
def firstRegistered (s : Orchestrator host) (targetId senderId : ℕ) :
    ℕ → MailboxWaitQueues → Option MailboxFutureWait
  | 0, _ => none
  | rounds + 1, queues => do
    let wait ← queues.next senderId
    if s.mailboxFutureWaitIsRegistered targetId wait then pure wait
    else s.firstRegistered targetId senderId rounds (← queues.pop wait.senderId)

/-- Whether a message of this sender goes to the future that the thread itself waits for. -/
def isAnswer (s : Orchestrator host) (targetId senderId : ℕ) : Bool :=
  let queues := s.waitQueues targetId
  (s.firstRegistered targetId senderId
    (queues.anySender.length + (queues.ofSender senderId).length) queues).any fun wait =>
      wait.waitingThreadId == targetId && (wait.senderId.all fun sender => sender == senderId) &&
        s.futureRegistry.isPending wait.key &&
        (s.futureRegistry.waitersOf wait.key).any fun waiter => waiter.operation == .future

/-- Whether a thread that gets a message of this sender is not blocked or waits for it. -/
def isExpected (s : Orchestrator host) (targetId senderId : ℕ) : Bool :=
  !decide (targetId ∈ s.kernel.blocked.blocked) || s.isAnswer targetId senderId

def depositMessage (targetId : ℕ) (message : MailboxMessage) (mailbox : List MailboxMessage)
    (quota : MailboxQuota) : Orchestration host Unit :=
  Exec.modify fun s =>
    { s with
      kernel := (s.kernel.setThreadQuota targetId quota).setMailbox targetId (mailbox ++ [message])
      history := s.history ++ [.sent targetId message (s.isAwaited targetId message.senderId)]
      trace := s.trace ++ [.messaged targetId (s.isExpected targetId message.senderId)] }

def wakeTarget (targetId : ℕ) : Orchestration host Unit := do
  match ← kernelCall (·.unblock targetId) with
  | .ok _ => pure ()
  | .error e => do
    fail (runnableLimit targetId e)
    kernelDo (·.cancel targetId)

/-- Whether the message was accepted. -/
def sendInternalThreadMessage (senderId : ℕ) (targetId : Option ℕ)
    (data : Option (List (BitVec 8))) : Orchestration host Bool := do
  let s ← Exec.get
  match targetId, data with
  | some targetId, some data =>
    match s.kernel.getMailbox targetId, s.kernel.getThreadQuota targetId with
    | some mailbox, some quota =>
      match quota.tryReserveMailboxMessages 1 with
      | .error _ => pure false
      | .ok quota =>
        match quota.tryReserveMailboxBytes data.length with
        | .error _ => do
          kernelDo (·.setThreadQuota targetId (quota.releaseMailboxMessages 1))
          pure false
        | .ok quota => do
          depositMessage targetId ⟨senderId, data⟩ mailbox quota
          wakeTarget targetId
          completeMailboxFutureWaits targetId senderId
          pure true
    | _, _ => pure false
  | _, _ => pure false

def encodeMessage (text : String) (moduleId returnType : ℕ) (thread : host.Thread)
    (message : MailboxMessage) :
    Orchestration host (Except ExecutionFailure VmValue × host.Thread) :=
  if host.moduleLoaded moduleId then
    match host.encode thread (.bytes message.data) returnType moduleId with
    | (.ok value, thread) => pure (.ok value, thread)
    | (.error e, thread) => pure (.error (.new .boundaryCodecFailure (text ++ e.quote)), thread)
  else Exec.stop

def exitValue (state : Option ThreadStatus) : VmValue :=
  match state.bind (·.exitReason) with
  | some (.ok code) => .int32 code
  | _ => .null

/-- The answer of an internal await that needs no future, and the thread. -/
def tryCompleteInternalAwait (operation : String) (args : List VmValue) :
    Orchestration host (Option (Except ExecutionFailure VmValue) × host.Thread) :=
  match operation with
  | "__internal_thread_wait" => do
    let s ← Exec.get
    let state := (internalThreadArg args 0).bind s.kernel.state
    if state.any fun state => !state.isExited then pure (none, thread)
    else pure (some (.ok (exitValue state)), thread)
  | "__internal_thread_receive" => do
    match ← receiveMessage threadId (internalThreadArg args 0) with
    | none => pure (none, thread)
    | some message => do
      let (answer, thread) ←
        encodeMessage "invalid byte array encoding: " moduleId returnType thread message
      pure (some answer, thread)
  | "__internal_thread_sleep" =>
    if (internalTimeoutArg args 0).getD 0 = 0 then pure (some (.ok .null), thread)
    else pure (none, thread)
  | _ => pure (none, thread)

/-- The thread that is registered under a key, -1 if there is none. -/
def lookupThread (s : Orchestrator host) (thread : host.Thread) (key : Option VmValue) :
    BitVec 64 :=
  match (host.bytesArg thread key).bind host.utf8 |>.bind s.kernel.lookupKey with
  | some id => BitVec.ofNat 64 id
  | none => -1

def hasMessages (s : Orchestrator host) (threadId : ℕ) : Bool :=
  (s.kernel.getMailbox threadId).any fun mailbox => !mailbox.isEmpty

/-- The answer of a synchronous operation, and the thread. -/
def internalThreadResult : Orchestration host (Except ExecutionFailure VmValue × host.Thread) := do
  let s ← Exec.get
  let target := internalThreadArg args 0
  match operation with
  | "__internal_thread_get" => pure (.ok (.int64 (s.lookupThread thread args[0]?)), thread)
  | "__internal_thread_is_running" => pure (.ok (.bool (target.any s.kernel.isRunning)), thread)
  | "__internal_thread_is_exited" => pure (.ok (.bool (target.any s.kernel.isExited)), thread)
  | "__internal_thread_exit_reason" =>
    pure (.ok (exitValue (target.bind s.kernel.state)), thread)
  | "__internal_thread_has_messages" => pure (.ok (.bool (s.hasMessages threadId)), thread)
  | "__internal_thread_get_message" => do
    match ← receiveMessage threadId none with
    | none => pure (.ok .null, thread)
    | some message =>
      encodeMessage "invalid internal result: " moduleId returnType thread message
  | "__internal_thread_try_receive" => do
    match ← receiveMessage threadId target with
    | none => pure (.ok .null, thread)
    | some message =>
      encodeMessage "invalid internal result: " moduleId returnType thread message
  | "__internal_thread_send" => do
    let accepted ← sendInternalThreadMessage threadId target (host.bytesArg thread args[1]?)
    pure (.ok (.bool accepted), thread)
  | _ =>
    pure (.error (.new .invalidBytecode
      ("unknown synchronous internal operation: " ++ operation)), thread)

def handleInternalThreadCall : Orchestration host Unit := do
  let (answer, thread) ← internalThreadResult threadId thread moduleId operation args returnType
  let thread := host.releaseArgs args thread
  match answer with
  | .ok value => resumeOrFailFront threadId thread continuation value
  | .error e =>
    failThread threadId thread ((e.withThreadId threadId).withStack (host.executionStack thread))

def spawnThread (key : Option String) : Orchestration host (Except ExecutionFailure ℕ) := fun s =>
  match s.kernel.spawn thread key with
  | (.ok id, kernel) =>
    some (.ok (.ok id), { s with
        kernel := kernel
        history := s.history ++ [.opened id]
        trace := s.trace ++ [.spawned id] })
  | (.error e, kernel) => some (.ok (.error e), { s with kernel := kernel })

def prepareSpawn (caller target : host.Thread) (argument : Option VmValue) :
    Orchestration host (Bool × host.Thread) :=
  match host.entryFunc target with
  | none => pure (false, target)
  | some (moduleId, funcIdx) =>
    if host.moduleLoaded moduleId then do
      match ← Exec.unwrap (host.spawnArgument caller moduleId argument target) with
      | (none, target) => pure (false, target)
      | (some argument, target) =>
        match host.prepareFunction target moduleId funcIdx [argument] with
        | (.ok (), target) => pure (true, target)
        | (.error _, target) => pure (false, target)
    else Exec.stop

def startThread (caller : host.Thread) (args : List VmValue) : Orchestration host Bool :=
  match internalThreadArg args 0 with
  | none => pure false
  | some targetId => do
    match ← kernelCall (·.takeCreatedThread targetId) with
    | none => pure false
    | some target => do
      let (prepared, target) ← prepareSpawn caller target args[1]?
      if prepared then do
        match ← kernelCall (·.markSpawned targetId) with
        | .error e => do
          kernelDo (·.parkRunning targetId target)
          fail ((ExecutionFailure.new e "failed to mark thread as spawned").withThreadId threadId)
          pure false
        | .ok () =>
          match ← kernelCall (·.enqueueRunnable targetId target) with
          | .error e => do
            fail (runnableLimit threadId e)
            pure false
          | .ok () => do
            kernelDo (·.markRunning targetId)
            pure true
      else do
        kernelDo (·.parkRunning targetId target)
        pure false

/-- What an internal activation does: it has a result at once, or it waits for one, or the
execution failed. -/
inductive InternalStart (host : Host) where
  | immediate (result : host.Result)
  | suspended
  | failed

def messageResult (message : Option MailboxMessage) : host.Result :=
  match message with
  | some message => .ok (.bytes message.data)
  | none => .ok .null

def exitResult (state : Option ThreadStatus) : host.Result :=
  match state.bind (·.exitReason) with
  | some (.ok code) => .ok (.i32 code)
  | _ => .ok .null

def createThread : Orchestration host (InternalStart host) :=
  match args.head? with
  | some (.function moduleId funcIdx) => do
    let key := (host.bytesArg thread args[1]?).bind host.utf8
    match ← spawnThread (host.setEntryFunc moduleId funcIdx host.newThread) key with
    | .ok id => pure (.immediate (.ok (.i64 (BitVec.ofNat 64 id))))
    | .error e => do
      failThread threadId thread (((ExecutionFailure.new .boundaryCodecFailure
        e.display).withThreadId threadId).withStack (host.executionStack thread))
      pure .failed
  | _ => pure (.immediate (.ok (.i64 (-1))))

def internalStart : Orchestration host (InternalStart host) := do
  let s ← Exec.get
  let target := internalThreadArg args 0
  match operation with
  | "__internal_thread_get" =>
    pure (.immediate (.ok (.i64 (s.lookupThread thread args[0]?))))
  | "__internal_thread_is_running" =>
    pure (.immediate (.ok (.bool (target.any s.kernel.isRunning))))
  | "__internal_thread_is_exited" =>
    pure (.immediate (.ok (.bool (target.any s.kernel.isExited))))
  | "__internal_thread_exit_reason" =>
    pure (.immediate (exitResult (target.bind s.kernel.state)))
  | "__internal_thread_send" => do
    let accepted ← sendInternalThreadMessage threadId target (host.bytesArg thread args[1]?)
    pure (.immediate (.ok (.bool accepted)))
  | "__internal_thread_has_messages" =>
    pure (.immediate (.ok (.bool (s.hasMessages threadId))))
  | "__internal_thread_get_message" => do
    let message ← receiveMessage threadId none
    pure (.immediate (messageResult message))
  | "__internal_thread_wait" =>
    match target with
    | none => pure (.immediate (exitResult none))
    | some targetId =>
      if (s.kernel.state targetId).any fun state => !state.isExited then do
        registerThreadExitFuture targetId threadId futureId
        pure .suspended
      else pure (.immediate (exitResult (s.kernel.state targetId)))
  | "__internal_thread_receive" => do
    match ← receiveMessage threadId target with
    | some message => pure (.immediate (messageResult (some message)))
    | none => do
      registerMailboxFutureWait threadId threadId futureId target (internalTimeoutArg args 1)
      pure .suspended
  | "__internal_thread_create" => createThread threadId thread args
  | "__internal_thread_sleep" => do
    registerTimerFutureWait threadId futureId ((internalTimeoutArg args 0).getD 0)
    pure .suspended
  | "__internal_thread_spawn" => do
    let success ← startThread threadId thread args
    pure (.immediate (.ok (.bool success)))
  | operation =>
    match host.internalMath operation args with
    | some value => pure (.immediate (.ok value))
    | none => do
      failThread threadId thread ((((ExecutionFailure.new .invalidBytecode
        ("unknown internal future activation: " ++ operation)).withThreadId threadId).withFutureId
          futureId).withStack (host.executionStack thread))
      pure .failed

/-- The thread, if its owner goes on with the await. -/
def startInternalActivation (isMember : Bool) : Orchestration host (Option host.Thread) := do
  match ← internalStart threadId thread futureId operation args with
  | .failed => pure none
  | .suspended => pure (some (host.releaseArgs args thread))
  | .immediate result =>
    if isMember then do
      completeFuture .immediate threadId futureId result
      pure none
    else do
      let blocked ← blockOrFail threadId (host.releaseArgs args thread)
      if blocked then do
        completeFuture .immediate threadId futureId result
        pure none
      else pure none

def activationFailure (kind : ExecutionFailureKind) (message : String) (threadId futureId : ℕ)
    (thread : host.Thread) : ExecutionFailure :=
  (((ExecutionFailure.new kind message).withThreadId threadId).withFutureId futureId).withStack
    (host.executionStack thread)

def allocateRequestLease (thread : host.Thread) : Orchestration host (Option Lease) := do
  match ← kernelCall (·.reserve .pendingRequests 1) with
  | .error e => do
    failThread threadId thread
      (activationFailure e "request quota exceeded" threadId futureId thread)
    pure none
  | .ok () => do
    let s ← Exec.get
    match s.requestIds.tryAllocate with
    | some (id, requestIds) => do
      let generations := s.requestGenerations.bump id
      Exec.modify fun s => { s with requestIds := requestIds, requestGenerations := generations }
      pure (some (generations.lease id))
    | none => do
      kernelDo (·.release .pendingRequests 1)
      failThread threadId thread
        (activationFailure .idSpaceExhausted "request id space exhausted" threadId futureId thread)
      pure none

/-- Dispatch a host call: it gets a request id and a task. -/
def dispatchRequest (thread : host.Thread) : Orchestration host (Option host.Thread) := do
  match ← allocateRequestLease threadId futureId thread with
  | none => pure none
  | some lease =>
    match ← registryCall (·.assignRequestId (threadId, futureId) lease.id) with
    | .error e => do
      failThread threadId thread (e.withStack (host.executionStack thread))
      pure none
    | .ok () => do
      let s ← Exec.get
      let _ ← Exec.unwrap (s.futureRegistry.activeFlag (threadId, futureId))
      match ← kernelCall (·.reserve .kernelTasks 1) with
      | .ok () => pure (some thread)
      | .error e => do
        failThread threadId thread
          (((ExecutionFailure.new e "kernel tasks limit exceeded").withThreadId
            threadId).withFutureId futureId)
        pure none

def startProviderActivation (providerAlias : String) : Orchestration host (Option host.Thread) := do
  let s ← Exec.get
  if s.providers.any fun providers => host.hasHost providers providerAlias then
    dispatchRequest threadId futureId thread
  else do
    failThread threadId thread
      (activationFailure .missingProvider "HostProvider missing" threadId futureId thread)
    pure none

def startAdapterActivation (proxyModule symbol : String) :
    Orchestration host (Option host.Thread) := do
  let s ← Exec.get
  match s.adapterBindings with
  | none => do
    failThread threadId thread
      (activationFailure .missingAdapter "adapter registry missing" threadId futureId thread)
    pure none
  | some bindings =>
    if (host.functionSignature bindings proxyModule symbol).isSome then
      dispatchRequest threadId futureId thread
    else do
      failThread threadId thread
        (activationFailure .missingAdapter "adapter symbol missing" threadId futureId thread)
      pure none

/-- Start an activation. The function of a Galfus future is run by the await itself; here it is
a panic. -/
def startActivation (activation : Activation host.Surface) (isMember : Bool) :
    Orchestration host (Option host.Thread) :=
  match activation with
  | .galfusFunction .. => Exec.stop
  | .provider providerAlias _ _ _ => startProviderActivation threadId thread futureId providerAlias
  | .adapter proxyModule symbol _ _ =>
    startAdapterActivation threadId thread futureId proxyModule symbol
  | .internal operation _ args =>
    startInternalActivation threadId thread futureId operation args isMember

def runInline (funcIdx : ℕ) (args : List VmValue) : Orchestration host Unit := do
  match ← Exec.unwrap (host.pushInline thread moduleId funcIdx args continuation.dest) with
  | .error e =>
    failThread threadId thread (((ExecutionFailure.new .vmPanic e).withThreadId
      threadId).withStack (host.executionStack thread))
  | .ok thread =>
    match ← kernelCall (·.enqueueRunnable threadId thread) with
    | .ok () => pure ()
    | .error e => do
      fail (runnableLimit threadId e)
      kernelDo (·.cancel threadId)

def noteAwait (isMember : Bool) (threadId futureId : ℕ) : Orchestration host Unit :=
  if isMember then pure () else note (.awaits threadId (.future futureId))

def blockAwaiting (isMember : Bool) (threadId : ℕ) (thread : host.Thread) :
    Orchestration host Bool :=
  if isMember then pure true else blockOrFail threadId thread

/-- Wait for a future: go on with its result, or start it and block. -/
def awaitFuture (waiter : PendingContinuation) (isMember : Bool) : Orchestration host Unit := do
  noteAwait isMember threadId futureId
  match ← registryCall (·.addWaiter (threadId, futureId) waiter) with
  | .error e => failThread threadId thread (e.withStack (host.executionStack thread))
  | .ok (.resolved waiter result) => do
    let blocked ← blockAwaiting isMember threadId thread
    if blocked then resumePending threadId waiter result (.future futureId) else pure ()
  | .ok .discarded =>
    failThread threadId thread (activationFailure .invalidContinuation
      "discarded future cannot be awaited" threadId futureId thread)
  | .ok .registered =>
    match ← registryCall (·.takeActivationForStart (threadId, futureId)) with
    | .error e => failThread threadId thread (e.withStack (host.executionStack thread))
    | .ok none => do
      let _ ← blockAwaiting isMember threadId thread
      pure ()
    | .ok (some activation) => do
      match ← startActivation threadId thread futureId activation isMember with
      | none => pure ()
      | some thread => do
        let _ ← blockAwaiting isMember threadId thread
        pure ()

def handleFutureWait : Orchestration host Unit := do
  let s ← Exec.get
  Exec.modify fun s => { s with aggregateRegistration := none }
  match s.aggregateRegistration with
  | some (coordinatorId, index) =>
    awaitFuture threadId thread futureId ⟨threadId, continuation, moduleId, returnType,
      host.executionStack thread, .aggregateMember coordinatorId index⟩ true
  | none => do
    match ← registryCall (·.takeInlineGalfusActivation (threadId, futureId)) with
    | .error e => failThread threadId thread (e.withStack (host.executionStack thread))
    | .ok (some (.galfusFunction moduleId funcIdx args)) =>
      runInline threadId thread continuation moduleId funcIdx args
    | .ok _ =>
      awaitFuture threadId thread futureId ⟨threadId, continuation, moduleId, returnType,
        host.executionStack thread, .future⟩ false

/-- What is left of a future that was not started. -/
def releaseActivation (activation : Activation host.Surface) (thread : host.Thread) : host.Thread :=
  match activation with
  | .galfusFunction _ _ args | .internal _ _ args => host.releaseArgs args thread
  | _ => thread

/-- Drop futures up to the first error; the thread if there was none. -/
def dropFutures (threadId : ℕ) : List ℕ → host.Thread → Orchestration host (Option host.Thread)
  | [], thread => pure (some thread)
  | futureId :: rest, thread => do
    removeMailboxFutureWait (threadId, futureId)
    match ← registryCall (·.discard (threadId, futureId)) with
    | .error e => do
      failThread threadId thread (e.withStack (host.executionStack thread))
      pure none
    | .ok (.running activation) => do
      cancelFutureActivation (threadId, futureId) activation
      freeFutureId futureId
      dropFutures threadId rest thread
    | .ok (.created activation) => do
      freeFutureId futureId
      dropFutures threadId rest (releaseActivation activation thread)
    | .ok .terminal => do
      freeFutureId futureId
      dropFutures threadId rest thread
    | .ok .retained => dropFutures threadId rest thread

def handleFutureDropped (futureIds : List ℕ) : Orchestration host Unit := do
  match ← dropFutures threadId futureIds thread with
  | some thread => resumeOrFailFront threadId thread continuation .null
  | none => pure ()

def handleAdapterHandleDropped (handle : AdapterHandleId) : Orchestration host Unit := do
  match ← releaseAdapterHandle handle with
  | .ok () => resumeOrFailFront threadId thread continuation .null
  | .error e =>
    failThread threadId thread (((ExecutionFailure.new .adapterCallFailure e).withThreadId
      threadId).withStack (host.executionStack thread))

def allocateFutureLease : Orchestration host (Option Lease) := do
  match ← kernelCall (·.reserve .futures 1) with
  | .error e => do
    failThread threadId thread (((ExecutionFailure.new e "future quota exceeded").withThreadId
      threadId).withStack (host.executionStack thread))
    pure none
  | .ok () => do
    let s ← Exec.get
    match s.futureIds.tryAllocate with
    | some (id, futureIds) => do
      let generations := s.futureGenerations.bump id
      Exec.modify fun s => { s with futureIds := futureIds, futureGenerations := generations }
      pure (some (generations.lease id))
    | none => do
      kernelDo (·.release .futures 1)
      failThread threadId thread (((ExecutionFailure.new .idSpaceExhausted
        "future id space exhausted").withThreadId threadId).withStack (host.executionStack thread))
      pure none

/-- Register a future that was given a lease, and note it. -/
def insertFuture (lease : Lease)
    (insert : FutureRegistry host.Surface PendingContinuation host.Result → FutureKey →
      Except ExecutionFailure Unit × FutureRegistry host.Surface PendingContinuation host.Result) :
    Orchestration host (Except ExecutionFailure Unit) := fun s =>
  match insert s.futureRegistry (threadId, lease.id) with
  | (.ok (), registry) =>
    some (.ok (.ok ()), { s with
        futureRegistry := registry
        history := s.history ++ [.created (threadId, lease.id) lease] })
  | (.error e, registry) => some (.ok (.error e), { s with futureRegistry := registry })

def decodeArgs (argTypes : List ℕ) (schemas : List host.Schema) :
    Except String (List host.Surface) :=
  (args.zip (argTypes.zip schemas)).mapM fun (arg, ty, schema) =>
    host.decode thread schema arg ty moduleId

/-- The activation of a call; there is no answer if the target or its alias is not valid. -/
def futureActivation (s : Orchestrator host) (thread : host.Thread)
    (sourceModuleId targetModuleId funcIdx : ℕ) (args : List VmValue) (argTypes : List ℕ) :
    Option (Except String (Activation host.Surface)) := do
  match ← host.callTarget targetModuleId funcIdx with
  | .provider operation =>
    let providerAlias ← host.providerAliasFromOperation operation
    match s.providers.bind fun providers =>
        host.providerContract providers providerAlias operation with
    | none => pure (.error ("provider operation " ++ operation ++ " has no surface contract"))
    | some (symbol, schemas, _) =>
      if schemas.length ≠ args.length then
        pure (.error ("surface contract " ++ symbol ++ " expects " ++ toString schemas.length ++
          " arguments, received " ++ toString args.length))
      else
        pure ((decodeArgs thread sourceModuleId args argTypes schemas).map fun values =>
          .provider providerAlias operation values none)
  | .internal operation => pure (.ok (.internal operation sourceModuleId args))
  | .adapter proxyModule symbol =>
    let schemas := (s.adapterBindings.bind fun bindings =>
      (host.functionSignature bindings proxyModule symbol).map Prod.fst).getD []
    if schemas.length ≠ args.length then
      pure (.error ("adapter proxy expects " ++ toString schemas.length ++
        " arguments, received " ++ toString args.length))
    else
      pure ((decodeArgs thread sourceModuleId args argTypes schemas).map fun values =>
        .adapter proxyModule symbol values none)
  | .galfus => pure (.ok (.galfusFunction targetModuleId funcIdx args))

/-- Create a future for a call of a known function. The texts differ for direct and indirect
calls. -/
def createFutureFor (text : String) (threadId : ℕ) (thread : host.Thread)
    (continuation : Continuation) (lease : Lease) (moduleId targetModuleId funcIdx : ℕ)
    (args : List VmValue) (argTypes : List ℕ) (returnType : ℕ) : Orchestration host Unit := do
  let s ← Exec.get
  if host.moduleLoaded moduleId then do
    match ← Exec.unwrap
        (s.futureActivation thread moduleId targetModuleId funcIdx args argTypes) with
    | .error e =>
      failThread threadId thread ((((ExecutionFailure.new .boundaryCodecFailure
        (text ++ e.quote)).withThreadId threadId).withModuleId moduleId).withStack
          (host.executionStack thread))
    | .ok activation =>
      match ← insertFuture threadId lease fun registry key =>
          registry.create key (some returnType) (some moduleId) activation with
      | .error e => failThread threadId thread (e.withStack (host.executionStack thread))
      | .ok () => resumeOrFailFront threadId thread continuation (.future lease.id)
  else Exec.stop

def handleCreateFuture (targetModuleId funcIdx : ℕ) (args : List VmValue) (argTypes : List ℕ)
    (returnType : ℕ) : Orchestration host Unit := do
  match ← allocateFutureLease threadId thread with
  | none => pure ()
  | some lease =>
    createFutureFor "invalid future argument: " threadId thread continuation lease moduleId
      targetModuleId funcIdx args argTypes returnType

def handleCreateIndirectFuture (func : VmValue) (args : List VmValue) (argTypes : List ℕ)
    (returnType : ℕ) : Orchestration host Unit := do
  match ← allocateFutureLease threadId thread with
  | none => pure ()
  | some lease =>
    match func with
    | .function targetModuleId funcIdx =>
      createFutureFor "invalid indirect future argument: " threadId thread continuation lease
        moduleId targetModuleId funcIdx args argTypes returnType
    | _ =>
      failThread threadId thread ((((ExecutionFailure.new .invalidContinuation
        "indirect async call requires a function value").withThreadId threadId).withModuleId
          moduleId).withStack (host.executionStack thread))

/-- Create a future for an internal operation that is awaited at once, and wait for it. -/
def createAwaited : Orchestration host Unit := do
  match ← allocateFutureLease threadId thread with
  | none => pure ()
  | some lease =>
    match ← insertFuture threadId lease fun registry key =>
        registry.insertDirectAwait key returnType moduleId (.internal operation moduleId args) with
    | .error e => failThread threadId thread (e.withStack (host.executionStack thread))
    | .ok () => handleFutureWait threadId thread continuation lease.id moduleId returnType

def handleCreateAwaitFuture : Orchestration host Unit := do
  match ← tryCompleteInternalAwait threadId thread moduleId returnType operation args with
  | (some (.ok value), thread) =>
    resumeOrFailFront threadId (host.releaseArgs args thread) continuation value
  | (some (.error e), thread) =>
    failThread threadId thread ((e.withThreadId threadId).withStack (host.executionStack thread))
  | (none, thread) =>
    createAwaited threadId thread continuation moduleId operation args returnType

def abandonAggregate (coordinatorId threadId : ℕ) (thread : host.Thread) :
    Orchestration host Unit := do
  Exec.modify fun s =>
    { s with aggregateCoordinators := s.aggregateCoordinators.erase coordinatorId }
  kernelDo (·.release .pendingStates 1)
  kernelDo (·.cancel threadId)
  kernelDo (·.dropThread thread)

/-- Wait for the members of an aggregate from an index on; whether there was no failure. -/
def registerMembers (threadId coordinatorId moduleId : ℕ) (thread : host.Thread) :
    ℕ → List ℕ → Orchestration host Bool
  | _, [] => pure true
  | index, futureId :: rest => do
    let s ← Exec.get
    match s.futureRegistry.payloadSchema (threadId, futureId) with
    | none => do
      fail (activationFailure .invalidContinuation "aggregate member has no payload schema"
        threadId futureId thread)
      abandonAggregate coordinatorId threadId thread
      pure false
    | some (_, memberReturnType) => do
      Exec.modify fun s => { s with aggregateRegistration := some (coordinatorId, index) }
      handleFutureWait threadId host.newThread (.forProvider 0 moduleId memberReturnType) futureId
        moduleId memberReturnType
      Exec.modify fun s => { s with aggregateRegistration := none }
      let s ← Exec.get
      if s.failure.isSome then do
        abandonAggregate coordinatorId threadId thread
        pure false
      else registerMembers threadId coordinatorId moduleId thread (index + 1) rest

def allocateCoordinatorId : Orchestration host (Option ℕ) := do
  let s ← Exec.get
  match s.coordinatorIds.tryAllocate with
  | some (id, coordinatorIds) => do
    Exec.modify fun s => { s with coordinatorIds := coordinatorIds }
    pure (some id)
  | none => do
    failThread threadId thread (((ExecutionFailure.new .idSpaceExhausted
      "aggregate coordinator id space exhausted").withThreadId threadId).withStack
        (host.executionStack thread))
    pure none

def newCoordinator (mode : AggregateMode) (pending : PendingContinuation) (futureIds : List ℕ) :
    AggregateCoordinator host :=
  match mode with
  | .all =>
    ⟨.all, futureIds, pending, some (futureIds.map fun _ => none), futureIds.length, none, false⟩
  | .race => ⟨.race, futureIds, pending, none, 0, none, false⟩

def armCoordinator (coordinatorId : ℕ) : Orchestration host Unit :=
  Exec.modify fun s =>
    { s with aggregateCoordinators :=
        s.aggregateCoordinators.update coordinatorId fun c => { c with armed := true } }

def beginAggregateWait (futureIds : List ℕ) (mode : AggregateMode) : Orchestration host Unit := do
  match ← kernelCall (·.reserve .pendingStates 1) with
  | .error e =>
    failThread threadId thread (((ExecutionFailure.new e
      "pending states limit exceeded").withThreadId threadId).withStack
        (host.executionStack thread))
  | .ok () =>
    match ← allocateCoordinatorId threadId thread with
    | none => kernelDo (·.release .pendingStates 1)
    | some coordinatorId => do
      putCoordinator coordinatorId (newCoordinator mode ⟨threadId, continuation, moduleId,
        returnType, host.executionStack thread, .future⟩ futureIds)
      note (.gathers coordinatorId mode futureIds)
      note (.awaits threadId (.coordinator coordinatorId))
      let registered ← registerMembers threadId coordinatorId moduleId thread 0 futureIds
      if registered then do
        armCoordinator coordinatorId
        let blocked ← blockOrFail threadId thread
        if blocked then finishAggregateIfReady coordinatorId else pure ()
      else pure ()

def handleEffect (effect : VmEffect) (continuation : Continuation) : Orchestration host Unit :=
  match effect with
  | .futuresDropped futureIds => handleFutureDropped threadId thread continuation futureIds
  | .adapterHandleDropped handle =>
    handleAdapterHandleDropped threadId thread continuation handle
  | .futureWait futureId moduleId returnType =>
    handleFutureWait threadId thread continuation futureId moduleId returnType
  | .createFuture moduleId targetModuleId funcIdx args argTypes returnType =>
    handleCreateFuture threadId thread continuation moduleId targetModuleId funcIdx args argTypes
      returnType
  | .createAwaitFuture moduleId operation args _ returnType =>
    handleCreateAwaitFuture threadId thread continuation moduleId operation args returnType
  | .internalThreadCall moduleId operation args _ returnType =>
    handleInternalThreadCall threadId thread continuation moduleId operation args returnType
  | .createIndirectFuture moduleId func args argTypes returnType =>
    handleCreateIndirectFuture threadId thread continuation moduleId func args argTypes returnType
  | .futureWaitAll futureIds moduleId returnType =>
    beginAggregateWait threadId thread continuation moduleId returnType futureIds .all
  | .futureWaitRace futureIds moduleId returnType =>
    beginAggregateWait threadId thread continuation moduleId returnType futureIds .race

end Galfus.Orchestrator
