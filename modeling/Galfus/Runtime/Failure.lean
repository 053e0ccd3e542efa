import Galfus.Heap.Object

/-! # Execution failures

The failures that the runtime reports, with the thread, the future, the request and the
module that they are about.
-/

namespace Galfus

inductive ExecutionFailureKind where
  | vmPanic | invalidBytecode | missingProvider | providerFailure | missingAdapter
  | adapterLoadFailure | adapterCallFailure | boundaryCodecFailure | heapExhausted
  | initializationFailure | timeout | cancelled | invalidContinuation | duplicateThreadKey
  | duplicateCompletion | hostProtocolViolation | driverFailure | internalRuntimeFailure
  | idSpaceExhausted
  | resourceLimitExceeded (limit : LimitExceeded)
  deriving DecidableEq, Repr

def ResourceLimitKind.debug : ResourceLimitKind → String
  | heapObjects => "HeapObjects"
  | heapBytes => "HeapBytes"
  | callDepth => "CallDepth"
  | threads => "Threads"
  | futures => "Futures"
  | pendingRequests => "PendingRequests"
  | mailboxMessages => "MailboxMessages"
  | mailboxBytes => "MailboxBytes"
  | eventQueue => "EventQueue"
  | kernelTasks => "KernelTasks"
  | runnableThreads => "RunnableThreads"
  | externalHandles => "ExternalHandles"
  | timers => "Timers"
  | pendingStates => "PendingStates"

def ExecutionFailureKind.debug : ExecutionFailureKind → String
  | vmPanic => "VmPanic"
  | invalidBytecode => "InvalidBytecode"
  | missingProvider => "MissingProvider"
  | providerFailure => "ProviderFailure"
  | missingAdapter => "MissingAdapter"
  | adapterLoadFailure => "AdapterLoadFailure"
  | adapterCallFailure => "AdapterCallFailure"
  | boundaryCodecFailure => "BoundaryCodecFailure"
  | heapExhausted => "HeapExhausted"
  | initializationFailure => "InitializationFailure"
  | timeout => "Timeout"
  | cancelled => "Cancelled"
  | invalidContinuation => "InvalidContinuation"
  | duplicateThreadKey => "DuplicateThreadKey"
  | duplicateCompletion => "DuplicateCompletion"
  | hostProtocolViolation => "HostProtocolViolation"
  | driverFailure => "DriverFailure"
  | internalRuntimeFailure => "InternalRuntimeFailure"
  | idSpaceExhausted => "IdSpaceExhausted"
  | resourceLimitExceeded limit =>
    "ResourceLimitExceeded \x7b resource: " ++ limit.resource.debug ++ ", current: " ++
      toString limit.current ++ ", requested: " ++ toString limit.requested ++ ", limit: " ++
      toString limit.limit ++ " \x7d"

structure ExecutionFrame where
  moduleId : ℕ
  functionId : ℕ
  instructionOffset : ℕ
  deriving DecidableEq, Repr

structure ExecutionFailure where
  kind : ExecutionFailureKind
  message : String
  threadId : Option ℕ
  futureId : Option ℕ
  requestId : Option ℕ
  moduleId : Option ℕ
  functionId : Option ℕ
  stack : List ExecutionFrame
  cause : Option ExecutionFailure
  deriving Repr

namespace ExecutionFailure

def new (kind : ExecutionFailureKind) (message : String) : ExecutionFailure :=
  ⟨kind, message, none, none, none, none, none, [], none⟩

variable (e : ExecutionFailure)

def withThreadId (threadId : ℕ) : ExecutionFailure :=
  { e with threadId := some threadId }

def withModuleId (moduleId : ℕ) : ExecutionFailure :=
  { e with moduleId := some moduleId }

/-- `with_request_lease`, which keeps the id of the lease. -/
def withRequestId (requestId : ℕ) : ExecutionFailure :=
  { e with requestId := some requestId }

def withFutureId (futureId : ℕ) : ExecutionFailure :=
  { e with futureId := some futureId }

def withCause (cause : ExecutionFailure) : ExecutionFailure :=
  { e with cause := some cause }

def withStack (stack : List ExecutionFrame) : ExecutionFailure :=
  { e with stack := stack }

/-- `with_execution_stack`: a stack that is there stays. -/
def withExecutionStack (stack : List ExecutionFrame) : ExecutionFailure :=
  if e.stack.isEmpty then e.withStack stack else e

def display : String := e.kind.debug ++ ": " ++ e.message

end ExecutionFailure

end Galfus
