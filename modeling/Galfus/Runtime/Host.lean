import Galfus.Runtime.Ids
import Galfus.Runtime.Quota
import Galfus.Runtime.Futures
import Galfus.Vm.Execute

/-! # The host of the runtime

What the runtime uses of the virtual machine, of the boundary codecs, of adapters, of
providers and of the driver. The runtime does not look into thread states; it hands them to
the operations of the host.
-/

namespace Galfus

/-- `FutureValue`: a result that belongs to no heap. -/
inductive FutureValue (κ σ : Type) where
  | int8 (x : BitVec 8)
  | int16 (x : BitVec 16)
  | i32 (x : BitVec 32)
  | i64 (x : BitVec 64)
  | uint8 (x : BitVec 8)
  | uint16 (x : BitVec 16)
  | uint32 (x : BitVec 32)
  | uint64 (x : BitVec 64)
  | f32 (bits : BitVec 32)
  | f64 (bits : BitVec 64)
  | bool (b : Bool)
  | null
  | function (moduleId funcIdx : ℕ)
  | array (elements : List (FutureValue κ σ))
  | tuple (elements : List (FutureValue κ σ))
  | struct (fields : List (FutureValue κ σ))
  | choice (variantIdx : ℕ) (payload : Option (FutureValue κ σ))
  | handle (handle : AdapterHandleId)
  | surface (contract : κ) (value : σ) (adapterBindingId : Option ℕ)
  | aggregate (values : List (FutureValue κ σ))

/-- The array of bytes that a message becomes. -/
def FutureValue.bytes {κ σ : Type} (data : List (BitVec 8)) : FutureValue κ σ :=
  .array (data.map .uint8)

inductive CancellationOutcome where
  | confirmed | bestEffort | unsupported | alreadyCompleted
  deriving DecidableEq, Repr

/-- What a function is, by its name (`__provider_*` without this start, `__internal_*`) or by
its adapter metadata, a proxy module and a symbol. -/
inductive CallTarget where
  | provider (operation : String)
  | internal (operation : String)
  | adapter (proxyModule symbol : String)
  | galfus
  deriving DecidableEq

/-- What the runtime is run with: the thread states, the codecs, the adapter bindings, the
providers, and how many tasks the driver takes each time. A missing answer is a panic. -/
structure Host where
  Thread : Type
  Surface : Type
  Contract : Type
  Schema : Type
  Bindings : Type
  Providers : Type
  /-- `VmThreadState::new`. -/
  newThread : Thread
  isSpawned : Thread → Bool
  setSpawned : Thread → Thread
  entryFunc : Thread → Option (ℕ × ℕ)
  setEntryFunc : ℕ → ℕ → Thread → Thread
  executionStack : Thread → List ExecutionFrame
  initializingModule : Thread → Option ℕ
  markModuleInitialized : ℕ → Thread → Thread
  beginModuleInitialization : ℕ → Thread → Thread
  prepareFunction : Thread → ℕ → ℕ → List VmValue → Except String Unit × Thread
  resume : ℕ → Thread → Continuation → VmValue → Except ExecutionFailure Unit × Thread
  /-- Push the frame of a function with its arguments, for an await that runs it inline. -/
  pushInline : Thread → ℕ → ℕ → List VmValue → Option ℕ → Option (Except String Thread)
  releaseAnchor : VmObjectRef → Thread → Thread
  /-- `internal_bytes_arg`. -/
  bytesArg : Thread → Option VmValue → Option (List (BitVec 8))
  /-- Copy the argument of a spawn from the heap of the caller to the heap of the target. -/
  spawnArgument : Thread → ℕ → Option VmValue → Thread → Option (Option VmValue × Thread)
  /-- The handles that were dropped since the last time. -/
  takeHandleDrops : Thread → List AdapterHandleId × Thread
  extractAllAdapterHandles : Thread → List AdapterHandleId × Thread
  /-- `encode_future_value_into_thread_heap`. -/
  encode : Thread → FutureValue Contract Surface → ℕ → ℕ → Except String VmValue × Thread
  /-- `decode_surface_from_thread_heap`. -/
  decode : Thread → Schema → VmValue → ℕ → ℕ → Except String Surface
  /-- The functions `__internal_math_*`. -/
  internalMath : String → List VmValue → Option (FutureValue Contract Surface)
  utf8 : List (BitVec 8) → Option String
  moduleLoaded : ℕ → Bool
  callTarget : ℕ → ℕ → Option CallTarget
  bindingId : Bindings → String → Option ℕ
  validateAdapterHandles : Surface → String → Bool
  collectAdapterHandles : Surface → List (OpaqueTypeId × ℕ)
  registerHandles : Bindings → ℕ → List (OpaqueTypeId × ℕ) → Except ExecutionFailure Unit × Bindings
  /-- Release a handle; there is no answer if it was not registered. -/
  releaseHandle : Bindings → AdapterHandleId → Option (Except String Unit) × Bindings
  /-- The parameters of an adapter function and the contract of its result. -/
  functionSignature : Bindings → String → String → Option (List Schema × Contract)
  cancelAdapter : Bindings → String → String → ℕ → Lease → Option CancellationOutcome × Bindings
  activeHandles : Bindings → List AdapterHandleId
  hasHost : Providers → String → Bool
  /-- The bridge symbol and the parameters of a provider operation, and the contract of its
  result. -/
  providerContract : Providers → String → String → Option (String × List Schema × Contract)
  providerAliasFromOperation : String → Option String
  cancelProvider : Providers → String → ℕ → Lease → CancellationOutcome × Providers
  availableTaskCapacity : ℕ → ℕ

namespace Host

abbrev Value (host : Host) : Type := FutureValue host.Contract host.Surface

abbrev Result (host : Host) : Type := Except ExecutionFailure host.Value

variable (host : Host)

def releaseArgs (args : List VmValue) (thread : host.Thread) : host.Thread :=
  args.foldl (fun t v =>
    match v with
    | .object r => host.releaseAnchor r t
    | _ => t) thread

end Host

end Galfus
