import Galfus.Adapter.Bindings
import Galfus.Adapter.Encode
import Galfus.Runtime.PlainHost

/-! # A host with adapters

A host whose threads are heaps, with the surface values, the bindings and the encodings of the
source.
-/

namespace Galfus

def AdapterReleaseError.display (e : AdapterReleaseError) : String :=
  "adapter handle release failed [" ++ e.code ++ "]: " ++ e.message

def OpaqueTypeId.debug (typeId : OpaqueTypeId) : String :=
  "OpaqueTypeId \x7b proxy_module: " ++ typeId.proxyModule.quote ++ ", name: " ++
    typeId.name.quote ++ " \x7d"

def AdapterBindingReleaseError.display : AdapterBindingReleaseError → String
  | adapterReleaseFailed handle error =>
    "adapter binding BindingId(" ++ toString handle.bindingId ++ ") could not release handle " ++
      handle.typeId.debug ++ "/HandleId(" ++ toString handle.id ++ "): " ++ error.display

def AdapterBindingError.display : AdapterBindingError → String
  | duplicateProxyModule proxyModule =>
    "adapter binding for proxy module `" ++ proxyModule ++ "` is already registered"
  | idSpaceExhausted domain => "id space for domain `" ++ domain ++ "` is exhausted"
  | invalidHandle => "handle is invalid or duplicated"
  | compensationReleaseFailed error =>
    "could not compensate a rejected handle batch: " ++ error.display

def AdapterBindingError.failure (e : AdapterBindingError) : ExecutionFailure :=
  .new (match e with
    | idSpaceExhausted _ => .idSpaceExhausted
    | duplicateProxyModule _ | invalidHandle => .boundaryCodecFailure
    | compensationReleaseFailed _ => .adapterCallFailure) e.display

namespace PrivateHeap

/-- `extract_adapter_handles`: the handles on the heap, whose objects are freed. -/
def extractAdapterHandles (h : PrivateHeap) : List AdapterHandleId × PrivateHeap :=
  let found := h.objects.zipIdx.filterMap fun (slot, index) =>
    (slot.object.bind HeapObject.handle?).map fun handle =>
      (handle, (⟨index, slot.generation⟩ : VmObjectRef))
  (found.map Prod.fst, found.foldl (fun h p => h.orKeep (h.freeObject p.2)) h)

def extractAllAdapterHandles (h : PrivateHeap) : List AdapterHandleId × PrivateHeap :=
  let (handles, h') := { h with pendingAdapterHandleDrops := [] }.extractAdapterHandles
  (h.pendingAdapterHandleDrops ++ handles, h')

def takeHandleDrops (h : PrivateHeap) : List AdapterHandleId × PrivateHeap :=
  (h.pendingAdapterHandleDrops, { h with pendingAdapterHandleDrops := [] })

/-- `encode_future_value_into_thread_heap` for the value of an adapter. -/
def encodeResult (h : PrivateHeap) (module : BytecodeModule)
    (value : FutureValue SurfaceSchema SurfaceValue) (expected moduleId : ℕ) :
    Except String VmValue × PrivateHeap :=
  match value with
  | .surface schema value bindingId =>
    let target : SurfaceTarget := ⟨moduleId, module, bindingId, .doubling, fun _ => .ascending⟩
    match target.encodeSurface schema value expected h with
    | some (.ok v, h) => (.ok v, h)
    | some (.error _, h) => (.error "surface value", h)
    | none => (.error "heap", h)
  | _ => (.error "future result does not match", h)

end PrivateHeap

namespace AdapterBindings

variable {M : Type} [AdapterModuleBinding M]

def registerOrFail (b : AdapterBindings M) (bindingId : ℕ) (handles : List (OpaqueTypeId × ℕ)) :
    Except ExecutionFailure Unit × AdapterBindings M :=
  match b.registerHandles bindingId handles with
  | (.ok (), b) => (.ok (), b)
  | (.error e, b) => (.error e.failure, b)

def releaseOrReport (b : AdapterBindings M) (handle : AdapterHandleId) :
    Option (Except String Unit) × AdapterBindings M :=
  match b.releaseHandle handle with
  | (none, b) => (none, b)
  | (some (.ok ()), b) => (some (.ok ()), b)
  | (some (.error e), b) => (some (.error e.display), b)

theorem registerOrFail_eq_ok {b b' : AdapterBindings M} {bi : ℕ} {hs : List (OpaqueTypeId × ℕ)}
    (h : b.registerOrFail bi hs = (.ok (), b')) :
    b.registerHandles bi hs = (.ok (), b') := by
  unfold registerOrFail at h
  split at h
  · next heq =>
    cases h
    exact heq
  · cases h

end AdapterBindings

def adapterHost (M : Type) [AdapterModuleBinding M] (module : BytecodeModule) (heap : PrivateHeap) :
    Host :=
  { Orchestrator.idleHost PrivateHeap SurfaceValue SurfaceSchema SurfaceSchema (AdapterBindings M)
      heap with
    releaseAnchor := fun r thread => thread.orKeep (thread.releaseAnchor r)
    takeHandleDrops := PrivateHeap.takeHandleDrops
    extractAllAdapterHandles := PrivateHeap.extractAllAdapterHandles
    encode := fun thread value expected moduleId =>
      thread.encodeResult module value expected moduleId
    decode := fun _ _ _ _ _ => .ok .null
    bindingId := AdapterBindings.bindingId
    validateAdapterHandles := fun value proxyModule => value.validateAdapterHandles proxyModule
    collectAdapterHandles := SurfaceValue.collectAdapterHandles
    registerHandles := AdapterBindings.registerOrFail
    releaseHandle := AdapterBindings.releaseOrReport
    activeHandles := AdapterBindings.activeHandles }

end Galfus
