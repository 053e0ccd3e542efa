import Galfus.Runtime.EventLoop

/-! # A plain host

A host with one state for all threads, to run the runtime on.
-/

namespace Galfus.Orchestrator

/-- A host whose threads and bindings stay as they are, with no adapters and no providers. -/
def idleHost (Thread Surface Contract Schema Bindings : Type) (newThread : Thread) : Host where
  Thread := Thread
  Surface := Surface
  Contract := Contract
  Schema := Schema
  Bindings := Bindings
  Providers := Unit
  newThread := newThread
  isSpawned _ := false
  setSpawned thread := thread
  entryFunc _ := none
  setEntryFunc _ _ thread := thread
  executionStack _ := []
  initializingModule _ := none
  markModuleInitialized _ thread := thread
  beginModuleInitialization _ thread := thread
  prepareFunction thread _ _ _ := (.ok (), thread)
  resume _ thread _ _ := (.ok (), thread)
  pushInline thread _ _ _ _ := some (.ok thread)
  releaseAnchor _ thread := thread
  bytesArg _ _ := none
  spawnArgument _ _ _ thread := some (none, thread)
  takeHandleDrops thread := ([], thread)
  extractAllAdapterHandles thread := ([], thread)
  encode thread _ _ _ := (.ok .null, thread)
  decode _ _ _ _ _ := .error "surface value"
  internalMath _ _ := none
  utf8 _ := none
  moduleLoaded _ := true
  callTarget _ _ := none
  bindingId _ _ := none
  validateAdapterHandles _ _ := true
  collectAdapterHandles _ := []
  registerHandles bindings _ _ := (.ok (), bindings)
  releaseHandle bindings _ := (none, bindings)
  functionSignature _ _ _ := none
  cancelAdapter bindings _ _ _ _ := (none, bindings)
  activeHandles _ := []
  hasHost _ _ := false
  providerContract _ _ _ := none
  providerAliasFromOperation _ := none
  cancelProvider providers _ _ _ := (.confirmed, providers)
  availableTaskCapacity _ := 0

/-- A host whose functions 0 and 1 are the receive and the sleep, and whose messages are one
byte. -/
def plainHost : Host :=
  { idleHost Unit Unit Unit Unit Unit () with
    isSpawned := fun _ => true
    bytesArg := fun _ _ => some [7]
    decode := fun _ _ _ _ _ => .ok ()
    callTarget := fun _ funcIdx => some (.internal
      (if funcIdx = 0 then "__internal_thread_receive" else "__internal_thread_sleep"))
    availableTaskCapacity := fun _ => 8 }

def plainLaunch : Launch plainHost := ⟨fun _ => 1024, none, none, (), none⟩

/-- Poll once for each event. -/
def polls (events : List (RuntimeEvent plainHost)) : List (Input plainHost) :=
  events.mapIdx fun i event => .poll [(i + 1, event)]

def asks (threadId : ℕ) (effect : VmEffect) : RuntimeEvent plainHost :=
  .syscall threadId () effect (.forProvider 0 0 0)

def createSleep (timeoutMs : ℕ) : VmEffect :=
  .createFuture 0 0 1 [.int64 (BitVec.ofNat 64 timeoutMs)] [] 0

def createReceive : VmEffect := .createFuture 0 0 0 [] [] 0

def sendToFirst : VmEffect := .internalThreadCall 0 "__internal_thread_send" [.int64 1] [] 0

theorem exists_of_any {α : Type} {r : Option α} {P : α → Prop} [DecidablePred P]
    (h : r.any (fun a => decide (P a)) = true) : ∃ a, r = some a ∧ P a := by
  cases r with
  | none => cases h
  | some a => exact ⟨a, rfl, of_decide_eq_true h⟩

end Galfus.Orchestrator
