import Galfus.Queue.Recent
import Galfus.Runtime.Failure
import Galfus.Table.Basic

/-! # The registry of futures

A future belongs to a thread and is registered under its owner and its id. It is created
with an activation, which starts it; it collects waiters until it is completed with a result,
and it leaves the registry when it is discarded. The last futures that were discarded are
remembered. The types of the surface values `σ`, of the waiters `ω` and of the results `ρ`
are left open.
-/

namespace Galfus

/-- What starts a future. A request id is assigned when a host call is dispatched. -/
inductive Activation (σ : Type) where
  | galfusFunction (moduleId funcIdx : ℕ) (args : List VmValue)
  | internal (operation : String) (moduleId : ℕ) (args : List VmValue)
  | provider (providerAlias name : String) (args : List σ) (requestId : Option ℕ)
  | adapter (proxyModule symbol : String) (args : List σ) (requestId : Option ℕ)
  deriving DecidableEq

namespace Activation

variable {σ : Type}

/-- What is kept of an activation after it was started. -/
def runningDescriptor : Activation σ → Activation σ
  | galfusFunction moduleId funcIdx _ => galfusFunction moduleId funcIdx []
  | internal operation moduleId _ => internal operation moduleId []
  | provider providerAlias name _ _ => provider providerAlias name [] none
  | adapter proxyModule symbol _ _ => adapter proxyModule symbol [] none

def isGalfusFunction : Activation σ → Bool
  | galfusFunction .. => true
  | _ => false

def isExternal : Activation σ → Bool
  | provider .. | adapter .. => true
  | _ => false

end Activation

inductive FutureState (σ ρ : Type) where
  | created (activation : Activation σ)
  | running (activation : Activation σ)
  | resolved (result : ρ)
  | discarded
  deriving DecidableEq

/-- The waiters of a future. A direct await has one at most; of the others the first one is kept
apart. -/
inductive Waiters (ω : Type) where
  | shared (first : Option ω) (rest : List ω) (rest_eq_nil : first = none → rest = [])
  | direct (waiter : Option ω)
  deriving DecidableEq

namespace Waiters

variable {ω : Type}

/-- No waiters yet, `Public` in the source. -/
def none : Waiters ω := shared Option.none [] fun _ => rfl

def isEmpty : Waiters ω → Bool
  | shared first _ _ => first.isNone
  | direct waiter => waiter.isNone

def push (w : ω) : Waiters ω → Except ExecutionFailure (Waiters ω)
  | shared Option.none rest h => .ok (shared (some w) rest (by simp))
  | shared (some first) rest _ => .ok (shared (some first) (rest ++ [w]) (by simp))
  | direct Option.none => .ok (direct (some w))
  | direct (some _) =>
    .error (.new .invalidContinuation "direct-await future already has a waiter")

def toList : Waiters ω → List ω
  | shared first rest _ => first.toList ++ rest
  | direct waiter => waiter.toList

/-- What `take` leaves. -/
def cleared : Waiters ω → Waiters ω
  | shared _ _ _ => none
  | direct _ => direct Option.none

def isDirect : Waiters ω → Bool
  | shared .. => false
  | direct _ => true

@[simp] theorem toList_none : (none : Waiters ω).toList = [] := rfl

@[simp] theorem toList_cleared (ws : Waiters ω) : ws.cleared.toList = [] := by
  cases ws <;> rfl

theorem isEmpty_iff (ws : Waiters ω) : ws.isEmpty = true ↔ ws.toList = [] := by
  rcases ws with ⟨_ | first, rs, h⟩ | ⟨_ | w⟩ <;> simp_all [isEmpty, toList]

theorem toList_push {ws ws' : Waiters ω} {w : ω} (h : ws.push w = .ok ws') :
    ws'.toList = ws.toList ++ [w] := by
  rcases ws with ⟨_ | first, rs, hr⟩ | ⟨_ | w₀⟩
  · cases h
    simp [toList, hr rfl]
  · cases h
    simp [toList]
  · cases h
    rfl
  · cases h

end Waiters

inductive WaitDisposition (ω ρ : Type) where
  | registered
  | resolved (waiter : ω) (result : ρ)
  | discarded
  deriving DecidableEq

inductive DiscardDisposition (σ : Type) where
  | created (activation : Activation σ)
  | running (activation : Activation σ)
  | retained
  | terminal
  deriving DecidableEq

/-- A future. `active` is the flag that host calls look at, `none` if there is no call. -/
structure FutureRecord (σ ω ρ : Type) where
  payloadType : Option ℕ
  payloadModuleId : Option ℕ
  state : FutureState σ ρ
  waiters : Waiters ω
  active : Option Bool

abbrev FutureKey := ℕ × ℕ

structure FutureRegistry (σ ω ρ : Type) where
  records : Table FutureKey (FutureRecord σ ω ρ)
  tombstones : Recent FutureKey

def maxTombstones : ℕ := 1024

namespace FutureRegistry

variable {σ ω ρ : Type}

def new : FutureRegistry σ ω ρ := ⟨∅, .empty⟩

def failure (kind : ExecutionFailureKind) (message : String) (key : FutureKey) : ExecutionFailure :=
  ((ExecutionFailure.new kind message).withThreadId key.1).withFutureId key.2

variable (r : FutureRegistry σ ω ρ) (key : FutureKey)

def insertRecord (record : FutureRecord σ ω ρ) :
    Except ExecutionFailure Unit × FutureRegistry σ ω ρ :=
  if (r.records.lookup key).isSome then
    (.error (failure .duplicateCompletion "duplicate future id for owner thread" key), r)
  else (.ok (), { r with records := r.records.insert key record })

def create (payloadType payloadModuleId : Option ℕ) (activation : Activation σ) :
    Except ExecutionFailure Unit × FutureRegistry σ ω ρ :=
  r.insertRecord key {
    payloadType := payloadType
    payloadModuleId := payloadModuleId
    state := .created activation
    waiters := .none
    active := if activation.isExternal then some true else none }

def insertDirectAwait (payloadType payloadModuleId : ℕ) (activation : Activation σ) :
    Except ExecutionFailure Unit × FutureRegistry σ ω ρ :=
  r.insertRecord key {
    payloadType := some payloadType
    payloadModuleId := some payloadModuleId
    state := .created activation
    waiters := .direct none
    active := none }

def store (record : FutureRecord σ ω ρ) : FutureRegistry σ ω ρ :=
  { r with records := r.records.insert key record }

/-- Hand out the activation of a future that has not been started. -/
def takeActivation (accepts : Activation σ → Bool) (r : FutureRegistry σ ω ρ) (key : FutureKey) :
    Except ExecutionFailure (Option (Activation σ)) × FutureRegistry σ ω ρ :=
  match r.records.lookup key with
  | none => (.error (failure .invalidContinuation "unknown future" key), r)
  | some record =>
    match record.state with
    | .created activation =>
      if accepts activation then
        (.ok (some activation),
          r.store key { record with state := .running activation.runningDescriptor })
      else (.ok none, r)
    | _ => (.ok none, r)

def takeActivationForStart :
    Except ExecutionFailure (Option (Activation σ)) × FutureRegistry σ ω ρ :=
  r.takeActivation (fun _ => true) key

def takeInlineGalfusActivation :
    Except ExecutionFailure (Option (Activation σ)) × FutureRegistry σ ω ρ :=
  r.takeActivation Activation.isGalfusFunction key

def adapterProxyModule : Option String :=
  match r.records.lookup key with
  | some record =>
    match record.state with
    | .running (.adapter proxyModule _ _ _) => some proxyModule
    | _ => none
  | none => none

def assignRequestId (requestId : ℕ) : Except ExecutionFailure Unit × FutureRegistry σ ω ρ :=
  match r.records.lookup key with
  | none =>
    (.error (failure .invalidContinuation "unknown future while assigning request id" key), r)
  | some record =>
    match record.state with
    | .running (.provider providerAlias name args _) =>
      (.ok (), r.store key
        { record with state := .running (.provider providerAlias name args (some requestId)) })
    | .running (.adapter proxyModule symbol args _) =>
      (.ok (), r.store key
        { record with state := .running (.adapter proxyModule symbol args (some requestId)) })
    | .running _ =>
      (.error (failure .invalidContinuation
        "future activation does not dispatch an external request" key), r)
    | _ =>
      (.error (failure .invalidContinuation
        "future request id was assigned before activation started" key), r)

def requestId (r : FutureRegistry σ ω ρ) (key : FutureKey) : Option ℕ :=
  match r.records.lookup key with
  | some record =>
    match record.state with
    | .running (.provider _ _ _ requestId) | .running (.adapter _ _ _ requestId) => requestId
    | _ => none
  | none => none

def addWaiter (waiter : ω) : Except ExecutionFailure (WaitDisposition ω ρ) × FutureRegistry σ ω ρ :=
  match r.records.lookup key with
  | none => (.error (failure .invalidContinuation "unknown or foreign future" key), r)
  | some record =>
    match record.state with
    | .resolved result => (.ok (.resolved waiter result), r)
    | .discarded => (.ok .discarded, r)
    | .created _ | .running _ =>
      match record.waiters.push waiter with
      | .ok waiters => (.ok .registered, r.store key { record with waiters := waiters })
      | .error e => (.error e, r)

def recordTombstone : FutureRegistry σ ω ρ :=
  { r with tombstones := r.tombstones.record maxTombstones key }

/-- Take a record out and remember its key. The flag of its host call is cleared; nothing in
the registry refers to it any more. -/
def remove : FutureRegistry σ ω ρ :=
  { r with records := r.records.erase key }.recordTombstone key

def discardInner (force : Bool) :
    Except ExecutionFailure (DiscardDisposition σ) × FutureRegistry σ ω ρ :=
  match r.records.lookup key with
  | none => (.error (failure .invalidContinuation "unknown future" key), r)
  | some record =>
    if !force && !record.waiters.isEmpty then (.ok .retained, r)
    else
      match record.state with
      | .created activation => (.ok (.created activation), r.remove key)
      | .running activation => (.ok (.running activation), r.remove key)
      | .resolved _ | .discarded => (.ok .terminal, r.remove key)

def discard : Except ExecutionFailure (DiscardDisposition σ) × FutureRegistry σ ω ρ :=
  r.discardInner key false

def discardForRace : Except ExecutionFailure (DiscardDisposition σ) × FutureRegistry σ ω ρ :=
  r.discardInner key true

def ownedIds (owner : ℕ) : List ℕ :=
  ((r.records.keys.filter fun key => key.1 = owner).map Prod.snd).insertionSort (· ≤ ·)

def discardOwned (owner : ℕ) : List ℕ → FutureRegistry σ ω ρ →
    List (ℕ × Option (Activation σ)) × FutureRegistry σ ω ρ
  | [], r => ([], r)
  | futureId :: rest, r =>
    match r.records.lookup (owner, futureId) with
    | none => discardOwned owner rest r
    | some record =>
      let activation :=
        match record.state with
        | .running activation => some activation
        | _ => none
      let (discarded, r') := discardOwned owner rest (r.remove (owner, futureId))
      ((futureId, activation) :: discarded, r')

def discardAllForOwner (owner : ℕ) : List (ℕ × Option (Activation σ)) × FutureRegistry σ ω ρ :=
  discardOwned owner (r.ownedIds owner) r

def owners : List ℕ :=
  ((r.records.keys.map Prod.fst).dedup).insertionSort (· ≤ ·)

def discardOwners : List ℕ → FutureRegistry σ ω ρ →
    List (FutureKey × Option (Activation σ)) × FutureRegistry σ ω ρ
  | [], r => ([], r)
  | owner :: rest, r =>
    let (discarded, r') := r.discardAllForOwner owner
    let (others, r'') := discardOwners rest r'
    (discarded.map (fun p => ((owner, p.1), p.2)) ++ others, r'')

def discardAll : List (FutureKey × Option (Activation σ)) × FutureRegistry σ ω ρ :=
  discardOwners r.owners r

def complete (result : ρ) : Except ExecutionFailure (List ω) × FutureRegistry σ ω ρ :=
  match r.records.lookup key with
  | none =>
    if key ∈ r.tombstones.index then
      (.error (failure .duplicateCompletion "future completed after being discarded" key), r)
    else (.error (failure .invalidContinuation "unknown future completion" key), r)
  | some record =>
    match record.state with
    | .resolved _ | .discarded =>
      (.error (failure .duplicateCompletion "future completed after reaching a terminal state"
        key), r)
    | .created _ | .running _ =>
      (.ok record.waiters.toList,
        r.store key { record with state := .resolved result, waiters := record.waiters.cleared })

def isDirectAwait : Bool :=
  match r.records.lookup key with
  | some record => record.waiters.isDirect
  | none => false

def isPending : Bool :=
  match r.records.lookup key with
  | some record =>
    match record.state with
    | .created _ | .running _ => true
    | .resolved _ | .discarded => false
  | none => false

def waitersOf : List ω :=
  match r.records.lookup key with
  | some record => record.waiters.toList
  | none => []

def payloadSchema : Option (ℕ × ℕ) := do
  let record ← r.records.lookup key
  return (← record.payloadModuleId, ← record.payloadType)

def activeFlag : Option Bool := do
  let record ← r.records.lookup key
  record.active

end FutureRegistry

end Galfus
