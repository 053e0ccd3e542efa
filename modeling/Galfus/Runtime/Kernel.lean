import Mathlib.Algebra.GroupWithZero.Nat
import Galfus.Runtime.Host
import Galfus.Table.Sorted

/-! # The virtual kernel

The control blocks of the threads with their mailboxes, the queue of the threads that can
run, and the threads that are blocked. All threads share one global quota, which is kept
here; a thread state that is dropped gives back its place among the threads.
-/

namespace Galfus

/-- `ThreadState` of the thread registry. -/
inductive ThreadStatus where
  | created
  | running
  | exited (result : Except ExecutionFailure (BitVec 32))

namespace ThreadStatus

def isRunning : ThreadStatus → Bool
  | running => true
  | _ => false

def isExited : ThreadStatus → Bool
  | exited _ => true
  | _ => false

def exitReason : ThreadStatus → Option (Except ExecutionFailure (BitVec 32))
  | exited result => some result
  | _ => none

def isCreated : ThreadStatus → Bool
  | created => true
  | _ => false

end ThreadStatus

structure MailboxMessage where
  senderId : ℕ
  data : List (BitVec 8)
  deriving DecidableEq

/-- A control block. The mailbox goes when the thread exits. -/
structure ThreadControlBlock (host : Host) where
  state : ThreadStatus
  mailbox : Option (List MailboxMessage)
  quota : MailboxQuota
  key : Option String
  vmState : Option host.Thread

structure ThreadRegistry (host : Host) where
  tcbs : Table ℕ (ThreadControlBlock host)
  keys : Table String ℕ
  exitedOrder : List ℕ
  activeCount : ℕ

def maxExitedTombstones : ℕ := 1024

/-- Wrapping `u64` counters. -/
def wrappingSucc (n : ℕ) : ℕ := (n + 1) % usizeSize

def saturatingAdd (a b : ℕ) : ℕ := usizeSaturatingAdd a b

/-- The runnable threads: entries with a token and whether they came in front. Those with the
current token of the thread count. -/
structure RunnableQueue where
  queue : List (ℕ × ℕ × Bool)
  queued : Table ℕ ℕ
  nextToken : ℕ

namespace RunnableQueue

def new : RunnableQueue := ⟨[], ∅, 0⟩

def contains (q : RunnableQueue) (id : ℕ) : Bool := (q.queued.lookup id).isSome

def enqueue (q : RunnableQueue) (id : ℕ) : RunnableQueue :=
  if q.contains id then q
  else
    let token := wrappingSucc q.nextToken
    ⟨q.queue ++ [(id, token, false)], q.queued.insert id token, token⟩

def enqueueFront (q : RunnableQueue) (id : ℕ) : RunnableQueue :=
  if q.contains id then q
  else
    let token := wrappingSucc q.nextToken
    ⟨(id, token, true) :: q.queue, q.queued.insert id token, token⟩

/-- Drop entries until one counts. -/
def dequeueFrom (queued : Table ℕ ℕ) :
    List (ℕ × ℕ × Bool) → Option (ℕ × Bool) × List (ℕ × ℕ × Bool) × Table ℕ ℕ
  | [] => (none, [], queued)
  | (id, token, front) :: rest =>
    if queued.lookup id = some token then (some (id, front), rest, queued.erase id)
    else dequeueFrom queued rest

def dequeueDetailed (q : RunnableQueue) : Option (ℕ × Bool) × RunnableQueue :=
  let (next, queue, queued) := dequeueFrom q.queued q.queue
  (next, { q with queue := queue, queued := queued })

def remove (q : RunnableQueue) (id : ℕ) : Bool × RunnableQueue :=
  (q.contains id, { q with queued := q.queued.erase id })

end RunnableQueue

structure TimerEntry where
  deadlineMs : ℕ
  timerId : ℕ
  threadId : ℕ
  deriving DecidableEq, Ord

/-- The blocked threads. The timers are in ascending order; a thread has one that counts. -/
structure BlockedQueue where
  blocked : Finset ℕ
  clockMs : ℕ
  timerIds : IdManager
  timers : List TimerEntry
  activeTimers : Table ℕ TimerEntry

namespace BlockedQueue

def new : BlockedQueue := ⟨∅, 0, .new 1, [], ∅⟩

variable (q : BlockedQueue)

/-- Whether there was a timer. -/
def removeTimer (id : ℕ) : Bool × BlockedQueue :=
  match q.activeTimers.lookup id with
  | some timer =>
    (true, { q with
      activeTimers := q.activeTimers.erase id
      timers := q.timers.filter (· ≠ timer)
      timerIds := q.timerIds.free timer.timerId })
  | none => (false, q)

def block (id : ℕ) : Bool × BlockedQueue :=
  let (hadTimer, q) := q.removeTimer id
  (hadTimer, { q with blocked := insert id q.blocked })

def blockWithTimeout (id timeoutMs : ℕ) : Except ExecutionFailure Bool × BlockedQueue :=
  match q.timerIds.tryAllocate with
  | none => (.error (.new .idSpaceExhausted "timer id space exhausted"), q)
  | some (timerId, timerIds) =>
    let timer : TimerEntry := ⟨saturatingAdd q.clockMs timeoutMs, timerId, id⟩
    let (hadTimer, q) := { q with timerIds := timerIds }.removeTimer id
    (.ok hadTimer, { q with
      blocked := insert id q.blocked
      timers := insertSorted timer q.timers
      activeTimers := q.activeTimers.insert id timer })

/-- Whether the thread was blocked and whether it had a timer. -/
def unblock (id : ℕ) : (Bool × Bool) × BlockedQueue :=
  let (hadTimer, q) := q.removeTimer id
  ((decide (id ∈ q.blocked), hadTimer), { q with blocked := q.blocked.erase id })

/-- Whether there was a timer, if the thread was blocked. -/
def remove (id : ℕ) : Option Bool × BlockedQueue :=
  let ((wasBlocked, hadTimer), q) := q.unblock id
  (if wasBlocked then some hadTimer else none, q)

/-- Wake the threads whose timers are due; the list is that of the timers that are left. -/
def expire (q : BlockedQueue) : List TimerEntry → List ℕ × BlockedQueue
  | [] => ([], { q with timers := [] })
  | timer :: rest =>
    if timer.deadlineMs > q.clockMs then ([], { q with timers := timer :: rest })
    else if q.activeTimers.lookup timer.threadId ≠ some timer then q.expire rest
    else
      let wasBlocked := decide (timer.threadId ∈ q.blocked)
      let (wokeUp, q) := { q with
        activeTimers := q.activeTimers.erase timer.threadId
        timerIds := q.timerIds.free timer.timerId
        blocked := q.blocked.erase timer.threadId }.expire rest
      (if wasBlocked then timer.threadId :: wokeUp else wokeUp, q)

def tickTimeouts (deltaMs : ℕ) : List ℕ × BlockedQueue :=
  { q with clockMs := saturatingAdd q.clockMs deltaMs }.expire q.timers

end BlockedQueue

structure VirtualKernel (host : Host) where
  threadIds : IdManager
  registry : ThreadRegistry host
  runnable : RunnableQueue
  blocked : BlockedQueue
  quota : GlobalQuota

namespace VirtualKernel

variable {host : Host}

def new (limits : ResourceLimitKind → ℕ) : VirtualKernel host :=
  ⟨.new 1, ⟨∅, ∅, [], 0⟩, .new, .new, .new limits⟩

variable (k : VirtualKernel host) (id : ℕ) (thread : host.Thread)

def reserve (kind : ResourceLimitKind) (amount : ℕ) :
    Except ExecutionFailureKind Unit × VirtualKernel host :=
  match k.quota.tryReserve kind amount with
  | .ok quota => (.ok (), { k with quota := quota })
  | .error e => (.error e, k)

theorem reserve_cases (kn : ResourceLimitKind) (a : ℕ) :
    (∃ e, k.reserve kn a = (.error e, k)) ∨ k.reserve kn a =
        (.ok (), { k with quota := k.quota.setUsed kn (k.quota.used kn + a) }) := by
  unfold reserve GlobalQuota.tryReserve
  split_ifs
  · exact .inl ⟨_, rfl⟩
  · exact .inr rfl

def release (kind : ResourceLimitKind) (amount : ℕ) : VirtualKernel host :=
  { k with quota := k.quota.release kind amount }

def dropThread : VirtualKernel host :=
  if host.isSpawned thread then k.release .threads 1 else k

def dropThread? : Option host.Thread → VirtualKernel host
  | some thread => k.dropThread thread
  | none => k

/-- Replace the control block of a thread that has one. -/
def setTcb (tcb : ThreadControlBlock host) : VirtualKernel host :=
  { k with registry := { k.registry with tcbs := k.registry.tcbs.insert id tcb } }

def tcb? : Option (ThreadControlBlock host) :=
  k.registry.tcbs.lookup id

def keyIsAvailable : Option String → Bool
  | some key => (k.registry.keys.lookup key).isNone
  | none => true

/-- `register`. -/
def park (key : Option String) : Except ExecutionFailure Unit × VirtualKernel host :=
  if k.keyIsAvailable key then
    let keys :=
      match key with
      | some key => k.registry.keys.insert key id
      | none => k.registry.keys
    let tcb : ThreadControlBlock host :=
      ⟨.created, some [], .new k.quota.limits, key, some thread⟩
    (.ok (), { k with registry := { k.registry with
      tcbs := k.registry.tcbs.insert id tcb
      keys := keys
      activeCount := k.registry.activeCount + 1 } })
  else
    (.error (.new .duplicateThreadKey
      ("thread key '" ++ key.getD "" ++ "' is already registered")), k)

def getMailbox : Option (List MailboxMessage) :=
  (k.tcb? id).bind fun tcb => tcb.mailbox

def setMailbox (mailbox : List MailboxMessage) : VirtualKernel host :=
  match k.tcb? id with
  | some tcb => k.setTcb id { tcb with mailbox := some mailbox }
  | none => k

/-- The message that a receive takes: the first one, or the first one of a sender. -/
def messageIndex (senderId : Option ℕ) (mailbox : List MailboxMessage) : Option ℕ :=
  match senderId with
  | none => if mailbox.isEmpty then none else some 0
  | some senderId => mailbox.findIdx? fun message => message.senderId == senderId

def takeMessage (senderId : Option ℕ) : Option MailboxMessage × VirtualKernel host :=
  match k.getMailbox id with
  | none => (none, k)
  | some mailbox =>
    match messageIndex senderId mailbox with
    | none => (none, k)
    | some index => (mailbox[index]?, k.setMailbox id (mailbox.eraseIdx index))

def getThreadQuota : Option MailboxQuota :=
  (k.tcb? id).map fun tcb => tcb.quota

def setThreadQuota (quota : MailboxQuota) : VirtualKernel host :=
  match k.tcb? id with
  | some tcb => k.setTcb id { tcb with quota := quota }
  | none => k

def releaseMessage (message : MailboxMessage) : VirtualKernel host :=
  match k.getThreadQuota id with
  | some quota =>
    k.setThreadQuota id ((quota.releaseMailboxMessages 1).releaseMailboxBytes message.data.length)
  | none => k

def lookupKey (key : String) : Option ℕ := k.registry.keys.lookup key

def state : Option ThreadStatus :=
  (k.tcb? id).map fun tcb => tcb.state

def isRunning : Bool := (k.state id).any (·.isRunning)

def isExited : Bool := (k.state id).any (·.isExited)

def take : Option host.Thread × VirtualKernel host :=
  match k.tcb? id with
  | some tcb => (tcb.vmState, k.setTcb id { tcb with vmState := none })
  | none => (none, k)

def takeCreatedThread : Option host.Thread × VirtualKernel host :=
  if (k.state id).any (·.isCreated) then k.take id else (none, k)

/-- `restore_vm_state`, which drops the state that was there, or the new one if the thread is
not registered. -/
def restoreVmState : VirtualKernel host :=
  match k.tcb? id with
  | some tcb => (k.setTcb id { tcb with vmState := some thread }).dropThread? tcb.vmState
  | none => k.dropThread thread

/-- `mark_spawned` on a thread whose state is here. -/
def markSpawned : Except ExecutionFailureKind Unit × VirtualKernel host :=
  match k.tcb? id with
  | some tcb =>
    match tcb.vmState with
    | some thread =>
      match k.reserve .threads 1 with
      | (.ok (), k) => (.ok (), k.setTcb id { tcb with vmState := some (host.setSpawned thread) })
      | (.error e, k) => (.error e, k)
    | none => (.ok (), k)
  | none => (.ok (), k)

def markRunning : VirtualKernel host :=
  match k.tcb? id with
  | some tcb => if tcb.state.isExited then k else k.setTcb id { tcb with state := .running }
  | none => k

def forget : VirtualKernel host :=
  match k.tcb? id with
  | some tcb =>
    let keys :=
      match tcb.key with
      | some key => k.registry.keys.erase key
      | none => k.registry.keys
    { k with registry := { k.registry with
      tcbs := k.registry.tcbs.erase id
      keys := keys } }.dropThread? tcb.vmState
  | none => k

/-- Forget the threads that exited first while too many are remembered. -/
def expireExited : List ℕ → VirtualKernel host → VirtualKernel host
  | [], k => k
  | first :: rest, k =>
    if maxExitedTombstones < (first :: rest).length then
      expireExited rest
        ({ k with registry := { k.registry with exitedOrder := rest } }.forget first)
    else k

/-- `mark_exited`. The messages that are left are given back to the quota of the thread. -/
def markExited (result : Except ExecutionFailure (BitVec 32)) : VirtualKernel host :=
  let k := k.restoreVmState id thread
  match k.tcb? id with
  | some tcb =>
    if tcb.state.isExited then k
    else
      let messages := tcb.mailbox.getD []
      let quota := (tcb.quota.releaseMailboxMessages messages.length).releaseMailboxBytes
        (messages.map fun m => m.data.length).sum
      let k := (k.setTcb id
        { tcb with state := .exited result, mailbox := none, quota := quota, vmState := none
          }).dropThread? tcb.vmState
      expireExited (k.registry.exitedOrder ++ [id]) { k with registry := { k.registry with
        activeCount := k.registry.activeCount - 1
        exitedOrder := k.registry.exitedOrder ++ [id] } }
  | none => k

/-- The id of the new thread. A state that is not registered is dropped. -/
def spawn (key : Option String) : Except ExecutionFailure ℕ × VirtualKernel host :=
  match k.reserve .threads 1 with
  | (.error kind, k) => (.error (.new kind "max threads limit exceeded"), k)
  | (.ok (), k) =>
    let thread := host.setSpawned thread
    if k.keyIsAvailable key then
      match k.threadIds.tryAllocate with
      | none =>
        (.error (.new .idSpaceExhausted "thread id space exhausted"), k.dropThread thread)
      | some (id, threadIds) =>
        match { k with threadIds := threadIds }.park id thread key with
        | (.ok (), k) => (.ok id, k)
        | (.error e, k) => (.error e, { k with threadIds := k.threadIds.free id }.dropThread thread)
    else
      (.error (.new .duplicateThreadKey
        ("thread key '" ++ key.getD "" ++ "' is already registered")), k.dropThread thread)

def enqueueWith (enqueue : RunnableQueue → ℕ → RunnableQueue) (k : VirtualKernel host) (id : ℕ)
    (thread : host.Thread) : Except ExecutionFailureKind Unit × VirtualKernel host :=
  if k.runnable.contains id then (.ok (), k.restoreVmState id thread)
  else
    match k.reserve .runnableThreads 1 with
    | (.ok (), k) =>
      let k := k.restoreVmState id thread
      (.ok (), { k with runnable := enqueue k.runnable id })
    | (.error e, k) => (.error e, k.restoreVmState id thread)

def enqueueRunnable : Except ExecutionFailureKind Unit × VirtualKernel host :=
  k.enqueueWith RunnableQueue.enqueue id thread

def enqueueRunnableFront : Except ExecutionFailureKind Unit × VirtualKernel host :=
  k.enqueueWith RunnableQueue.enqueueFront id thread

def parkRunning : VirtualKernel host :=
  k.restoreVmState id thread

def releaseTimer (hadTimer : Bool) : VirtualKernel host :=
  if hadTimer then k.release .timers 1 else k

/-- Block a thread. If the ids of the timers are used up the state of the thread is dropped. -/
def block (timeout : Option ℕ) : Except ExecutionFailure Unit × VirtualKernel host :=
  match k.reserve .pendingStates 1 with
  | (.error e, k) =>
    (.error ((ExecutionFailure.new e "pending states limit exceeded").withThreadId id),
      k.restoreVmState id thread)
  | (.ok (), k) =>
    match timeout with
    | some ms =>
      match k.reserve .timers 1 with
      | (.error e, k) =>
        (.error ((ExecutionFailure.new e "timers limit exceeded").withThreadId id),
          (k.release .pendingStates 1).restoreVmState id thread)
      | (.ok (), k) =>
        match k.blocked.blockWithTimeout id ms with
        | (.error e, _) => (.error e, k.dropThread thread)
        | (.ok hadTimer, blocked) =>
          (.ok (), (({ k with blocked := blocked }).releaseTimer hadTimer).restoreVmState id thread)
    | none =>
      let (hadTimer, blocked) := k.blocked.block id
      (.ok (), (({ k with blocked := blocked }).releaseTimer hadTimer).restoreVmState id thread)

/-- Whether the thread was blocked; then it becomes runnable. -/
def unblock : Except ExecutionFailureKind Bool × VirtualKernel host :=
  let ((wasBlocked, hadTimer), blocked) := k.blocked.unblock id
  let k := { k with blocked := blocked }
  if wasBlocked then
    match k.take id with
    | (some thread, k) =>
      match ((k.release .pendingStates 1).releaseTimer hadTimer).enqueueRunnable id thread with
      | (.ok (), k) => (.ok true, k)
      | (.error e, k) => (.error e, k)
    | (none, k) => (.ok false, k)
  else (.ok false, k)

/-- Whether the thread runs outside of the kernel. -/
def isOut : Bool :=
  (k.tcb? id).any (fun tcb => tcb.state.isRunning && tcb.vmState.isNone) &&
    !decide (id ∈ k.blocked.blocked) && !k.runnable.contains id

/-- Give back what a thread that is cancelled had reserved. -/
def releaseCancelled (wasRunnable : Bool) (blockedInfo : Option Bool) : VirtualKernel host :=
  let k := if wasRunnable then k.release .runnableThreads 1 else k
  match blockedInfo with
  | some hadTimer => (k.release .pendingStates 1).releaseTimer hadTimer
  | none => k

def removeTcb : Bool × VirtualKernel host :=
  let exitedOrder := k.registry.exitedOrder.filter (· ≠ id)
  match k.tcb? id with
  | some tcb =>
    let activeCount :=
      if tcb.state.isExited then k.registry.activeCount else k.registry.activeCount - 1
    (true, { k with registry := { k.registry with
      exitedOrder := exitedOrder
      activeCount := activeCount } }.forget id)
  | none => (false, { k with registry := { k.registry with exitedOrder := exitedOrder } })

def cancel : VirtualKernel host :=
  let (wasRunnable, runnable) := k.runnable.remove id
  let (blockedInfo, blocked) := k.blocked.remove id
  let (thread, k) := { k with runnable := runnable, blocked := blocked }.take id
  let k := if thread.isSome then k.releaseCancelled wasRunnable blockedInfo else k
  let (removed, k) := k.removeTcb id
  (if removed then { k with threadIds := k.threadIds.free id } else k).dropThread? thread

def nextRunnableDetailed : Option (ℕ × Bool) × VirtualKernel host :=
  let (next, runnable) := k.runnable.dequeueDetailed
  (next, { k with runnable := runnable })

def wake : List ℕ → VirtualKernel host →
    List (ℕ × Except ExecutionFailureKind Unit) × VirtualKernel host
  | [], k => ([], k)
  | id :: rest, k =>
    match k.take id with
    | (some thread, k) =>
      let (result, k) := ((k.release .pendingStates 1).release .timers 1).enqueueRunnable id thread
      let (results, k) := wake rest k
      ((id, result) :: results, k)
    | (none, k) => wake rest k

def tick (deltaMs : ℕ) : List (ℕ × Except ExecutionFailureKind Unit) × VirtualKernel host :=
  let (wokeUp, blocked) := k.blocked.tickTimeouts deltaMs
  wake wokeUp { k with blocked := blocked }

def takeThread : Option host.Thread × VirtualKernel host :=
  match k.take id with
  | (some thread, k) => (some thread, k.release .runnableThreads 1)
  | (none, k) => (none, k)

/-- The ids of the threads in `debug_states`, in ascending order here. -/
def threads : List ℕ := k.registry.tcbs.keys.insertionSort (· ≤ ·)

end VirtualKernel

end Galfus
