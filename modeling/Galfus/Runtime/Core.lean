import Galfus.Runtime.Boxes
import Galfus.Runtime.EventLoop

/-! # The core of the orchestrator

What messages and futures depend on: the boxes of the threads, the futures that are
registered with the leases of their ids, and the receives that wait. The steps say what the
methods of the orchestrator can do to it.
-/

namespace Galfus

open VirtualKernel (matchesSender)
open Function (update)

@[ext]
structure Core (host : Host) where
  limits : ResourceLimitKind → ℕ
  threadIds : IdManager
  box : ℕ → Option (List MailboxMessage × MailboxQuota)
  held : FutureKey → Prop
  futureIds : IdManager
  generations : Generations
  queue : ℕ → Option ℕ → List MailboxFutureWait
  targets : FutureKey → Option (ℕ × Lease)
  sequence : ℕ
  history : List (Observation host)

namespace Core

variable {host : Host}

/-- No race discarded a future of another thread. -/
def Clean (history : List (Observation host)) : Prop :=
  ∀ key, Observation.raced key true ∉ history

/-- The lease that the last future under a key was created with. -/
def leaseOf (history : List (Observation host)) (key : FutureKey) : Option Lease :=
  history.foldl (fun lease o =>
    match o with
    | .created key' lease' => if key' = key then some lease' else lease
    | _ => lease) none

/-- A receive is registered and waits in a queue of the thread. -/
def Awaits (c : Core host) (target : ℕ) (wait : MailboxFutureWait) : Prop :=
  wait ∈ c.queue target wait.senderId ∧ c.targets wait.key = some (target, wait.futureLease)

/-- The lease of a notification is the current one of its id. -/
def isCurrent (c : Core host) (cause : Cause) : Bool :=
  match cause.lease? with
  | some lease => c.generations.of lease.id == lease.generation
  | none => true

/-- A quota with room for a message, and the quota with the message. -/
def Reserves (quota : MailboxQuota) (message : MailboxMessage) (quota' : MailboxQuota) : Prop :=
  ∃ quota₁, quota.tryReserveMailboxMessages 1 = .ok quota₁ ∧
    quota₁.tryReserveMailboxBytes message.data.length = .ok quota'

def release (quota : MailboxQuota) (message : MailboxMessage) : MailboxQuota :=
  (quota.releaseMailboxMessages 1).releaseMailboxBytes message.data.length

/-- What a completion can note. -/
inductive Outcome (c : Core host) (key : FutureKey) (cause : Cause) (result : host.Result) :
    Observation host → Prop
  | missed : Outcome c key cause result (.missed key cause)
  | completed (h : c.held key) :
    Outcome c key cause result (.completed key cause (c.isCurrent cause) result)

inductive Step : Core host → Core host → Prop
  /-- Threads go. -/
  | quiet {c : Core host} (box : ℕ → Option (List MailboxMessage × MailboxQuota))
    (threadIds : IdManager)
    (hbox : ∀ id, box id = c.box id ∨ box id = none)
    (hactive : ∀ id, box id ≠ none → id ∈ c.threadIds.activeIds → id ∈ threadIds.activeIds)
    (hsound : c.threadIds.Sound → threadIds.Sound) :
    Step c { c with box := box, threadIds := threadIds }
  /-- Futures go. -/
  | forget {c : Core host} (held : FutureKey → Prop) (h : ∀ key, held key → c.held key) :
    Step c { c with held := held }
  | opened {c : Core host} {id : ℕ} {threadIds : IdManager}
    (h : c.threadIds.tryAllocate = some (id, threadIds)) :
    Step c { c with
      threadIds := threadIds
      box := update c.box id (some ([], .new c.limits))
      history := c.history ++ [.opened id] }
  | received {c : Core host} {target : ℕ} {before after : List MailboxMessage}
    {message : MailboxMessage} {quota : MailboxQuota}
    (hbox : c.box target = some (before ++ message :: after, quota))
    (hbefore : ∀ other ∈ before, other.senderId ≠ message.senderId) :
    Step c { c with
      box := update c.box target (some (before ++ after, release quota message))
      history := c.history ++ [.received target message] }
  /-- A message has a place in the mailbox, but its bytes do not. -/
  | refused {c : Core host} {target : ℕ} {mailbox : List MailboxMessage}
    {quota quota' : MailboxQuota} (hbox : c.box target = some (mailbox, quota))
    (h : quota.tryReserveMailboxMessages 1 = .ok quota') :
    Step c { c with
      box := update c.box target (some (mailbox, quota'.releaseMailboxMessages 1)) }
  /-- A message that no receive waits for is kept. -/
  | kept {c : Core host} {target : ℕ} {mailbox : List MailboxMessage} {message : MailboxMessage}
    {quota quota' : MailboxQuota} (hbox : c.box target = some (mailbox, quota))
    (hreserve : Reserves quota message quota')
    (hnone : ∀ senderId, matchesSender senderId message.senderId = true →
      c.queue target senderId = []) :
    Step c { c with
      box := update c.box target (some (mailbox ++ [message], quota'))
      history := c.history ++ [.sent target message false] }
  /-- The target of a message could not be made runnable. -/
  | lost {c : Core host} (target : ℕ) (message : MailboxMessage) (awaited : Bool) : Step c { c with
      box := update c.box target none
      history := c.history ++ [.sent target message awaited] }
  /-- A message goes to the receive that waits for it. -/
  | served {c : Core host} {target : ℕ} {mailbox : List MailboxMessage}
    {message : MailboxMessage} {quota quota' : MailboxQuota} {wait : MailboxFutureWait}
    {rest : List MailboxFutureWait} {live first : Bool} {outcome : Observation host}
    (hbox : c.box target = some (mailbox, quota)) (hreserve : Reserves quota message quota')
    (hqueue : c.queue target wait.senderId = wait :: rest)
    (hregistered : c.targets wait.key = some (target, wait.futureLease))
    (hmatch : matchesSender wait.senderId message.senderId = true)
    (hnext : ∀ senderId head, matchesSender senderId message.senderId = true →
      (c.queue target senderId).head? = some head → wait.sequence ≤ head.sequence)
    (hfirst : first = true ↔ ∀ other, c.Awaits target other →
      matchesSender other.senderId message.senderId = true → wait.sequence ≤ other.sequence)
    (houtcome : Outcome c wait.key (.delivery target wait message) (.ok (.bytes message.data))
      outcome)
    (hlive : live = true ↔ outcome =
      .completed wait.key (.delivery target wait message) true (.ok (.bytes message.data))) :
    Step c { c with
      box := update c.box target (some (mailbox, quota'))
      queue := update c.queue target (update (c.queue target) wait.senderId rest)
      targets := update c.targets wait.key none
      history := c.history ++ [.sent target message true, .served target wait message live first,
        outcome] }
  /-- An id is given out for a future that is not created. -/
  | allocated {c : Core host} {id : ℕ} {futureIds : IdManager}
    (h : c.futureIds.tryAllocate = some (id, futureIds)) :
    Step c { c with futureIds := futureIds, generations := c.generations.bump id }
  | created {c : Core host} {id : ℕ} {futureIds : IdManager} (threadId : ℕ)
    (h : c.futureIds.tryAllocate = some (id, futureIds)) :
    Step c { c with
      futureIds := futureIds
      generations := c.generations.bump id
      held := fun key => key = (threadId, id) ∨ c.held key
      history := c.history ++ [.created (threadId, id) ((c.generations.bump id).lease id)] }
  | freed {c : Core host} (id : ℕ) (h : Clean c.history → ∀ key, c.held key → key.2 ≠ id) :
    Step c { c with futureIds := c.futureIds.free id }
  | registered {c : Core host} (target : ℕ) (wait : MailboxFutureWait)
    (hsequence : wait.sequence = c.sequence)
    (hbox : ∀ mailbox quota, c.box target = some (mailbox, quota) → ∀ message ∈ mailbox,
      matchesSender wait.senderId message.senderId = false) :
    Step c { c with
      queue := update c.queue target (update (c.queue target) wait.senderId
        (c.queue target wait.senderId ++ [wait]))
      targets := update c.targets wait.key (some (target, wait.futureLease))
      sequence := wrappingSucc c.sequence
      history := c.history ++ [.registered target wait] }
  | unregistered {c : Core host} (key : FutureKey) :
    Step c { c with targets := update c.targets key none }
  /-- A receive that is not registered is taken off its queue. -/
  | popped {c : Core host} {target : ℕ} {wait : MailboxFutureWait}
    {rest : List MailboxFutureWait} (hqueue : c.queue target wait.senderId = wait :: rest)
    (hstale : c.targets wait.key ≠ some (target, wait.futureLease)) :
    Step c { c with
      queue := update c.queue target (update (c.queue target) wait.senderId rest) }
  /-- A completion that does not come from a message. -/
  | resolved {c : Core host} {key : FutureKey} {cause : Cause} {result : host.Result}
    {outcome : Observation host} (houtcome : Outcome c key cause result outcome)
    (hcause : ∀ target wait message, cause ≠ .delivery target wait message)
    (hlease : ∀ lease, cause.lease? = some lease → lease.id = key.2)
    (hchecked : cause.isChecked = true → c.isCurrent cause = true) :
    Step c { c with history := c.history ++ [outcome] }
  | raced {c : Core host} (key : FutureKey) (held : Bool)
    (h : held = false → ∀ other, c.held other → other.2 = key.2 → other.1 = key.1) :
    Step c { c with history := c.history ++ [.raced key held] }
  /-- The receives are forgotten. -/
  | cleared {c : Core host} : Step c { c with queue := fun _ _ => [], targets := fun _ => none }

abbrev Steps (c c' : Core host) : Prop := Relation.ReflTransGen Step c c'

end Core

/-- The queue of the receives with this sender, if they have one. -/
def MailboxWaitQueues.queueOf (q : MailboxWaitQueues) : Option ℕ → List MailboxFutureWait
  | some sender => q.ofSender sender
  | none => q.anySender

def Orchestrator.core {host : Host} (s : Orchestrator host) : Core host where
  limits := s.kernel.quota.limits
  threadIds := s.kernel.threadIds
  box := s.kernel.box
  held key := (s.futureRegistry.records.lookup key).isSome = true
  futureIds := s.futureIds
  generations := s.futureGenerations
  queue target senderId := (s.waitQueues target).queueOf senderId
  targets key := s.mailboxFutureWaitTargets.lookup key
  sequence := s.mailboxWaitSequence
  history := s.history

end Galfus
