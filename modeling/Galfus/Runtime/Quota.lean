import Galfus.Runtime.Failure

/-! # Quotas of the runtime

The counters that all threads share, and the counters of the mailbox of one thread.
-/

namespace Galfus

/-- `GlobalQuota`, with one counter and one limit for each kind of resource. -/
structure GlobalQuota where
  limits : ResourceLimitKind → ℕ
  used : ResourceLimitKind → ℕ

namespace GlobalQuota

def new (limits : ResourceLimitKind → ℕ) : GlobalQuota := ⟨limits, fun _ => 0⟩

section

variable (q : GlobalQuota) (kind : ResourceLimitKind) (amount : ℕ)

def setUsed : GlobalQuota :=
  { q with used := Function.update q.used kind amount }

/-- `try_reserve_*`. -/
def tryReserve : Except ExecutionFailureKind GlobalQuota :=
  if q.limits kind < usizeSaturatingAdd (q.used kind) amount then
    .error (.resourceLimitExceeded ⟨kind, q.used kind, amount, q.limits kind⟩)
  else .ok (q.setUsed kind (q.used kind + amount))

/-- `release_*`, which stops at zero. -/
def release : GlobalQuota :=
  q.setUsed kind (q.used kind - amount)

theorem used_setUsed : (q.setUsed kind amount).used kind = amount :=
  Function.update_self _ _ _

theorem used_release_setUsed :
    ((q.setUsed kind (q.used kind + amount)).release kind amount).used kind = q.used kind := by
  rw [release, used_setUsed, used_setUsed, Nat.add_sub_cancel]

end

end GlobalQuota

/-- The mailbox part of a thread quota. -/
structure MailboxQuota where
  maxMessages : ℕ
  maxBytes : ℕ
  messages : ℕ
  bytes : ℕ
  deriving DecidableEq, Repr

namespace MailboxQuota

def new (limits : ResourceLimitKind → ℕ) : MailboxQuota :=
  ⟨limits .mailboxMessages, limits .mailboxBytes, 0, 0⟩

section

variable (q : MailboxQuota) (amount : ℕ)

def tryReserveMailboxMessages : Except ExecutionFailureKind MailboxQuota :=
  if q.maxMessages < usizeSaturatingAdd q.messages amount then
    .error (.resourceLimitExceeded ⟨.mailboxMessages, q.messages, amount, q.maxMessages⟩)
  else .ok { q with messages := ThreadQuota.fetchAdd q.messages amount }

def releaseMailboxMessages : MailboxQuota :=
  { q with messages := ThreadQuota.fetchSub q.messages amount }

def tryReserveMailboxBytes : Except ExecutionFailureKind MailboxQuota :=
  if q.maxBytes < usizeSaturatingAdd q.bytes amount then
    .error (.resourceLimitExceeded ⟨.mailboxBytes, q.bytes, amount, q.maxBytes⟩)
  else .ok { q with bytes := ThreadQuota.fetchAdd q.bytes amount }

def releaseMailboxBytes : MailboxQuota :=
  { q with bytes := ThreadQuota.fetchSub q.bytes amount }

end

end MailboxQuota

end Galfus
