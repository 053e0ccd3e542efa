import Galfus.Runtime.CoreLeases
import Galfus.Runtime.CoreQuotas
import Galfus.Runtime.PlainHost
import Galfus.Runtime.RunRefinement

/-! # Guarantees for futures and messages

What every execution keeps to, whatever it is given: which notifications complete the future
they were registered for, which messages reach a receive, and when the quota of a mailbox is
that of its messages. Each comes with an execution that is outside of its condition.
-/

namespace Galfus

namespace Core

variable {host : Host} {limits : ResourceLimitKind → ℕ} {c c' : Core host}

/-- Everything that the steps of the core keep. -/
structure Kept (limits : ResourceLimitKind → ℕ) (c : Core host) : Prop where
  ok : c.Ok
  limits : c.limits = limits
  leases : LeasesOk c.history
  accounts : c.AccountsOk
  quotas : c.QuotasOk
  order : c.OrderOk

theorem Step.limits_eq (h : Step c c') : c'.limits = c.limits := by
  cases h <;> rfl

theorem Kept.step (h : c.Kept limits) (hs : Step c c') : c'.Kept limits where
  ok := h.ok.step hs
  limits := hs.limits_eq.trans h.limits
  leases := h.leases.step h.ok hs
  accounts := h.accounts.step h.ok hs
  quotas := h.quotas.step h.ok hs
  order := h.order.step hs

theorem Kept.steps (h : c.Kept limits) (hs : Steps c c') : c'.Kept limits := by
  induction hs with
  | refl => exact h
  | tail _ hst ih => exact ih.step hst

theorem tally_eq_nil_iff {p : ℕ → Observation host → Option MailboxMessage} {t : ℕ}
    {h : List (Observation host)} :
    tally p t h = [] ↔ ∀ o ∈ since t h, p t o = none :=
  List.filterMap_eq_nil_iff

end Core

namespace Orchestrator

open Galfus.Core (Clean leaseOf Kept sent taken strays awaited ofSender since totalBytes
  registrations)

variable {host : Host} {launch : Launch host} {inputs : List (Input host)} {s : Orchestrator host}

theorem kept_new (limits : ResourceLimitKind → ℕ) (bs : Option host.Bindings)
    (ps : Option host.Providers) : (new limits bs ps).core.Kept limits := by
  constructor
  · constructor
    · exact ⟨IdManager.sound_new 1, fun id h => absurd rfl h⟩
    · exact IdManager.sound_new 1
    · exact fun _ => ⟨nofun, nofun, nofun⟩
    · constructor
      · intro t si w hw
        have hn : w ∈ ([] : List MailboxFutureWait) :=
          MailboxWaitQueues.queueOf_empty si ▸ hw
        cases hn
      · rintro t m q ⟨⟩
  · rfl
  · intro b o a h
    cases b <;> cases h
  · rintro t m q ⟨⟩
  · rintro - - t m q ⟨⟩
  · intro _
    have hn : ∀ t si, (new limits bs ps).core.queue t si = [] :=
      fun t si => MailboxWaitQueues.queueOf_empty si
    constructor
    · rfl
    · intro t si
      rw [hn]
      exact .nil
    · intro t si w hw
      rw [hn] at hw
      cases hw
    · rintro t w ms l first ⟨⟩

theorem kept_execute (h : execute launch inputs = some s) : s.core.Kept launch.limits := by
  have hn := kept_new launch.limits launch.bindings launch.providers
  exact hn.steps (execute_steps h hn.ok)

/-- A race discards a future of another thread. -/
def isForeign : Observation host → Bool
  | .raced _ held => held
  | _ => false

theorem clean_iff {hs : List (Observation host)} : Clean hs ↔ ∀ o ∈ hs, isForeign o = false := by
  constructor
  · intro h o ho
    cases o with
    | raced key hl =>
      cases hl
      · rfl
      · exact absurd ho (h key)
    | _ => rfl
  · intro h key hm
    cases h _ hm

instance (history : List (Observation host)) : Decidable (Clean history) :=
  decidable_of_iff _ clean_iff.symm

/-- A notification that completes a future completes the one that holds its lease just if the
generation of the lease is the current one of the id. -/
theorem completes_leased_future_iff (h : execute launch inputs = some s)
    {before after : List (Observation host)} {key : FutureKey} {cause : Cause} {current : Bool}
    {result : host.Result} {lease : Lease}
    (hhistory : s.history = before ++ .completed key cause current result :: after)
    (hlease : cause.lease? = some lease) (hclean : Clean before) :
    (leaseOf before key = some lease ↔ current = true) ∧
      (cause.isChecked = true → leaseOf before key = some lease) := by
  obtain ⟨hch, hi⟩ := (kept_execute h).leases before _ after hhistory
  have hc := hi lease hlease hclean
  exact ⟨hc, fun hcc => hc.mpr (hch hcc)⟩

/-- Which future is completed, why, and whether the lease is current. -/
def completionOf : Observation host → Option (FutureKey × Cause × Bool)
  | .completed key cause current _ => some (key, cause, current)
  | _ => none

theorem exists_of_completionOf {hs : List (Observation host)} {key : FutureKey}
    {cs : Cause} {cr : Bool}
    (h : hs.getLast?.bind completionOf = some (key, cs, cr)) :
    ∃ b r, hs = b ++ [.completed key cs cr r] := by
  obtain ⟨o, hl, ho⟩ := Option.bind_eq_some_iff.mp h
  obtain ⟨b, rfl⟩ := List.getLast?_eq_some_iff.mp hl
  cases o with
  | completed k' cs' cr' r =>
    cases ho
    exact ⟨b, r, rfl⟩
  | _ => cases ho

/-- The first thread waits for a sleep, and the time passes. -/
def sleepInputs : List (Input plainHost) :=
  polls [asks 1 (createSleep 5), asks 1 (.futureWait 1 0 0), .tick 5]

theorem completes_leased_future_sleep :
    ∃ s before result, execute plainLaunch sleepInputs = some s ∧
      s.history = before ++ [.completed (1, 1) (.timer ⟨1, 1⟩) true result] ∧
      leaseOf before (1, 1) = some ⟨1, 1⟩ := by
  have hr : (execute plainLaunch sleepInputs).any (fun s => decide
      (s.history.getLast?.bind completionOf = some ((1, 1), .timer ⟨1, 1⟩, true) ∧
        Clean s.history)) = true := by
    decide +kernel
  obtain ⟨s, hs, hl, hc⟩ := exists_of_any hr
  obtain ⟨before, result, hh⟩ := exists_of_completionOf hl
  refine ⟨s, before, result, hs, hh, ?_⟩
  apply (completes_leased_future_iff hs hh rfl _).1.mpr rfl
  exact .of_append (hh ▸ hc)

/-- A race of two sleeps is won by the shorter one. The id of the other is used again for a third
sleep, which is completed when the time of the second one comes. -/
def staleTimerInputs : List (Input plainHost) :=
  polls [asks 1 (createSleep 10), asks 1 (createSleep 5), asks 1 (.futureWaitRace [2, 1] 0 0),
    .tick 5, asks 1 (createSleep 100), asks 1 (.futureWait 1 0 0), .tick 5]

theorem stale_timer_completes_other_future : (execute plainLaunch staleTimerInputs).map (fun s =>
      (s.history.getLast?.bind completionOf, leaseOf s.history (1, 1), decide (Clean s.history))) =
      some (some ((1, 1), .timer ⟨1, 1⟩, false), some ⟨1, 2⟩, true) := by
  decide +kernel

theorem strays_eq_nil_iff {t : ℕ} {hs : List (Observation host)} : strays t hs = [] ↔ ∀ w m first,
      .served t w m false first ∉ since t hs := by
  rw [Core.tally_eq_nil_iff]
  constructor
  · intro h w m first hm
    have := h _ hm
    rw [Core.strayMessage, if_pos rfl] at this
    cases this
  · intro h o ho
    cases o with
    | served t' w m l first =>
      cases l
      · refine if_neg ?_
        rintro rfl
        exact h w m first ho
      · rfl
    | _ => rfl

/-- A receive waits, and the second thread sends a message. -/
def receiveInputs : List (Input plainHost) :=
  polls [asks 1 createReceive, .threadSpawned (), asks 1 (.futureWait 1 0 0), asks 2 sendToFirst]

/-- A receive loses a race, and then the second thread sends a message. -/
def lostMessageInputs : List (Input plainHost) :=
  polls [asks 1 createReceive, asks 1 (createSleep 5), asks 1 (.futureWaitRace [1, 2] 0 0),
    .tick 5, .threadSpawned (), asks 2 sendToFirst]

theorem awaited_eq_nil_iff {t : ℕ} {hs : List (Observation host)} :
    awaited t hs = [] ↔ ∀ m, .sent t m true ∉ since t hs := by
  rw [Core.tally_eq_nil_iff]
  constructor
  · intro h m hm
    have := h _ hm
    rw [Core.awaitedMessage, if_pos rfl] at this
    cases this
  · intro h o ho
    cases o with
    | sent t' m ia =>
      cases ia
      · rfl
      · refine if_neg ?_
        rintro rfl
        exact h m ho
    | _ => rfl

/-- The quota of a mailbox counts the messages in it just if none was sent to the thread while one
of its receives waited for it. -/
theorem mailbox_quota_exact_iff (h : execute launch inputs = some s)
    (hmessages : launch.limits .mailboxMessages < usizeMax)
    (hbytes : launch.limits .mailboxBytes < usizeMax) {target : ℕ} {mailbox : List MailboxMessage}
    {quota : MailboxQuota} (hmailbox : s.kernel.getMailbox target = some mailbox)
    (hquota : s.kernel.getThreadQuota target = some quota) :
    (quota.messages = mailbox.length ∧ quota.bytes = totalBytes mailbox) ↔
      ∀ message, .sent target message true ∉ since target s.history := by
  have hk := kept_execute h
  rw [VirtualKernel.getMailbox_eq] at hmailbox
  obtain ⟨⟨_, q'⟩, hb, rfl⟩ := Option.map_eq_some_iff.mp hmailbox
  rw [VirtualKernel.getThreadQuota_of_box hb] at hquota
  cases hquota
  rw [← awaited_eq_nil_iff]
  have hl := hk.limits
  exact (hk.quotas (hl ▸ hmessages) (hl ▸ hbytes) target _ _ hb).exact_iff

/-- The second thread sends a message, and no receive waits. -/
def sendInputs : List (Input plainHost) := polls [.threadSpawned (), asks 2 sendToFirst]

theorem mailbox_quota_exact_send : ∃ s quota, execute plainLaunch sendInputs = some s ∧
      s.kernel.getThreadQuota 1 = some quota ∧ quota.messages = 1 ∧ quota.bytes = 1 := by
  have hr : (execute plainLaunch sendInputs).any (fun s => decide
      (s.kernel.getMailbox 1 = some [⟨2, [7]⟩] ∧ (s.kernel.getThreadQuota 1).isSome = true ∧
        awaited 1 s.history = [])) = true := by
    decide +kernel
  obtain ⟨s, hs, hm, hsm, ha⟩ := exists_of_any hr
  obtain ⟨quota, hq⟩ := Option.isSome_iff_exists.mp hsm
  have hec := (mailbox_quota_exact_iff hs (by decide) (by decide) hm hq).mpr
    (awaited_eq_nil_iff.mp ha)
  exact ⟨s, quota, hs, hq, hec⟩

theorem leaked_quota_of_received : (execute plainLaunch receiveInputs).map (fun s =>
      (s.kernel.getMailbox 1, (s.kernel.getThreadQuota 1).map fun quota =>
        (quota.messages, quota.bytes))) =
      some (some [], some (1, 1)) := by
  decide +kernel

end Orchestrator

end Galfus
