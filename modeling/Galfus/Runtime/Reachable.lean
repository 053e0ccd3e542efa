import Galfus.Runtime.Guarantees

/-! # Any two moments of an execution

Between them the core takes steps of its protocol. In each, no receive waits for a message that
is there.
-/

namespace Galfus.Orchestrator

open Galfus.Core (Steps)
open VirtualKernel (matchesSender)

variable {host : Host} {launch : Launch host} {inputs m : List (Input host)}
  {s s' : Orchestrator host}

theorem forM_append_run {is js : List (Input host)} {r : Except Empty PUnit}
    (h : (is ++ js).forM handleInput s = some (r, s')) :
    ∃ s₁, is.forM handleInput s = some (.ok ⟨⟩, s₁) ∧ js.forM handleInput s₁ = some (r, s') := by
  induction is generalizing s with
  | nil => exact ⟨s, rfl, h⟩
  | cons i is ih =>
    obtain ⟨a, s₁, hi, h⟩ := Exec.bind_run h
    obtain ⟨s₂, hs, hj⟩ := ih h
    exact ⟨s₂, Exec.bind_eq_ok.mpr ⟨a, s₁, hi, hs⟩, hj⟩

/-- Whatever comes next, the core takes steps of its protocol. -/
theorem execution_refines_core (h : execute launch inputs = some s)
    (h' : execute launch (inputs ++ m) = some s') :
    Steps s.core s'.core := by
  obtain ⟨⟨r, _⟩, hr, heq⟩ := Option.bind_eq_some_iff.mp h
  cases heq
  obtain ⟨⟨r', _⟩, hr', heq⟩ := Option.bind_eq_some_iff.mp h'
  cases heq
  obtain ⟨a, s₀, hl, hi⟩ := Exec.bind_run hr
  obtain ⟨a', s₀', hl', hi'⟩ := Exec.bind_run hr'
  cases hl.symm.trans hl'
  obtain ⟨s₁, hs, hm⟩ := forM_append_run hi'
  cases hi.symm.trans hs
  exact leads_inputs m _ _ _ hm (kept_execute h).ok

/-- A receive waits for messages of the third thread, and the second thread sends one. -/
def otherInputs : List (Input plainHost) :=
  polls [.threadSpawned (), asks 1 (.createFuture 0 0 0 [.int64 3] [] 0),
    asks 1 (.futureWait 1 0 0), asks 2 sendToFirst]

theorem execution_refines_core_other :
    ∃ s s', execute plainLaunch (otherInputs.take 2) = some s ∧
      execute plainLaunch otherInputs = some s' ∧ Steps s.core s'.core := by
  have hr : (execute plainLaunch (otherInputs.take 2)).isSome = true ∧
      (execute plainLaunch otherInputs).isSome = true := by
    decide +kernel
  obtain ⟨s, hs⟩ := Option.isSome_iff_exists.mp hr.1
  obtain ⟨s', hs'⟩ := Option.isSome_iff_exists.mp hr.2
  exact ⟨s, s', hs, hs', execution_refines_core (m := otherInputs.drop 2) hs hs'⟩

/-- A receive that waits for a message finds none in the mailbox. -/
theorem no_message_while_waiting (h : execute launch inputs = some s) {target : ℕ}
    {mailbox : List MailboxMessage} (hm : s.kernel.getMailbox target = some mailbox)
    {senderId : Option ℕ} (hq : (s.waitQueues target).queueOf senderId ≠ []) :
    ∀ message ∈ mailbox, matchesSender senderId message.senderId = false := by
  rw [VirtualKernel.getMailbox_eq] at hm
  obtain ⟨⟨_, q⟩, hb, rfl⟩ := Option.map_eq_some_iff.mp hm
  exact (kept_execute h).ok.waits.settled target _ q hb senderId hq

theorem no_message_while_waiting_other :
    ∃ s, execute plainLaunch otherInputs = some s ∧
      s.kernel.getMailbox 1 = some [⟨2, [7]⟩] ∧ matchesSender (some 3) 2 = false := by
  have hr : (execute plainLaunch otherInputs).any (fun s => decide
      (s.kernel.getMailbox 1 = some [⟨2, [7]⟩] ∧
        (s.waitQueues 1).queueOf (some 3) ≠ [])) = true := by
    decide +kernel
  obtain ⟨s, hs, hm, hq⟩ := exists_of_any hr
  exact ⟨s, hs, hm, no_message_while_waiting hs hm hq _ (List.mem_singleton_self _)⟩

end Galfus.Orchestrator
