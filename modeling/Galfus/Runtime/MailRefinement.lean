import Galfus.Runtime.Refinement

/-! # Messages refine the core

Receives are registered, served and dropped, and messages are sent and taken, by steps of the
core. A message that is sent is either kept, and then no receive waits for it, or it goes to
the first receive that does.
-/

namespace Galfus

open VirtualKernel (matchesSender)
open Function (update update_self update_apply update_of_ne update_idem)

namespace MailboxWaitQueues

variable {q q' : MailboxWaitQueues} {sn : ℕ} {si : Option ℕ}

theorem queueOf_empty (si : Option ℕ) : empty.queueOf si = [] := by
  cases si <;> rfl

theorem queueOf_push (wait : MailboxFutureWait) (si : Option ℕ) : (q.push wait).queueOf si =
      if si = wait.senderId then q.queueOf si ++ [wait] else q.queueOf si := by
  unfold push
  cases hw : wait.senderId with
  | none =>
    cases si with
    | none | some sn => rfl
  | some ws =>
    cases si with
    | none => rfl
    | some sn =>
      show ((q.bySender.insert ws _).lookup sn).getD [] = _
      rw [Table.lookup_insert_eq]
      by_cases h : sn = ws
      · rw [if_pos h, if_pos (by rw [h]), h]
        rfl
      · rw [if_neg h, if_neg (by simpa using h)]
        rfl

theorem queueOf_pop (h : q.pop si = some q') (si' : Option ℕ) : q'.queueOf si' =
      if si' = si then (q.queueOf si).tail else q.queueOf si' := by
  cases si with
  | none =>
    cases h
    cases si' <;> rfl
  | some sn =>
    obtain ⟨ws, hw, h⟩ := Option.bind_eq_some_iff.mp h
    cases h
    cases si' with
    | none => rfl
    | some sn' =>
      have hq : q.queueOf (some sn) = ws := congrArg (Option.getD · []) hw
      simp only [hq, Option.some.injEq]
      exact Table.getD_lookup_put q.bySender sn sn' List.isEmpty_iff.mp

theorem eq_empty_of_isEmpty (h : q.isEmpty = true) : q = empty := by
  obtain ⟨a, bs⟩ := q
  rw [isEmpty, Bool.and_eq_true, List.isEmpty_iff, List.isEmpty_iff] at h
  obtain ⟨rfl, hk⟩ := h
  exact congrArg (mk []) (AList.ext (List.map_eq_nil_iff.mp hk))

theorem matchesSender_iff : matchesSender si sn = true ↔ si = none ∨ si = some sn := by
  cases si with
  | none => simp [matchesSender]
  | some o =>
    simp only [matchesSender, beq_iff_eq, reduceCtorEq, Option.some.injEq, false_or]
    exact eq_comm

/-- The receive that comes next is the first one of a queue, and no other queue for the sender
starts with an earlier one. -/
theorem next_eq_some {wait : MailboxFutureWait} (h : q.next sn = some wait) :
    ∃ si, matchesSender si sn = true ∧ (q.queueOf si).head? = some wait ∧
      ∀ si' hd, matchesSender si' sn = true →
        (q.queueOf si').head? = some hd → wait.sequence ≤ hd.sequence := by
  have hwt : (q.anySender.head? = some wait ∨ (q.ofSender sn).head? = some wait) ∧
      ∀ hd, q.anySender.head? = some hd ∨ (q.ofSender sn).head? = some hd →
        wait.sequence ≤ hd.sequence := by
    unfold next at h
    rcases han : q.anySender.head? with _ | any <;>
      rcases hsender : (q.ofSender sn).head? with _ | first <;>
      simp only [han, hsender, reduceCtorEq, Option.some.injEq] at h ⊢
    · simp [h]
    · simp [h]
    · split at h
      all_goals
        subst h
        simp only [true_or, or_true, true_and]
        rintro hd (rfl | rfl) <;> omega
  have hfr : ∀ si hd, matchesSender si sn = true →
      (q.queueOf si).head? = some hd → wait.sequence ≤ hd.sequence := by
    intro si hd hmt hhd
    rcases matchesSender_iff.mp hmt with rfl | rfl
    · exact hwt.2 hd (.inl hhd)
    · exact hwt.2 hd (.inr hhd)
  rcases hwt.1 with hwt | hwt
  · exact ⟨none, rfl, hwt, hfr⟩
  · exact ⟨some sn, matchesSender_iff.mpr (.inr rfl), hwt, hfr⟩

theorem next_eq_none (h : q.next sn = none) (hm : matchesSender si sn = true) :
    q.queueOf si = [] := by
  apply List.head?_eq_none_iff.mp
  unfold next at h
  rcases ha : q.anySender.head? with _ | any <;>
    rcases hsender : (q.ofSender sn).head? with _ | first <;>
    simp only [ha, hsender, reduceCtorEq] at h
  rcases matchesSender_iff.mp hm with rfl | rfl
  · exact ha
  · exact hsender

end MailboxWaitQueues

namespace Orchestrator

open Exec (Moves)
open Galfus.Core (Step Steps Outcome Reserves)

variable {host : Host} {s s' s₁ : Orchestrator host}

theorem update_lookup_insert {κ α : Type} [DecidableEq κ] (t : Table κ α) (k : κ) (a : α) :
    (fun k' => (t.insert k a).lookup k') = update (fun k' => t.lookup k') k (some a) := by
  funext k'
  rw [Table.lookup_insert_eq, update_apply]

theorem update_lookup_erase {κ α : Type} [DecidableEq κ] (t : Table κ α) (k : κ) :
    (fun k' => (t.erase k).lookup k') = update (fun k' => t.lookup k') k none := by
  funext k'
  rw [Table.lookup_erase_eq, update_apply]

def queuesIn (waits : Table ℕ MailboxWaitQueues) (target : ℕ) : Option ℕ → List MailboxFutureWait :=
  ((waits.lookup target).getD .empty).queueOf

theorem queuesIn_insert (ws : Table ℕ MailboxWaitQueues) (target : ℕ) (qs : MailboxWaitQueues) :
    queuesIn (ws.insert target qs) = update (queuesIn ws) target qs.queueOf := by
  funext target'
  unfold queuesIn
  rw [Table.lookup_insert_eq, update_apply]
  split <;> rfl

theorem queuesIn_put (ws : Table ℕ MailboxWaitQueues) (target : ℕ) (qs : MailboxWaitQueues) :
    queuesIn (if qs.isEmpty then ws.erase target else ws.insert target qs) =
      update (queuesIn ws) target qs.queueOf := by
  funext target'
  unfold queuesIn
  rw [Table.getD_lookup_put _ _ _ MailboxWaitQueues.eq_empty_of_isEmpty, update_apply]
  split <;> rfl

/-- A receive is registered if no message in the mailbox is for it. -/
theorem tends_registerMailboxFutureWait {ti target fi : ℕ}
    {senderId tm : Option ℕ} {r : Except Empty Unit}
    (hb : ∀ mailbox quota, s.kernel.box target = some (mailbox, quota) → ∀ message ∈ mailbox,
      matchesSender senderId message.senderId = false)
    (hr : registerMailboxFutureWait ti target fi senderId tm s = some (r, s')) : Tends s s' := by
  cases hr
  let wait : MailboxFutureWait :=
    ⟨ti, s.futureGenerations.lease fi, senderId, s.mailboxWaitSequence⟩
  have hq : ((s.mailboxFutureWaits.lookup target).getD .empty |>.push wait).queueOf =
      update (s.core.queue target) senderId (s.core.queue target senderId ++ [wait]) := by
    funext senderId'
    rw [MailboxWaitQueues.queueOf_push, update_apply]
    split
    · next h => rw [show senderId' = senderId from h]; rfl
    · rfl
  refine tends_of_step fun _ => ?_
  have hs := Step.registered (c := s.core) target wait rfl hb
  rw [← hq] at hs
  convert hs using 1
  exact Core.ext rfl rfl rfl rfl rfl rfl (queuesIn_insert ..) (update_lookup_insert ..) rfl rfl

theorem leads_removeMailboxFutureWait (key : FutureKey) :
    Leads (removeMailboxFutureWait key : Orchestration host Unit) := by
  rintro s _ _ ⟨⟩
  refine tends_of_step fun _ => ?_
  convert Step.unregistered (c := s.core) key using 1
  exact Core.ext rfl rfl rfl rfl rfl rfl rfl (update_lookup_erase ..) rfl rfl

theorem popMailboxWait_run {target : ℕ} {wait : MailboxFutureWait} {rs : List MailboxFutureWait}
    {r : Except Empty Unit} (hqu : s.core.queue target wait.senderId = wait :: rs)
    (hr : popMailboxWait target wait s = some (r, s')) :
    ∃ ws, s' = { s with mailboxFutureWaits := ws } ∧ queuesIn ws = update s.core.queue target
        (update (s.core.queue target) wait.senderId rs) := by
  unfold popMailboxWait at hr
  rw [Exec.get_bind] at hr
  obtain ⟨qs, s₁, hl, hr⟩ := Exec.bind_run hr
  obtain ⟨qs', hq, heq⟩ := Option.map_eq_some_iff.mp hl
  cases heq
  obtain ⟨p, s₁, hpp, hr⟩ := Exec.bind_run hr
  obtain ⟨p', hp, heq⟩ := Option.map_eq_some_iff.mp hpp
  cases heq
  cases hr
  refine ⟨_, rfl, ?_⟩
  have hof : qs.queueOf = s.core.queue target := by
    funext senderId
    show _ = ((s.mailboxFutureWaits.lookup target).getD .empty).queueOf senderId
    rw [hq]
    rfl
  have hrs : p.queueOf = update (s.core.queue target) wait.senderId rs := by
    funext senderId
    rw [MailboxWaitQueues.queueOf_pop hp, hof, hqu, update_apply]
    rfl
  rw [queuesIn_put, hrs]
  rfl

theorem leads_receiveMessage (threadId : ℕ) (senderId : Option ℕ) :
    Leads (receiveMessage threadId senderId : Orchestration host _) := by
  intro s r s' hr
  unfold receiveMessage at hr
  split at hr
  · next kernel ht =>
    cases hr
    obtain ⟨rfl, -⟩ := VirtualKernel.takeMessage_none ht
    exact refl s
  · next message kernel ht =>
    cases hr
    obtain ⟨before, after, quota, hb, rfl, hm, hbf⟩ :=
      VirtualKernel.takeMessage_some ht
    refine tends_of_step fun _ => ?_
    have hrc := Step.received (c := s.core) hb fun other ho heq => by
      have := hbf other ho
      rw [heq, hm] at this
      cases this
    have hb' : (s.kernel.setMailbox threadId (before ++ after)).box threadId =
        some (before ++ after, quota) := by
      rw [VirtualKernel.box_setMailbox hb, if_pos rfl]
    rw [VirtualKernel.releaseMessage_of_box hb']
    convert hrc using 1
    exact Core.ext (by simp [core]) (by simp [core]) (VirtualKernel.box_replace hb _ _).2 rfl rfl
      rfl rfl rfl rfl rfl

theorem isRegistered_iff {target : ℕ} {wait : MailboxFutureWait} :
    s.mailboxFutureWaitIsRegistered target wait = true ↔
      s.core.targets wait.key = some (target, wait.futureLease) := by
  unfold mailboxFutureWaitIsRegistered
  show _ ↔ s.mailboxFutureWaitTargets.lookup wait.key = _
  cases s.mailboxFutureWaitTargets.lookup wait.key with
  | none => simp
  | some p => simp [Prod.ext_iff]

section Senders

variable {wait : MailboxFutureWait} {target sn : ℕ}
  (hsender : ∀ target senderId, ∀ wait ∈ s.core.queue target senderId, wait.senderId = senderId)
include hsender

theorem nextMailboxWait_run (h : s.nextMailboxWait target sn = some wait) :
    (∃ r, s.core.queue target wait.senderId = wait :: r) ∧ matchesSender wait.senderId sn = true ∧
      ∀ senderId hd, matchesSender senderId sn = true →
        (s.core.queue target senderId).head? = some hd → wait.sequence ≤ hd.sequence := by
  obtain ⟨senderId, hm, hh, hf⟩ := MailboxWaitQueues.next_eq_some h
  obtain ⟨r, hq⟩ := List.head?_eq_some_iff.mp hh
  have hsender : wait.senderId = senderId := by
    apply hsender target senderId
    show wait ∈ (s.waitQueues target).queueOf senderId
    rw [hq]
    exact List.mem_cons_self
  subst hsender
  exact ⟨⟨r, hq⟩, hm, hf⟩

theorem forall_queues_iff {P : MailboxFutureWait → Prop} :
    (∀ wait ∈ (s.waitQueues target).anySender ++ (s.waitQueues target).ofSender sn,
      s.mailboxFutureWaitIsRegistered target wait = true → P wait) ↔
      ∀ wait, s.core.Awaits target wait → matchesSender wait.senderId sn = true → P wait := by
  constructor
  · rintro h wait ⟨hq, hr⟩ hmt
    refine h wait (List.mem_append.mpr ?_) (isRegistered_iff.mpr hr)
    rcases MailboxWaitQueues.matchesSender_iff.mp hmt with hn | hs
    · rw [hn] at hq
      exact .inl hq
    · rw [hs] at hq
      exact .inr hq
  · intro h wait hm hr
    have ht := isRegistered_iff.mp hr
    rcases List.mem_append.mp hm with hm | hm
    · have hn : wait.senderId = none := hsender target none wait hm
      refine h wait ⟨?_, ht⟩ ?_
      · rw [hn]
        exact hm
      · rw [hn]
        rfl
    · have hs : wait.senderId = some sn := hsender target (some sn) wait hm
      refine h wait ⟨?_, ht⟩ ?_
      · rw [hs]
        exact hm
      · rw [hs]
        exact MailboxWaitQueues.matchesSender_iff.mpr (.inr rfl)

theorem isAwaited_iff : s.isAwaited target sn = true ↔
      ∃ wait, s.core.Awaits target wait ∧ matchesSender wait.senderId sn = true := by
  have ha := @forall_queues_iff _ s target sn hsender fun _ => False
  unfold isAwaited
  rw [List.any_eq_true]
  constructor
  · rintro ⟨wait, hmm, hr⟩
    by_contra hn
    exact ha.mpr (fun wait hw hm => hn ⟨wait, hw, hm⟩) wait hmm hr
  · rintro ⟨wait, hw, hm⟩
    by_contra hn
    exact ha.mp (fun wait hmm hr => hn ⟨wait, hmm, hr⟩) wait hw hm

theorem isFirst_iff {message : MailboxMessage} :
    s.isFirst target wait message = true ↔ ∀ o, s.core.Awaits target o →
      matchesSender o.senderId message.senderId = true → wait.sequence ≤ o.sequence := by
  rw [← forall_queues_iff hsender]
  unfold isFirst
  rw [List.all_eq_true]
  refine forall₂_congr fun o _ => ?_
  cases s.mailboxFutureWaitIsRegistered target o <;> simp

end Senders

theorem core_of_waits {ws : Table ℕ MailboxWaitQueues}
    {queue : ℕ → Option ℕ → List MailboxFutureWait} (h : queuesIn ws = queue) :
    core { s with mailboxFutureWaits := ws } = { s.core with queue := queue } :=
  Core.ext rfl rfl rfl rfl rfl rfl h rfl rfl rfl

/-- Receives that are not registered are taken off the queues. No message in the mailbox is for
one that is. -/
theorem leads_serveRounds (target sender rounds : ℕ) :
    Leads (serveRounds target sender rounds : Orchestration host Unit) := by
  induction rounds with
  | zero => exact .pure _
  | succ rounds ih =>
    intro s r s' hrn hok
    unfold serveRounds at hrn
    rw [Exec.get_bind] at hrn
    cases hnx : s.nextMailboxWait target sender with
    | none =>
      rw [hnx] at hrn
      cases hrn
      exact .refl
    | some wait =>
      rw [hnx] at hrn
      obtain ⟨⟨rest, hqu⟩, -, -⟩ := nextMailboxWait_run hok.waits.sender hnx
      dsimp only at hrn
      split at hrn
      · rcases hms : s.kernel.takeMessage target wait.senderId with ⟨_ | message', kernel⟩
        · obtain ⟨rfl, -⟩ := VirtualKernel.takeMessage_none hms
          rw [kernelCall_bind hms] at hrn
          cases hrn
          exact .refl
        · obtain ⟨before, after, quota, hbx, -, hmt, -⟩ :=
            VirtualKernel.takeMessage_some hms
          have := hok.waits.settled target _ quota hbx wait.senderId (by simp [hqu]) message'
            (by simp)
          rw [hmt] at this
          cases this
      · next hsl =>
        obtain ⟨_, s₁, hpp, hrn⟩ := Exec.bind_run hrn
        obtain ⟨waits, rfl, hwt⟩ := popMailboxWait_run hqu hpp
        have hst : Step s.core (core { s with mailboxFutureWaits := waits }) := by
          rw [core_of_waits hwt]
          exact .popped hqu fun h => hsl (isRegistered_iff.mpr h)
        exact .head hst (ih _ _ _ hrn (hok.step hst))

section Arrivals

/-- A message was put into the mailbox of the target, and was not looked at yet. -/
structure Arrival (c : Core host) (s : Orchestrator host) (target : ℕ) (message : MailboxMessage)
    (mailbox : List MailboxMessage) (quota quota' : MailboxQuota) (awaited : Bool) : Prop where
  ok : c.Ok
  box : c.box target = some (mailbox, quota)
  reserves : Reserves quota message quota'
  core : s.core = { c with
    box := update c.box target (some (mailbox ++ [message], quota'))
    history := c.history ++ [.sent target message awaited] }
  awaited : awaited = true ↔
    ∃ wait, c.Awaits target wait ∧ matchesSender wait.senderId message.senderId = true

variable {c : Core host} {target : ℕ} {message : MailboxMessage} {mailbox : List MailboxMessage}
  {qt quota' : MailboxQuota} {a : Bool} {wait : MailboxFutureWait}

variable (h : Arrival c s target message mailbox qt quota' a)
include h

/-- No receive is left that could wait for the message. -/
theorem Arrival.kept (hn : ∀ senderId, matchesSender senderId message.senderId = true →
      c.queue target senderId = []) : Steps c s.core := by
  have ha : a = false := by
    rw [Bool.eq_false_iff]
    intro ht
    obtain ⟨wait, ⟨hm, -⟩, hmt⟩ := h.awaited.mp ht
    rw [hn wait.senderId hmt] at hm
    cases hm
  rw [h.core, ha]
  exact .single (.kept h.box h.reserves hn)

omit h in
theorem eq_of_append_singleton {b a : List MailboxMessage} {first : MailboxMessage}
    {senderId : Option ℕ} (h : mailbox ++ [message] = b ++ first :: a)
    (hm : ∀ o ∈ mailbox, matchesSender senderId o.senderId = false)
    (hf : matchesSender senderId first.senderId = true) :
    first = message ∧ b = mailbox ∧ a = [] := by
  rcases List.append_eq_append_iff.mp h with ⟨t, rfl, ht⟩ | ⟨t, rfl, ht⟩
  · cases t with
    | nil =>
      cases ht
      exact ⟨rfl, List.append_nil _, rfl⟩
    | cons x t => simp at ht
  · cases t with
    | nil =>
      cases ht
      exact ⟨rfl, (List.append_nil _).symm, rfl⟩
    | cons x t =>
      cases ht
      have := hm first (by simp)
      rw [hf] at this
      cases this

theorem Arrival.kernel_box : s.kernel.box target = some (mailbox ++ [message], quota') := by
  have hb : s.core.box target = some (mailbox ++ [message], quota') := by
    rw [h.core]
    exact update_self ..
  exact hb

theorem Arrival.not_matches (wait : MailboxFutureWait) (hw : wait ∈ c.queue target wait.senderId) :
    ∀ o ∈ mailbox, matchesSender wait.senderId o.senderId = false :=
  h.ok.waits.settled target mailbox qt h.box wait.senderId (List.ne_nil_of_mem hw)

omit h in
theorem isPassed_iff {p : Option (Except ExecutionFailure Unit)} :
    isPassed p = true ↔ p = some (.ok ()) := by
  rcases p with _ | _ | _ <;> simp [isPassed]

omit h in
/-- The receive that is served gets the message if its future waits for it. -/
theorem isLive_iff {o : Observation host} {r : host.Result} (hr : r = .ok (.bytes message.data))
    (ho : Outcome s.core wait.key (.delivery target wait message) r o)
    (hc : o = .completed wait.key (.delivery target wait message)
          (s.core.isCurrent (.delivery target wait message)) r ↔
      s.futureRegistry.isPending wait.key = true ∧
        checkPayload s.futureRegistry wait.key r = some (.ok ())) :
    s.isLive wait message = true ↔ o =
      .completed wait.key (.delivery target wait message) true (.ok (.bytes message.data)) := by
  have hcr : s.core.isCurrent (.delivery target wait message) =
      (s.futureGenerations.of wait.futureLease.id == wait.futureLease.generation) := rfl
  unfold isLive
  rw [Bool.and_eq_true, Bool.and_eq_true, isPassed_iff, ← hcr, ← hr, and_assoc, ← hc]
  constructor
  · rintro ⟨ht, heq⟩
    rw [heq, ht]
  · intro heq
    cases ho with
    | missed => cases heq
    | completed =>
      injection heq with _ _ ht
      exact ⟨ht, by rw [ht]⟩

omit h in
theorem isLive_congr (hr : s'.futureRegistry = s.futureRegistry)
    (hg : s'.futureGenerations = s.futureGenerations) :
    s'.isLive wait message = s.isLive wait message := by
  unfold isLive
  rw [hr, hg]

/-- The core with the message given to a receive. -/
def handOver (c : Core host) (target : ℕ) (message : MailboxMessage)
    (mailbox : List MailboxMessage) (quota' : MailboxQuota) (wait : MailboxFutureWait)
    (rest : List MailboxFutureWait) (observations : List (Observation host)) : Core host :=
  { c with
    box := update c.box target (some (mailbox, quota'))
    queue := update c.queue target (update (c.queue target) wait.senderId rest)
    targets := update c.targets wait.key none
    history := c.history ++ .sent target message true :: observations }

omit h in
/-- The receive takes the message that came, and its future is completed next. -/
theorem Arrival.handOver_run (h : Arrival c s target message mailbox qt quota' true)
    {rs : List MailboxFutureWait} {l first : MailboxMessage → Bool}
    {next : MailboxMessage → Orchestration host Unit} {r : Except Empty Unit}
    (hqu : c.queue target wait.senderId = wait :: rs)
    (hmt : matchesSender wait.senderId message.senderId = true)
    (hrn : (do
      match ← kernelCall (·.takeMessage target wait.senderId) with
      | none => pure ()
      | some message => do
        popMailboxWait target wait
        removeMailboxFutureWait wait.key
        observe (.served target wait message (l message) (first message))
        next message : Orchestration host Unit) s = some (r, s')) :
    ∃ s₁, s₁.core = handOver c target message mailbox quota' wait rs
        [.served target wait message (l message) (first message)] ∧
      s₁.futureRegistry = s.futureRegistry ∧ next message s₁ = some (r, s') := by
  have hwa : wait ∈ c.queue target wait.senderId := by
    rw [hqu]
    exact List.mem_cons_self
  rcases htk : s.kernel.takeMessage target wait.senderId with ⟨_ | t, k⟩
  · have hnn := (VirtualKernel.takeMessage_none htk).2 _ _ h.kernel_box message (by simp)
    rw [hmt] at hnn
    cases hnn
  obtain ⟨b, a, q₁, hbo, rfl, hta, -⟩ := VirtualKernel.takeMessage_some htk
  have hls := h.kernel_box.symm.trans hbo
  rw [Option.some.injEq, Prod.mk.injEq] at hls
  obtain ⟨rfl, rfl, rfl⟩ := eq_of_append_singleton hls.1 (h.not_matches wait hwa) hta
  rw [kernelCall_bind htk] at hrn
  obtain ⟨_, s₁, hpp, hrn⟩ := Exec.bind_run hrn
  have hqu₁ : s.core.queue target wait.senderId = wait :: rs := by
    rw [h.core]
    exact hqu
  obtain ⟨ws, rfl, hwt⟩ := popMailboxWait_run
    (s := { s with kernel := s.kernel.setMailbox target (b ++ []) }) hqu₁ hpp
  obtain ⟨_, s₁, hrm, hrn⟩ := Exec.bind_run hrn
  cases hrm
  obtain ⟨_, s₁, hob, hrn⟩ := Exec.bind_run hrn
  cases hob
  refine ⟨{ s with
    kernel := s.kernel.setMailbox target (b ++ [])
    mailboxFutureWaits := ws
    mailboxFutureWaitTargets := s.mailboxFutureWaitTargets.erase wait.key
    history := s.history ++ [.served target wait t (l t) (first t)] }, ?_, rfl, hrn⟩
  have hfr := s.kernel.setMailbox_frame target (b ++ [])
  have hbx : (s.kernel.setMailbox target (b ++ [])).box =
      update s.core.box target (some (b, quota')) := by
    funext id
    rw [VirtualKernel.box_setMailbox h.kernel_box, List.append_nil, update_apply]
    rfl
  trans { s.core with
    box := update s.core.box target (some (b, quota'))
    queue := update s.core.queue target (update (s.core.queue target) wait.senderId rs)
    targets := update s.core.targets wait.key none
    history := s.core.history ++ [.served target wait t (l t) (first t)] }
  · exact Core.ext (congrArg (·.limits) hfr.2) hfr.1 hbx rfl rfl rfl hwt
      (update_lookup_erase ..) rfl rfl
  · rw [h.core]
    exact Core.ext rfl rfl (update_idem ..) rfl rfl rfl rfl rfl rfl (List.append_assoc ..)

/-- The first receive that waits for the message gets it. -/
theorem Arrival.served {wait : MailboxFutureWait} {rest : List MailboxFutureWait}
    {sender rounds : ℕ} {r : Except Empty Unit}
    (hqu : c.queue target wait.senderId = wait :: rest)
    (hrg : c.targets wait.key = some (target, wait.futureLease))
    (hmt : matchesSender wait.senderId message.senderId = true)
    (hnx : ∀ senderId head, matchesSender senderId message.senderId = true →
      (c.queue target senderId).head? = some head → wait.sequence ≤ head.sequence) (hrn : (do
      match ← kernelCall (·.takeMessage target wait.senderId) with
      | none => pure ()
      | some message => do
        popMailboxWait target wait
        removeMailboxFutureWait wait.key
        observe (.served target wait message (s.isLive wait message)
          (s.isFirst target wait message))
        completeFuture (.delivery target wait message) wait.waitingThreadId wait.futureLease.id
          (.ok (.bytes message.data))
        serveRounds target sender rounds : Orchestration host Unit) s = some (r, s')) :
    Steps c s'.core := by
  have hwt : c.Awaits target wait := ⟨by rw [hqu]; exact List.mem_cons_self, hrg⟩
  obtain rfl : a = true := h.awaited.mpr ⟨wait, hwt, hmt⟩
  obtain ⟨s₁, hcr, hre, hrn⟩ := h.handOver_run hqu hmt hrn
  obtain ⟨_, s₂, hco, hrn⟩ := Exec.bind_run hrn
  obtain ⟨s₃, outcome, result, hcr₃, hot, hrs, hcm, htn⟩ :=
    completeFuture_run hco
  obtain rfl := hrs _ rfl
  have hlv := isLive_iff rfl hot hcm
  rw [isLive_congr hre ((congrArg (·.generations) hcr).trans
    (congrArg (·.generations) h.core).symm)] at hlv
  have hfr : s.isFirst target wait message = true ↔ ∀ other, c.Awaits target other →
      matchesSender other.senderId message.senderId = true → wait.sequence ≤ other.sequence := by
    rw [isFirst_iff, h.core]
    · rfl
    · rw [h.core]
      exact h.ok.waits.sender
  have hot' : Outcome c wait.key (.delivery target wait message)
      (.ok (.bytes message.data)) outcome := by
    rw [hcr] at hot
    cases hot with
    | missed => exact .missed
    | completed hhl => exact .completed hhl
  have hst : Step c s₃.core := by
    rw [hcr₃, hcr]
    convert Step.served h.box h.reserves hqu hrg hmt hnx hfr hot' hlv using 1
    exact Core.ext rfl rfl rfl rfl rfl rfl rfl rfl rfl (List.append_assoc ..)
  have hsp := htn (h.ok.step hst)
  have hok := (h.ok.step hst).steps hsp
  exact .head hst (hsp.trans (leads_serveRounds target sender rounds _ _ _ hrn hok))

/-- A receive that is not registered is taken off, and the message is still to be looked at. -/
theorem Arrival.popped {r : List MailboxFutureWait} {ws : Table ℕ MailboxWaitQueues}
    (hq : c.queue target wait.senderId = wait :: r)
    (hs : c.targets wait.key ≠ some (target, wait.futureLease))
    (hw : queuesIn ws = update s.core.queue target (update (s.core.queue target) wait.senderId r)) :
    Arrival { c with
        queue := update c.queue target (update (c.queue target) wait.senderId r) }
      { s with mailboxFutureWaits := ws } target message mailbox qt quota' a := by
  constructor
  · exact h.ok.step (.popped hq hs)
  · exact h.box
  · exact h.reserves
  · rw [core_of_waits hw, h.core]
  · rw [h.awaited]
    refine exists_congr fun o => and_congr_left fun _ => and_congr_left fun ho => ?_
    have hne : o ≠ wait := by
      rintro rfl
      exact hs ho
    show _ ↔ o ∈ update c.queue target _ target o.senderId
    rw [update_self]
    by_cases hsender : o.senderId = wait.senderId
    · rw [hsender, hq, update_self, List.mem_cons]
      simp [hne]
    · rw [update_of_ne hsender]

/-- As many rounds as there are receives are enough to find the one that gets the message. -/
theorem Arrival.serve {rs : ℕ} {r : Except Empty Unit}
    (hro : (c.queue target none).length + (c.queue target (some message.senderId)).length ≤
      rs) (hrn : serveRounds target message.senderId rs s = some (r, s')) :
    Steps c s'.core := by
  induction rs generalizing c s with
  | zero =>
    cases hrn
    apply h.kept
    intro senderId hmt
    rcases MailboxWaitQueues.matchesSender_iff.mp hmt with rfl | rfl
    · exact List.eq_nil_of_length_eq_zero (by omega)
    · exact List.eq_nil_of_length_eq_zero (by omega)
  | succ rs ih =>
    unfold serveRounds at hrn
    rw [Exec.get_bind] at hrn
    have hqs : s.core.queue = c.queue := congrArg (·.queue) h.core
    cases hnx : s.nextMailboxWait target message.senderId with
    | none =>
      rw [hnx] at hrn
      cases hrn
      apply h.kept
      intro senderId hmt
      rw [← hqs]
      exact MailboxWaitQueues.next_eq_none hnx hmt
    | some wait =>
      rw [hnx] at hrn
      have hsn : ∀ target senderId, ∀ wait ∈ s.core.queue target senderId,
          wait.senderId = senderId := hqs ▸ h.ok.waits.sender
      obtain ⟨⟨rt, hqu⟩, hmt, hfr⟩ := nextMailboxWait_run hsn hnx
      rw [hqs] at hqu hfr
      dsimp only at hrn
      split at hrn
      · next hrg =>
        rw [isRegistered_iff, h.core] at hrg
        exact h.served hqu hrg hmt hfr hrn
      · next hst =>
        rw [isRegistered_iff, h.core] at hst
        obtain ⟨_, s₁, hpp, hrn⟩ := Exec.bind_run hrn
        obtain ⟨ws, rfl, hwt⟩ := popMailboxWait_run (hqs ▸ hqu) hpp
        refine .head (.popped hqu hst) (ih (h.popped hqu hst hwt) ?_ hrn)
        show (update c.queue target _ target none).length +
          (update c.queue target _ target (some message.senderId)).length ≤ rs
        rw [update_self]
        rcases MailboxWaitQueues.matchesSender_iff.mp hmt with hsender | hsender <;>
        · rw [hsender] at hqu ⊢
          rw [hqu, List.length_cons] at hro
          rw [update_self, update_of_ne (by simp)]
          omega

end Arrivals

section Sending

variable {target : ℕ} {message : MailboxMessage} {mailbox : List MailboxMessage}
  {qt quota' : MailboxQuota}

/-- The core with a message in the mailbox of the target. -/
def deposited (s : Orchestrator host) (target : ℕ) (message : MailboxMessage)
    (mailbox : List MailboxMessage) (quota' : MailboxQuota) : Core host :=
  { s.core with
    box := update s.core.box target (some (mailbox ++ [message], quota'))
    history := s.core.history ++ [.sent target message (s.isAwaited target message.senderId)] }

theorem core_depositMessage (hb : s.kernel.box target = some (mailbox, qt)) {r : Except Empty Unit}
    (hr : depositMessage target message mailbox quota' s = some (r, s')) :
    s'.core = s.deposited target message mailbox quota' := by
  cases hr
  exact Core.ext (by simp [core, deposited]) (by simp [core, deposited])
    (VirtualKernel.box_replace hb _ _).1 rfl rfl rfl rfl rfl rfl rfl

section Deposited

variable (hd : s₁.core = s.deposited target message mailbox quota') (ht : Still s₁ s')
include hd

theorem box_deposited :
    s₁.kernel.box = update s.core.box target (some (mailbox ++ [message], quota')) :=
  congrArg (·.box) hd

theorem threadIds_deposited : s₁.kernel.threadIds = s.core.threadIds :=
  congrArg (·.threadIds) hd

include ht

theorem box_of_deposited {id : ℕ} (hid : id ≠ target) :
    s'.kernel.box id = s.core.box id ∨ s'.kernel.box id = none := by
  have := ht.kernel.box id
  rwa [box_deposited hd, update_of_ne hid] at this

theorem arrival_of_still (hok : s.core.Ok) (hbo : s.kernel.box target = some (mailbox, qt))
    (hrs : Reserves qt message quota')
    (hkp : s'.kernel.box target = s₁.kernel.box target) :
    ∃ c, Step s.core c ∧ Arrival c s' target message mailbox qt quota'
      (s.isAwaited target message.senderId) := by
  have hbx := box_deposited hd
  have hids := threadIds_deposited hd
  have hst : Step s.core { s.core with
      box := update s'.kernel.box target (some (mailbox, qt))
      threadIds := s'.kernel.threadIds } := by
    apply Step.quiet
    · intro id
      by_cases hid : id = target
      · rw [hid, update_self]
        exact .inl hbo.symm
      · rw [update_of_ne hid]
        exact box_of_deposited hd ht hid
    · intro id hid hac
      apply ht.kernel.active id ?_ (hids ▸ hac)
      by_cases heq : id = target
      · rw [heq, hkp, hbx, update_self]
        simp
      · rwa [update_of_ne heq] at hid
    · intro hsn
      exact ht.kernel.sound (hids ▸ hsn)
  refine ⟨_, hst, ?_⟩
  constructor
  · exact hok.step hst
  · exact update_self ..
  · exact hrs
  · rw [ht.core_eq, hd]
    refine Core.ext rfl rfl ?_ rfl rfl rfl rfl rfl rfl rfl
    rw [update_idem, ← update_self target
      (some (mailbox ++ [message], quota')) s.core.box, ← hbx, ← hkp, Function.update_eq_self]
  · exact isAwaited_iff hok.waits.sender

theorem tends_of_lost (hl : s'.kernel.box target = none) : Tends s s' := by
  have hi := threadIds_deposited hd
  intro _
  refine .head (.lost target message (s.isAwaited target message.senderId)) (.single ?_)
  rw [ht.core_eq, hd]
  apply Step.quiet
  · intro id
    by_cases hid : id = target
    · rw [hid]
      exact .inr hl
    · dsimp only
      rw [update_of_ne hid]
      exact box_of_deposited hd ht hid
  · exact fun id hid ha => ht.kernel.active id hid (hi ▸ ha)
  · exact fun hs => ht.kernel.sound (hi ▸ hs)

end Deposited

theorem leads_completeMailboxFutureWaits (target sender : ℕ) :
    Leads (completeMailboxFutureWaits target sender : Orchestration host Unit) := by
  intro s r s' hr
  exact leads_serveRounds target sender _ _ _ _ hr

/-- A message is put into the mailbox of the target, and the receive that waits for it gets it. -/
theorem leads_sendInternalThreadMessage (senderId : ℕ) (targetId : Option ℕ)
    (data : Option (List (BitVec 8))) :
    Leads (sendInternalThreadMessage senderId targetId data : Orchestration host Bool) := by
  intro s r s' hrn
  unfold sendInternalThreadMessage at hrn
  rw [Exec.get_bind] at hrn
  rcases targetId with _ | target
  · cases hrn
    exact refl s
  rcases data with _ | data
  · cases hrn
    exact refl s
  dsimp only at hrn
  cases hbx : s.kernel.box target with
  | none =>
    rw [VirtualKernel.getMailbox_eq, hbx] at hrn
    cases hrn
    exact refl s
  | some box =>
    obtain ⟨mailbox, qt⟩ := box
    rw [VirtualKernel.getMailbox_eq, hbx, VirtualKernel.getThreadQuota_of_box hbx] at hrn
    dsimp only [Option.map_some] at hrn
    cases hms : qt.tryReserveMailboxMessages 1 with
    | error e =>
      rw [hms] at hrn
      cases hrn
      exact refl s
    | ok quota₁ =>
      rw [hms] at hrn
      dsimp only at hrn
      cases hby : quota₁.tryReserveMailboxBytes data.length with
      | error e =>
        rw [hby] at hrn
        cases hrn
        refine tends_of_step fun _ => ?_
        have hfr := s.kernel.setThreadQuota_frame target (quota₁.releaseMailboxMessages 1)
        convert Step.refused (c := s.core) hbx hms using 1
        refine Core.ext (congrArg (·.limits) hfr.2) hfr.1 ?_ rfl rfl rfl rfl rfl rfl rfl
        funext id
        exact (VirtualKernel.box_setThreadQuota hbx _ id).trans (update_apply ..).symm
      | ok quota' =>
        rw [hby] at hrn
        obtain ⟨_, s₁, hdeposit, hrn⟩ := Exec.bind_run hrn
        obtain ⟨_, s₂, hwk, hrn⟩ := Exec.bind_run hrn
        obtain ⟨_, s₃, hsr, hrn⟩ := Exec.bind_run hrn
        cases hrn
        have hcr := core_depositMessage hbx hdeposit
        have hstill : Still _ _ := moves_wakeTarget target _ _ _ hwk
        intro hok
        rcases hstill.kernel.box target with hkp | hls
        · obtain ⟨c, hst, har⟩ :=
            arrival_of_still hcr hstill hok hbx ⟨quota₁, hms, hby⟩ hkp
          refine .head hst (har.serve ?_ hsr)
          rw [← show s₂.core.queue = c.queue from congrArg (·.queue) har.core]
          exact le_rfl
        · have htn := tends_of_lost hcr hstill hls
          exact trans_of Tends htn (leads_completeMailboxFutureWaits target senderId _ _ _ hsr) hok

end Sending

end Orchestrator

end Galfus
