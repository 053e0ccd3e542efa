import Galfus.Heap.Quota
import Galfus.Runtime.CoreAccounts

/-! # Mailbox quotas and the order of receives

The quota of a thread counts the messages in its mailbox and those that came while a receive
waited for them. Receives are served in the order of their numbers.
-/

namespace Galfus.Core

open VirtualKernel (matchesSender)

variable {host : Host} {c c' : Core host}

def totalBytes (messages : List MailboxMessage) : ℕ :=
  (messages.map fun message => message.data.length).sum

/-- The counters of a quota are those of the messages in the mailbox and of those that came
while a receive waited for them. -/
structure Counts (quota : MailboxQuota) (mailbox awaited : List MailboxMessage) : Prop where
  messages : quota.messages = mailbox.length + awaited.length
  bytes : quota.bytes = totalBytes mailbox + totalBytes awaited
  maxMessages : quota.maxMessages < usizeMax
  maxBytes : quota.maxBytes < usizeMax
  messages_le : quota.messages ≤ quota.maxMessages
  bytes_le : quota.bytes ≤ quota.maxBytes

section Counts

variable {q q' : MailboxQuota} {m a b af : List MailboxMessage} {ms : MailboxMessage}

theorem totalBytes_append (l l' : List MailboxMessage) :
    totalBytes (l ++ l') = totalBytes l + totalBytes l' := by
  unfold totalBytes
  rw [List.map_append, List.sum_append]

theorem totalBytes_singleton (ms : MailboxMessage) : totalBytes [ms] = ms.data.length := by
  simp [totalBytes]

variable (h : Counts q m a)
include h

theorem Counts.reserveMessages (hr : q.tryReserveMailboxMessages 1 = .ok q') :
    q' = { q with messages := q.messages + 1 } ∧ q.messages + 1 ≤ q.maxMessages := by
  unfold MailboxQuota.tryReserveMailboxMessages usizeSaturatingAdd at hr
  have hm := h.maxMessages
  split at hr
  · cases hr
  · next hle =>
    cases hr
    refine ⟨?_, by omega⟩
    rw [ThreadQuota.fetchAdd_of_le (by omega)]

theorem Counts.reserves (hr : Reserves q ms q') : q' = { q with
      messages := q.messages + 1
      bytes := q.bytes + ms.data.length } ∧
      q.messages + 1 ≤ q.maxMessages ∧
      q.bytes + ms.data.length ≤ q.maxBytes := by
  obtain ⟨q₁, hm, hb⟩ := hr
  obtain ⟨rfl, hle⟩ := h.reserveMessages hm
  unfold MailboxQuota.tryReserveMailboxBytes usizeSaturatingAdd at hb
  have hmx := h.maxBytes
  dsimp only at hb
  split at hb
  · cases hb
  · next hle' =>
    cases hb
    refine ⟨?_, hle, by omega⟩
    rw [ThreadQuota.fetchAdd_of_le (by omega)]

omit h in
theorem counts_new {ls : ResourceLimitKind → ℕ} (hm : ls .mailboxMessages < usizeMax)
    (hb : ls .mailboxBytes < usizeMax) : Counts (.new ls) [] [] :=
  ⟨rfl, rfl, hm, hb, Nat.zero_le _, Nat.zero_le _⟩

theorem Counts.kept (hr : Reserves q ms q') : Counts q' (m ++ [ms]) a := by
  obtain ⟨rfl, hm, hb⟩ := h.reserves hr
  have hms := h.messages
  have hby := h.bytes
  refine ⟨?_, ?_, h.maxMessages, h.maxBytes, hm, hb⟩
  · rw [List.length_append, List.length_singleton]
    dsimp only
    omega
  · rw [totalBytes_append, totalBytes_singleton]
    dsimp only
    omega

theorem Counts.swap : Counts q a m :=
  { h with
    messages := h.messages.trans (Nat.add_comm ..)
    bytes := h.bytes.trans (Nat.add_comm ..) }

theorem Counts.leaked (hr : Reserves q ms q') : Counts q' m (a ++ [ms]) := (h.swap.kept hr).swap

omit h in
theorem Counts.released (h : Counts q (b ++ ms :: af) a) : Counts (release q ms) (b ++ af) a := by
  obtain ⟨hms, hby, hmx, hma, hm, hb⟩ := h
  rw [List.length_append, List.length_cons] at hms
  rw [← List.singleton_append, totalBytes_append, totalBytes_append, totalBytes_singleton] at hby
  have hr : release q ms = { q with
      messages := q.messages - 1
      bytes := q.bytes - ms.data.length } := by
    unfold release MailboxQuota.releaseMailboxMessages MailboxQuota.releaseMailboxBytes
    dsimp only
    rw [ThreadQuota.fetchSub_of_le (by omega) (by omega),
      ThreadQuota.fetchSub_of_le (by omega) (by omega)]
  rw [hr]
  refine ⟨?_, ?_, hmx, hma, ?_, ?_⟩
  · rw [List.length_append]
    dsimp only
    omega
  · rw [totalBytes_append]
    dsimp only
    omega
  · dsimp only
    omega
  · dsimp only
    omega

theorem Counts.refused (hr : q.tryReserveMailboxMessages 1 = .ok q') :
    q'.releaseMailboxMessages 1 = q := by
  obtain ⟨rfl, hle⟩ := h.reserveMessages hr
  have hm := h.maxMessages
  unfold MailboxQuota.releaseMailboxMessages
  dsimp only
  rw [ThreadQuota.fetchSub_of_le (by omega) (by omega)]
  rfl

/-- The counters are exact just if no message came while a receive waited for it. -/
theorem Counts.exact_iff : (q.messages = m.length ∧ q.bytes = totalBytes m) ↔ a = [] := by
  rw [h.messages, h.bytes]
  constructor
  · rintro ⟨hl, -⟩
    exact List.eq_nil_of_length_eq_zero (by omega)
  · rintro rfl
    exact ⟨rfl, rfl⟩

end Counts

def QuotasOk (c : Core host) : Prop :=
  c.limits .mailboxMessages < usizeMax → c.limits .mailboxBytes < usizeMax →
    ∀ target mailbox quota, c.box target = some (mailbox, quota) →
      Counts quota mailbox (awaited target c.history)

theorem counts_law {ls : ResourceLimitKind → ℕ} (hms : ls .mailboxMessages < usizeMax)
    (hby : ls .mailboxBytes < usizeMax) :
    Law ls fun t (hs : List (Observation host)) mailbox quota =>
      Counts quota mailbox (awaited t hs) := by
  constructor
  case silent =>
    intro t hs l mailbox quota hl h
    rwa [awaited, tally_append_of_none (fun o ho => (hl o ho).1) fun o ho => (hl o ho).2.2.2.2]
  case opened =>
    intro t hs
    rw [awaited, tally_opened]
    exact counts_new hms hby
  case received =>
    intro t hs before after message quota _ h
    rw [awaited, tally_snoc_none (by simp) rfl]
    exact h.released
  case refused =>
    intro t hs mailbox quota quota' hrs h
    rwa [h.refused hrs]
  case kept =>
    intro t hs mailbox message quota quota' hrs h
    rw [awaited, tally_snoc_none (by simp) rfl]
    exact h.kept hrs
  case served =>
    intro c t hs mailbox message quota quota' w lv first o hrs _ hot _ h
    rw [served_history, awaited, tally_snoc_none (hot.ne_opened t)
      (hot.messages_eq_none t).2.2, tally_snoc_none (by simp) rfl,
      tally_snoc_some (by simp) (if_pos rfl)]
    exact h.leaked hrs

theorem QuotasOk.step (h : c.QuotasOk) (hok : c.Ok) (hs : Step c c') : c'.QuotasOk := by
  have hl : c'.limits = c.limits := by
    cases hs <;> rfl
  intro hm hb
  rw [hl] at hm hb
  exact (counts_law hm hb).step (h hm hb) hok hs

def registrations (history : List (Observation host)) : ℕ :=
  history.countP fun o =>
    match o with
    | .registered _ _ => true
    | _ => false

/-- The receives in a queue came one after the other, before the next one to be registered. -/
structure Ordered (c : Core host) : Prop where
  sequence : c.sequence = registrations c.history % usizeSize
  sorted : ∀ target senderId,
    (c.queue target senderId).Pairwise fun wait wait' => wait.sequence < wait'.sequence
  lt : ∀ target senderId, ∀ wait ∈ c.queue target senderId, wait.sequence < registrations c.history
  first : ∀ target wait message live first,
    .served target wait message live first ∈ c.history → first = true

/-- As long as the numbers of the receives do not wrap around they are in order. -/
def OrderOk (c : Core host) : Prop := registrations c.history ≤ usizeSize → c.Ordered

theorem OrderOk.frame (h : c.OrderOk) {l : List (Observation host)} (hs : c'.sequence = c.sequence)
    (hq : ∀ t si, (c'.queue t si).Sublist (c.queue t si))
    (hh : c'.history = c.history ++ l) (hl : registrations l = 0)
    (hf : c.Ordered → ∀ t w message lv first,
      .served t w message lv first ∈ l → first = true) : c'.OrderOk := by
  have hc : registrations c'.history = registrations c.history := by
    rw [hh, registrations, List.countP_append]
    exact congrArg (registrations c.history + ·) hl
  intro hle
  have ho := h (hc ▸ hle)
  constructor
  · rw [hs, hc]
    exact ho.sequence
  · exact fun t si => (ho.sorted t si).sublist (hq t si)
  · intro t si w hw
    rw [hc]
    exact ho.lt t si w ((hq t si).subset hw)
  · intro t w message lv first hm
    rw [hh] at hm
    rcases List.mem_append.mp hm with hm | hm
    · exact ho.first t w message lv first hm
    · exact hf ho t w message lv first hm

theorem OrderOk.registered (h : c.OrderOk) (t : ℕ) (w : MailboxFutureWait)
    (hwt : w.sequence = c.sequence) (hsq : c'.sequence = wrappingSucc c.sequence)
    (hqu : c'.queue = Function.update c.queue t (Function.update (c.queue t)
      w.senderId (c.queue t w.senderId ++ [w])))
    (hhs : c'.history = c.history ++ [.registered t w]) : c'.OrderOk := by
  have hcn : registrations c'.history = registrations c.history + 1 := by
    rw [hhs, registrations, List.countP_append]
    rfl
  intro hle
  have hor := h (by omega)
  have hnm : w.sequence = registrations c.history := by
    rw [hwt, hor.sequence, Nat.mod_eq_of_lt (by omega)]
  have hold : ∀ t' si, c'.queue t' si = c.queue t' si ∨ c'.queue t' si = c.queue t' si ++ [w] := by
    intro t' si
    rw [hqu]
    rcases eq_or_ne t' t with rfl | htr
    · rw [Function.update_self]
      rcases eq_or_ne si w.senderId with rfl | hsn
      · exact .inr (Function.update_self ..)
      · exact .inl (Function.update_of_ne hsn ..)
    · exact .inl (by rw [Function.update_of_ne htr])
  constructor
  · rw [hsq, hcn, hor.sequence, wrappingSucc, Nat.mod_add_mod]
  · intro t' si
    rcases hold t' si with heq | heq
    · rw [heq]
      exact hor.sorted t' si
    · rw [heq, List.pairwise_append]
      refine ⟨hor.sorted t' si, List.pairwise_singleton _ _, ?_⟩
      intro o hot w' hwt'
      rw [List.mem_singleton.mp hwt', hnm]
      exact hor.lt t' si o hot
  · intro t' si o hot
    rw [hcn]
    rcases hold t' si with heq | heq
    · rw [heq] at hot
      exact (hor.lt t' si o hot).trans (Nat.lt_succ_self _)
    · rw [heq] at hot
      rcases List.mem_append.mp hot with hot | hot
      · exact (hor.lt t' si o hot).trans (Nat.lt_succ_self _)
      · rw [List.mem_singleton.mp hot, hnm]
        exact Nat.lt_succ_self _
  · intro t' w' message l first hmm
    rw [hhs] at hmm
    simp only [List.mem_append, List.mem_singleton, reduceCtorEq, or_false] at hmm
    exact hor.first t' w' message l first hmm

/-- The receive that comes next is before every other one that waits for the message. -/
theorem Ordered.le_of_next (h : c.Ordered) {t : ℕ} {w o : MailboxFutureWait}
    {message : MailboxMessage}
    (hn : ∀ si hd, matchesSender si message.senderId = true →
      (c.queue t si).head? = some hd → w.sequence ≤ hd.sequence)
    (ho : o ∈ c.queue t o.senderId)
    (hm : matchesSender o.senderId message.senderId = true) :
    w.sequence ≤ o.sequence := by
  have hs := h.sorted t o.senderId
  cases hq : c.queue t o.senderId with
  | nil =>
    rw [hq] at ho
    cases ho
  | cons hd r =>
    have hle := hn o.senderId hd hm (by rw [hq]; rfl)
    rw [hq] at ho hs
    rcases List.mem_cons.mp ho with rfl | hr
    · exact hle
    · exact hle.trans (List.rel_of_pairwise_cons hs hr).le

theorem OrderOk.step (h : c.OrderOk) (hst : Step c c') : c'.OrderOk := by
  have hqu : ∀ t si, (c.queue t si).Sublist (c.queue t si) :=
    fun _ _ => .refl _
  cases hst with
  | registered t w hsq => exact h.registered t w hsq rfl rfl rfl
  | @served t mailbox message _ _ w rest live first outcome _ _ hq _ _ hnx hfr hot _ =>
    refine h.frame rfl (queue_update_sublist hq) rfl ?_ ?_
    · cases hot <;> rfl
    · intro hor t' w' m' l' f' hmm
      have hsr : f' = first := by
        cases hot <;> simp_all
      rw [hsr]
      exact hfr.mpr fun o hoh hmt => hor.le_of_next hnx hoh.1 hmt
  | popped hq =>
    exact h.frame rfl (queue_update_sublist hq) (List.append_nil _).symm rfl (by simp)
  | cleared => exact h.frame rfl (by simp) (List.append_nil _).symm rfl (by simp)
  | resolved hot =>
    refine h.frame rfl hqu rfl ?_ ?_
    · cases hot <;> rfl
    · cases hot <;> simp
  | opened | received | kept | lost | created | raced =>
    exact h.frame rfl hqu rfl rfl (by simp)
  | quiet | forget | refused | allocated | freed | unregistered =>
    exact h.frame rfl hqu (List.append_nil _).symm rfl (by simp)

end Galfus.Core
