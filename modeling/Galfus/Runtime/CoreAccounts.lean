import Galfus.Runtime.CoreInvariant

/-! # The messages of a thread

The messages that a thread was sent since it got its mailbox were taken by its receives, are
in the mailbox, or went astray, which happens to those that are taken for a receive whose
future does not wait any more.
-/

namespace Galfus.Core

open VirtualKernel (matchesSender)

variable {host : Host} {c c' : Core host} {target other : ℕ} {history l : List (Observation host)}
  {o : Observation host} {message : MailboxMessage} {k : FutureKey} {r : host.Result}

/-- The part of the history since a thread got its mailbox. -/
def since (target : ℕ) (history : List (Observation host)) : List (Observation host) :=
  history.foldl (fun part o =>
    match o with
    | .opened target' => if target' = target then [] else part ++ [o]
    | _ => part ++ [o]) []

def sentMessage (target : ℕ) : Observation host → Option MailboxMessage
  | .sent target' message _ => if target' = target then some message else none
  | _ => none

/-- A message that a receive of the thread got: at once, or as the result of its future. -/
def takenMessage (target : ℕ) : Observation host → Option MailboxMessage
  | .received target' message => if target' = target then some message else none
  | .completed _ (.delivery target' _ message) true _ =>
    if target' = target then some message else none
  | _ => none

/-- A message that was taken for a receive whose future does not wait for it. -/
def strayMessage (target : ℕ) : Observation host → Option MailboxMessage
  | .served target' _ message false _ => if target' = target then some message else none
  | _ => none

/-- A message that came while a receive of the thread waited for it. -/
def awaitedMessage (target : ℕ) : Observation host → Option MailboxMessage
  | .sent target' message true => if target' = target then some message else none
  | _ => none

/-- The messages of a kind since the thread got its mailbox. -/
def tally (pick : ℕ → Observation host → Option MailboxMessage) (target : ℕ)
    (history : List (Observation host)) : List MailboxMessage :=
  (since target history).filterMap (pick target)

abbrev sent (target : ℕ) (history : List (Observation host)) := tally sentMessage target history

abbrev taken (target : ℕ) (history : List (Observation host)) := tally takenMessage target history

abbrev strays (target : ℕ) (history : List (Observation host)) := tally strayMessage target history

abbrev awaited (target : ℕ) (history : List (Observation host)) :=
  tally awaitedMessage target history

def ofSender (sender : ℕ) (messages : List MailboxMessage) : List MailboxMessage :=
  messages.filter fun message => message.senderId == sender

theorem since_append (target : ℕ) (history l : List (Observation host))
    (h : ∀ o ∈ l, o ≠ .opened target) :
    since target (history ++ l) = since target history ++ l := by
  induction l generalizing history with
  | nil => simp
  | cons o l ih =>
    rw [← List.singleton_append, ← List.append_assoc, ih _ fun o' ho' => h o' (by simp [ho']),
      ← List.append_assoc]
    unfold since
    rw [List.foldl_append]
    have ho := h o List.mem_cons_self
    cases o with
    | opened t' =>
      have hne : t' ≠ target := fun heq => ho (by rw [heq])
      simp [hne]
    | _ => rfl

theorem since_opened (target : ℕ) (history : List (Observation host)) :
    since target (history ++ [.opened target]) = [] := by
  unfold since
  simp

variable {p : ℕ → Observation host → Option MailboxMessage}

theorem tally_append (target : ℕ) (history l : List (Observation host))
    (h : ∀ o ∈ l, o ≠ .opened target) :
    tally p target (history ++ l) = tally p target history ++ l.filterMap (p target) := by
  unfold tally
  rw [since_append target history l h, List.filterMap_append]

theorem tally_opened (target : ℕ) (history : List (Observation host)) :
    tally p target (history ++ [.opened target]) = [] := by
  unfold tally
  rw [since_opened]
  rfl

/-- Observations that say nothing about the messages of a thread. -/
def Silent (target : ℕ) (o : Observation host) : Prop :=
  o ≠ .opened target ∧ sentMessage target o = none ∧ takenMessage target o = none ∧
    strayMessage target o = none ∧ awaitedMessage target o = none

theorem tally_append_of_none (ho : ∀ o ∈ l, o ≠ .opened target) (hp : ∀ o ∈ l, p target o = none) :
    tally p target (history ++ l) = tally p target history := by
  rw [tally_append target history l ho, List.filterMap_eq_nil_iff.mpr hp, List.append_nil]

theorem tally_snoc_none (ho : o ≠ .opened target) (hp : p target o = none) :
    tally p target (history ++ [o]) = tally p target history :=
  tally_append_of_none (by simpa using ho) (by simpa using hp)

theorem tally_snoc_some (ho : o ≠ .opened target) (hp : p target o = some message) :
    tally p target (history ++ [o]) = tally p target history ++ [message] := by
  rw [tally_append target history [o] (by simpa using ho),
    List.filterMap_cons_some hp, List.filterMap_nil]

theorem served_history (history : List (Observation host)) (o₁ o₂ o₃ : Observation host) :
    history ++ [o₁, o₂, o₃] = history ++ [o₁] ++ [o₂] ++ [o₃] := by
  simp

theorem Outcome.silent {cs : Cause} (h : Outcome c k cs r o)
    (hc : ∀ w message, cs ≠ .delivery target w message) : Silent target o := by
  cases h with
  | missed => exact ⟨by simp, rfl, rfl, rfl, rfl⟩
  | completed hh =>
    refine ⟨by simp, rfl, ?_, rfl, rfl⟩
    cases cs with
    | delivery other w message =>
      cases c.isCurrent (.delivery other w message)
      · rfl
      · exact if_neg (by rintro rfl; exact hc w message rfl)
    | _ => rfl

/-- The messages that were sent are those that were taken, those that are in the mailbox and
those that went astray. -/
structure Balanced (sent taken strays mailbox : List MailboxMessage) : Prop where
  total : sent.length = taken.length + mailbox.length + strays.length
  order : strays = [] → ∀ sender,
    ofSender sender sent = ofSender sender taken ++ ofSender sender mailbox

section Balanced

variable {sent t ss m b a : List MailboxMessage} {message : MailboxMessage}

theorem balanced_nil : Balanced [] [] [] [] := ⟨rfl, fun _ _ => rfl⟩

theorem ofSender_append (s : ℕ) (l l' : List MailboxMessage) :
    ofSender s (l ++ l') = ofSender s l ++ ofSender s l' :=
  List.filter_append ..

theorem ofSender_eq_nil {s : ℕ} {l : List MailboxMessage}
    (h : ∀ other ∈ l, other.senderId ≠ s) : ofSender s l = [] := by
  apply List.filter_eq_nil_iff.mpr
  intro other ho
  simpa using h other ho

theorem ofSender_singleton (s : ℕ) (message : MailboxMessage) :
    ofSender s [message] = if message.senderId = s then [message] else [] := by
  unfold ofSender
  by_cases h : message.senderId = s <;> simp [h]

variable (h : Balanced sent t ss m)
include h

theorem Balanced.kept : Balanced (sent ++ [message]) t ss (m ++ [message]) := by
  constructor
  · simp only [List.length_append, h.total]
    omega
  · intro hn s
    rw [ofSender_append, ofSender_append, h.order hn, List.append_assoc]

omit h in
theorem Balanced.received (h : Balanced sent t ss (b ++ message :: a))
    (hb : ∀ other ∈ b, other.senderId ≠ message.senderId) :
    Balanced sent (t ++ [message]) ss (b ++ a) := by
  constructor
  · have := h.total
    simp only [List.length_append, List.length_cons, List.length_nil] at this ⊢
    omega
  · intro hn s
    rw [h.order hn, ← List.singleton_append, ofSender_append, ofSender_append, ofSender_append,
      ofSender_append, ofSender_singleton]
    split
    · next heq =>
      subst heq
      rw [ofSender_eq_nil hb]
      simp
    · simp

theorem Balanced.served (hm : ∀ other ∈ m, other.senderId ≠ message.senderId) :
    Balanced (sent ++ [message]) (t ++ [message]) ss m :=
  @Balanced.received _ _ _ m [] message h.kept hm |> fun h => by
    rwa [List.append_nil] at h

theorem Balanced.stray : Balanced (sent ++ [message]) t (ss ++ [message]) m := by
  constructor
  · simp only [List.length_append, h.total]
    omega
  · intro hn
    simp at hn

omit h in
theorem count_eq_count_ofSender (message : MailboxMessage) (l : List MailboxMessage) :
    l.count message = (ofSender message.senderId l).count message := by
  unfold ofSender
  rw [List.count_filter (by simp)]

/-- The order of each sender is kept just if no message went astray. -/
theorem Balanced.order_iff : (∀ s, ofSender s sent = ofSender s t ++ ofSender s m) ↔ ss = [] := by
  constructor
  · intro ho
    have hp : sent.Perm (t ++ m) := by
      apply List.perm_iff_count.mpr
      intro message
      rw [count_eq_count_ofSender, ho, ← ofSender_append, ← count_eq_count_ofSender]
    have hl := hp.length_eq
    rw [List.length_append, h.total] at hl
    exact List.eq_nil_of_length_eq_zero (by omega)
  · exact h.order

end Balanced

def AccountsOk (c : Core host) : Prop :=
  ∀ target mailbox quota, c.box target = some (mailbox, quota) →
    Balanced (sent target c.history) (taken target c.history) (strays target c.history) mailbox

section Boxes

variable {P : ℕ → List (Observation host) → List MailboxMessage → MailboxQuota → Prop}

/-- A property of the mailboxes and of what was said about their messages. -/
def Boxes (P : ℕ → List (Observation host) → List MailboxMessage → MailboxQuota → Prop)
    (c : Core host) : Prop :=
  ∀ target mailbox quota, c.box target = some (mailbox, quota) → P target c.history mailbox quota

/-- The property is kept where a step touches a mailbox or says something about its messages. -/
structure Law (limits : ResourceLimitKind → ℕ)
    (P : ℕ → List (Observation host) → List MailboxMessage → MailboxQuota → Prop) : Prop where
  silent : ∀ {target history l mailbox quota}, (∀ o ∈ l, Silent target o) →
    P target history mailbox quota → P target (history ++ l) mailbox quota
  opened : ∀ target history, P target (history ++ [.opened target]) [] (.new limits)
  received : ∀ {target history before after message quota},
    (∀ other ∈ before, other.senderId ≠ message.senderId) →
    P target history (before ++ message :: after) quota →
      P target (history ++ [.received target message]) (before ++ after) (release quota message)
  refused : ∀ {target history mailbox quota quota'},
    quota.tryReserveMailboxMessages 1 = .ok quota' →
    P target history mailbox quota → P target history mailbox (quota'.releaseMailboxMessages 1)
  kept : ∀ {target history mailbox message quota quota'}, Reserves quota message quota' →
    P target history mailbox quota →
      P target (history ++ [.sent target message false]) (mailbox ++ [message]) quota'
  served : ∀ {c : Core host} {target history mailbox message quota quota' wait live first o},
    Reserves quota message quota' → (∀ other ∈ mailbox, other.senderId ≠ message.senderId) →
    Outcome c wait.key (.delivery target wait message) (.ok (.bytes message.data)) o →
    (live = true ↔ o =
      .completed wait.key (.delivery target wait message) true (.ok (.bytes message.data))) →
    P target history mailbox quota →
      P target (history ++ [.sent target message true, .served target wait message live first, o])
        mailbox quota'

variable {ls : ResourceLimitKind → ℕ} (law : Law ls P) (h : Boxes P c)
include law h

/-- Boxes stay or go, and nothing is said about messages. -/
theorem Law.frame (hb : ∀ target b, c'.box target = some b → c.box target = some b)
    (hh : c'.history = c.history ++ l) (hl : ∀ target, ∀ o ∈ l, Silent target o) :
    Boxes P c' := by
  intro target mailbox q heq
  rw [hh]
  exact law.silent (hl target) (h target mailbox q (hb target _ heq))

theorem Law.update {b : Option (List MailboxMessage × MailboxQuota)}
    (hb : c'.box = Function.update c.box target b) (hh : c'.history = c.history ++ l)
    (hl : ∀ other, other ≠ target → ∀ o ∈ l, Silent other o)
    (ht : ∀ mailbox q, b = some (mailbox, q) →
      P target (c.history ++ l) mailbox q) : Boxes P c' := by
  intro other mailbox q heq
  rw [hb] at heq
  rw [hh]
  rcases eq_or_ne other target with rfl | hne
  · rw [Function.update_self] at heq
    exact ht mailbox q heq
  · rw [Function.update_of_ne hne] at heq
    exact law.silent (hl other hne) (h other mailbox q heq)

end Boxes

theorem silent_opened (hne : other ≠ target) : Silent other (.opened target : Observation host) :=
  ⟨by simpa using hne.symm, rfl, rfl, rfl, rfl⟩

theorem silent_received (hne : other ≠ target) (message : MailboxMessage) :
    Silent other (.received target message : Observation host) :=
  ⟨by simp, rfl, if_neg hne.symm, rfl, rfl⟩

theorem silent_sent (hne : other ≠ target) (message : MailboxMessage) (a : Bool) :
    Silent other (.sent target message a : Observation host) := by
  refine ⟨by simp, if_neg hne.symm, rfl, rfl, ?_⟩
  cases a
  · rfl
  · exact if_neg hne.symm

theorem silent_served (hne : other ≠ target) (w : MailboxFutureWait) (message : MailboxMessage)
    (lv first : Bool) :
    Silent other (.served target w message lv first : Observation host) := by
  refine ⟨by simp, rfl, rfl, ?_, rfl⟩
  cases lv
  · exact if_neg hne.symm
  · rfl

theorem Outcome.ne_opened {cs : Cause} (h : Outcome c k cs r o) (target : ℕ) :
    o ≠ .opened target := by
  cases h <;> simp

theorem Outcome.messages_eq_none {cs : Cause} (h : Outcome c k cs r o) (target : ℕ) :
    sentMessage target o = none ∧ strayMessage target o = none ∧
      awaitedMessage target o = none := by
  cases h <;> exact ⟨rfl, rfl, rfl⟩

/-- What is taken from a receive that is served: the message if its future gets it. -/
theorem Outcome.takenMessage_eq {w : MailboxFutureWait} {lv : Bool}
    (h : Outcome c k (.delivery target w message) r o)
    (hl : lv = true ↔ o = .completed k (.delivery target w message) true r) :
    takenMessage target o = if lv then some message else none := by
  cases lv with
  | true =>
    rw [hl.mp rfl]
    exact if_pos rfl
  | false =>
    cases h with
    | missed => rfl
    | completed hh =>
      cases hc : c.isCurrent (.delivery target w message) with
      | true => exact absurd (hl.mpr (by rw [hc])) (by simp)
      | false => rfl

theorem Law.step {P : ℕ → List (Observation host) → List MailboxMessage → MailboxQuota → Prop}
    (law : Law c.limits P) (h : Boxes P c) (hok : c.Ok) (hst : Step c c') : Boxes P c' := by
  have hsm : ∀ target b, c.box target = some b → c.box target = some b :=
    fun _ _ heq => heq
  cases hst with
  | quiet b ti hbx =>
    refine law.frame h (fun target b heq => ?_) (List.append_nil _).symm (by simp)
    rcases hbx target with hsm | hnn
    · exact hsm ▸ heq
    · exact absurd (hnn.symm.trans heq) (by simp)
  | @opened id =>
    refine law.update h rfl rfl (fun other hne o ho => ?_) ?_
    · rw [List.mem_singleton.mp ho]
      exact silent_opened hne
    · rintro mailbox q ⟨⟩
      exact law.opened id c.history
  | @received target before after message q hbx hbf =>
    refine law.update h rfl rfl (fun other hne o ho => ?_) ?_
    · rw [List.mem_singleton.mp ho]
      exact silent_received hne message
    · rintro mailbox q' ⟨⟩
      exact law.received hbf (h target _ _ hbx)
  | @refused target mailbox q q' hbx hrs =>
    refine law.update h rfl (List.append_nil _).symm (by simp) ?_
    rintro m' q'' ⟨⟩
    rw [List.append_nil]
    exact law.refused hrs (h target _ _ hbx)
  | @kept target mailbox message q q' hbx hrs =>
    refine law.update h rfl rfl (fun other hne o ho => ?_) ?_
    · rw [List.mem_singleton.mp ho]
      exact silent_sent hne message false
    · rintro m' q'' ⟨⟩
      exact law.kept hrs (h target _ _ hbx)
  | lost target message a =>
    refine law.update h rfl rfl (fun other hne o ho => ?_) (by rintro _ _ ⟨⟩)
    rw [List.mem_singleton.mp ho]
    exact silent_sent hne message a
  | @served target mailbox message q q' wait rest live first outcome hbx hrs hqu _
      hmt _ _ hot hlv =>
    refine law.update h rfl rfl (fun other hne o ho => ?_) ?_
    · simp only [List.mem_cons, List.not_mem_nil, or_false] at ho
      rcases ho with rfl | rfl | rfl
      · exact silent_sent hne message true
      · exact silent_served hne wait message live first
      · exact hot.silent fun _ _ heq => hne (by cases heq; rfl)
    · rintro m' q'' ⟨⟩
      refine law.served hrs ?_ hot hlv (h target _ _ hbx)
      intro other hoh heq
      have := hok.waits.settled target mailbox q hbx wait.senderId (by simp [hqu]) other hoh
      rw [heq, hmt] at this
      cases this
  | resolved hot hcs =>
    refine law.frame h hsm rfl fun target o ho => ?_
    rw [List.mem_singleton.mp ho]
    exact hot.silent (hcs target)
  | created | registered | raced =>
    refine law.frame h hsm rfl fun target o ho => ?_
    rw [List.mem_singleton.mp ho]
    exact ⟨by simp, rfl, rfl, rfl, rfl⟩
  | forget | allocated | freed | unregistered | popped | cleared =>
    exact law.frame h hsm (List.append_nil _).symm (by simp)

theorem balanced_law (limits : ResourceLimitKind → ℕ) :
    Law limits fun target (history : List (Observation host)) mailbox _ =>
      Balanced (sent target history) (taken target history) (strays target history) mailbox := by
  constructor
  case silent =>
    intro target history l mailbox _ hl h
    have hop := fun o ho => (hl o ho).1
    unfold sent taken strays
    rwa [tally_append_of_none hop fun o ho => (hl o ho).2.1,
      tally_append_of_none hop fun o ho => (hl o ho).2.2.1,
      tally_append_of_none hop fun o ho => (hl o ho).2.2.2.1]
  case opened =>
    intro target history
    rw [sent, taken, strays, tally_opened, tally_opened, tally_opened]
    exact balanced_nil
  case received =>
    intro target history before after message q hbf h
    rw [sent, taken, strays, tally_snoc_none (by simp) rfl,
      tally_snoc_some (by simp) (if_pos rfl), tally_snoc_none (by simp) rfl]
    exact h.received hbf
  case refused => exact fun _ h => h
  case kept =>
    intro target history mailbox message q q' _ h
    rw [sent, taken, strays, tally_snoc_some (by simp) (if_pos rfl),
      tally_snoc_none (by simp) rfl, tally_snoc_none (by simp) rfl]
    exact h.kept
  case served =>
    intro c target history mailbox message q q' w lv first o _ hml hot hlv h
    rw [served_history]
    have hop := hot.ne_opened target
    obtain ⟨hsn, hst, -⟩ := hot.messages_eq_none target
    have htk := hot.takenMessage_eq hlv
    rw [sent, tally_snoc_none hop hsn, tally_snoc_none (by simp) rfl,
      tally_snoc_some (by simp) (if_pos rfl)]
    cases lv with
    | true =>
      rw [taken, tally_snoc_some hop htk, tally_snoc_none (by simp) rfl,
        tally_snoc_none (by simp) rfl, strays, tally_snoc_none hop hst,
        tally_snoc_none (by simp) rfl, tally_snoc_none (by simp) rfl]
      exact h.served hml
    | false =>
      rw [taken, tally_snoc_none hop htk, tally_snoc_none (by simp) rfl,
        tally_snoc_none (by simp) rfl, strays, tally_snoc_none hop hst,
        tally_snoc_some (by simp) (if_pos rfl), tally_snoc_none (by simp) rfl]
      exact h.stray

theorem AccountsOk.step (h : c.AccountsOk) (hok : c.Ok) (hs : Step c c') : c'.AccountsOk :=
  (balanced_law c.limits).step h hok hs

end Galfus.Core
