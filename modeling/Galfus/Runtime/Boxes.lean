import Galfus.Runtime.Kernel

/-! # The mailboxes of the kernel

The box of a thread is its mailbox with the quota that counts it. The operations of the
kernel that are not about messages leave every box as it is or remove it with its thread.
-/

namespace Galfus.VirtualKernel

variable {host : Host}

def boxOf (tcb : ThreadControlBlock host) : Option (List MailboxMessage × MailboxQuota) :=
  tcb.mailbox.map fun mailbox => (mailbox, tcb.quota)

/-- The mailbox of a thread that is alive, and its quota. -/
def box (k : VirtualKernel host) (id : ℕ) : Option (List MailboxMessage × MailboxQuota) :=
  (k.tcb? id).bind boxOf

/-- Boxes are only removed, and only the ids of threads without a box are freed. -/
structure Shrinks (k k' : VirtualKernel host) : Prop where
  box : ∀ id, k'.box id = k.box id ∨ k'.box id = none
  active : ∀ id, k'.box id ≠ none → id ∈ k.threadIds.activeIds → id ∈ k'.threadIds.activeIds
  sound : k.threadIds.Sound → k'.threadIds.Sound
  limits : k'.quota.limits = k.quota.limits

variable {k k' k'' : VirtualKernel host} {id : ℕ}

namespace Shrinks

theorem refl (k : VirtualKernel host) : k.Shrinks k :=
  ⟨fun _ => .inl rfl, fun _ _ h => h, fun h => h, rfl⟩

theorem trans (h : k.Shrinks k') (h' : k'.Shrinks k'') : k.Shrinks k'' := by
  constructor
  · intro id
    rcases h'.box id with heq | hn
    · rw [heq]
      exact h.box id
    · exact .inr hn
  · intro id hb hid
    have hb' : k'.box id ≠ none := by
      rcases h'.box id with heq | hn
      · rwa [← heq]
      · exact absurd hn hb
    exact h'.active id hb (h.active id hb' hid)
  · exact fun hs => h'.sound (h.sound hs)
  · exact h'.limits.trans h.limits

theorem of_snd {α : Type} {p : α × VirtualKernel host} {a : α} (h : k.Shrinks p.2)
    (heq : p = (a, k')) : k.Shrinks k' := by
  rwa [heq] at h

theorem of_box (hb : ∀ id, k'.box id = k.box id ∨ k'.box id = none)
    (hi : k'.threadIds = k.threadIds) (hl : k'.quota.limits = k.quota.limits) :
    k.Shrinks k' :=
  ⟨hb, fun _ _ h => hi ▸ h, fun h => hi ▸ h, hl⟩

theorem of_eq (hr : k'.registry.tcbs = k.registry.tcbs)
    (hi : k'.threadIds = k.threadIds) (hl : k'.quota.limits = k.quota.limits) :
    k.Shrinks k' := by
  apply of_box (fun id => .inl ?_) hi hl
  unfold VirtualKernel.box tcb?
  rw [hr]

end Shrinks

theorem tcb?_setTcb (t : ThreadControlBlock host) (id' : ℕ) :
    (k.setTcb id t).tcb? id' = if id' = id then some t else k.tcb? id' :=
  Table.lookup_insert_eq ..

theorem box_setTcb (t : ThreadControlBlock host) (id' : ℕ) :
    (k.setTcb id t).box id' = if id' = id then boxOf t else k.box id' := by
  unfold box
  rw [tcb?_setTcb]
  split <;> rfl

theorem shrinks_setTcb {t t' : ThreadControlBlock host} (h : k.tcb? id = some t)
    (hb : boxOf t' = boxOf t ∨ boxOf t' = none) : k.Shrinks (k.setTcb id t') := by
  refine .of_box ?_ rfl rfl
  intro id'
  rw [box_setTcb]
  split
  · next heq =>
    rw [heq, box, h]
    exact hb
  · exact .inl rfl

theorem shrinks_release (kn : ResourceLimitKind) (a : ℕ) : k.Shrinks (k.release kn a) :=
  .of_eq rfl rfl rfl

theorem shrinks_reserve (kn : ResourceLimitKind) (a : ℕ) : k.Shrinks (k.reserve kn a).2 := by
  unfold reserve GlobalQuota.tryReserve
  split
  · next quota h =>
    refine .of_eq rfl rfl ?_
    split at h
    · cases h
    · cases h
      rfl
  · exact .refl k

theorem shrinks_dropThread (thread : host.Thread) : k.Shrinks (k.dropThread thread) := by
  unfold dropThread
  split
  · exact shrinks_release _ _
  · exact .refl k

theorem shrinks_dropThread? (thread : Option host.Thread) : k.Shrinks (k.dropThread? thread) := by
  cases thread with
  | none => exact .refl k
  | some thread => exact shrinks_dropThread thread

theorem shrinks_releaseTimer (ha : Bool) : k.Shrinks (k.releaseTimer ha) := by
  unfold releaseTimer
  split
  · exact shrinks_release _ _
  · exact .refl k

theorem shrinks_take (id : ℕ) : k.Shrinks (k.take id).2 := by
  unfold take
  split
  · next h => exact shrinks_setTcb h (.inl rfl)
  · exact .refl k

theorem shrinks_takeCreatedThread (id : ℕ) : k.Shrinks (k.takeCreatedThread id).2 := by
  unfold takeCreatedThread
  split
  · exact shrinks_take id
  · exact .refl k

theorem shrinks_takeThread (id : ℕ) : k.Shrinks (k.takeThread id).2 := by
  unfold takeThread
  split
  · next heq => exact ((shrinks_take id).of_snd heq).trans (shrinks_release _ _)
  · next heq => exact (shrinks_take id).of_snd heq

theorem shrinks_restoreVmState (id : ℕ) (thread : host.Thread) :
    k.Shrinks (k.restoreVmState id thread) := by
  unfold restoreVmState
  split
  · next h =>
    refine .trans ?_ (shrinks_dropThread? _)
    exact shrinks_setTcb h (.inl rfl)
  · exact shrinks_dropThread thread

theorem tcb?_reserve (kn : ResourceLimitKind) (a id : ℕ) :
    (k.reserve kn a).2.tcb? id = k.tcb? id := by
  unfold reserve
  split <;> rfl

theorem shrinks_markSpawned (id : ℕ) : k.Shrinks (k.markSpawned id).2 := by
  unfold markSpawned
  split
  · next tcb h =>
    split
    · split
      · next heq =>
        have ht := @tcb?_reserve _ k .threads 1 id
        rw [heq] at ht
        refine ((shrinks_reserve _ _).of_snd heq).trans ?_
        exact shrinks_setTcb (ht.trans h) (.inl rfl)
      · next heq => exact (shrinks_reserve _ _).of_snd heq
    · exact .refl k
  · exact .refl k

theorem shrinks_markRunning (id : ℕ) : k.Shrinks (k.markRunning id) := by
  unfold markRunning
  split
  · next h =>
    split
    · exact .refl k
    · exact shrinks_setTcb h (.inl rfl)
  · exact .refl k

theorem box_dropThread? (thread : Option host.Thread) (id : ℕ) :
    (k.dropThread? thread).box id = k.box id := by
  cases thread with
  | none => rfl
  | some thread =>
    show (k.dropThread thread).box id = k.box id
    unfold dropThread
    split <;> rfl

theorem box_forget (id id' : ℕ) : (k.forget id).box id' = if id' = id then none else k.box id' := by
  unfold forget
  split
  · next tcb h =>
    rw [box_dropThread?]
    unfold box tcb?
    simp only [Table.lookup_erase_eq]
    split <;> rfl
  · next h =>
    split
    · next heq => rw [heq, box, h, Option.bind_none]
    · rfl

theorem threadIds_dropThread? (thread : Option host.Thread) :
    (k.dropThread? thread).threadIds = k.threadIds := by
  cases thread with
  | none => rfl
  | some thread =>
    show (k.dropThread thread).threadIds = k.threadIds
    unfold dropThread
    split <;> rfl

theorem threadIds_forget (id : ℕ) : (k.forget id).threadIds = k.threadIds := by
  unfold forget
  split
  · rw [threadIds_dropThread?]
  · rfl

theorem shrinks_forget (id : ℕ) : k.Shrinks (k.forget id) := by
  apply Shrinks.of_box _ (threadIds_forget id)
  · unfold forget
    split
    · exact (shrinks_dropThread? _).limits
    · rfl
  · intro id'
    rw [box_forget]
    split
    · exact .inr rfl
    · exact .inl rfl

theorem shrinks_expireExited (i : List ℕ) (k : VirtualKernel host) :
    k.Shrinks (expireExited i k) := by
  induction i generalizing k with
  | nil => exact .refl k
  | cons first r ih =>
    unfold expireExited
    split
    · refine .trans (.trans ?_ (shrinks_forget first)) (ih _)
      exact .of_eq rfl rfl rfl
    · exact .refl k

theorem shrinks_markExited (id : ℕ) (thread : host.Thread)
    (r : Except ExecutionFailure (BitVec 32)) :
    k.Shrinks (k.markExited id thread r) := by
  have hr := @shrinks_restoreVmState _ k id thread
  unfold markExited
  dsimp only
  split
  · next tcb h =>
    split
    · exact hr
    · refine hr.trans (.trans ?_ (shrinks_expireExited _ _))
      refine .trans (.trans ?_ (shrinks_dropThread? tcb.vmState)) (.of_eq rfl rfl rfl)
      exact shrinks_setTcb h (.inr rfl)
  · exact hr

theorem shrinks_enqueueWith (e : RunnableQueue → ℕ → RunnableQueue) (id : ℕ)
    (thread : host.Thread) : k.Shrinks (k.enqueueWith e id thread).2 := by
  unfold enqueueWith
  split
  · exact shrinks_restoreVmState id thread
  · split
    · next heq =>
      refine ((shrinks_reserve _ _).of_snd heq).trans ((shrinks_restoreVmState id thread).trans ?_)
      exact .of_eq rfl rfl rfl
    · next heq => exact ((shrinks_reserve _ _).of_snd heq).trans (shrinks_restoreVmState id thread)

theorem shrinks_enqueueRunnable (id : ℕ) (thread : host.Thread) :
    k.Shrinks (k.enqueueRunnable id thread).2 :=
  shrinks_enqueueWith _ id thread

theorem shrinks_enqueueRunnableFront (id : ℕ) (thread : host.Thread) :
    k.Shrinks (k.enqueueRunnableFront id thread).2 :=
  shrinks_enqueueWith _ id thread

theorem shrinks_blocked (b : BlockedQueue) (ha : Bool) (id : ℕ) (thread : host.Thread) :
    k.Shrinks (({ k with blocked := b }.releaseTimer ha).restoreVmState id thread) := by
  refine .trans (.trans ?_ (shrinks_releaseTimer ha)) (shrinks_restoreVmState id thread)
  exact .of_eq rfl rfl rfl

theorem shrinks_block (id : ℕ) (thread : host.Thread) (t : Option ℕ) :
    k.Shrinks (k.block id thread t).2 := by
  unfold block
  split
  · next heq => exact ((shrinks_reserve _ _).of_snd heq).trans (shrinks_restoreVmState id thread)
  · next heq =>
    have hr := (shrinks_reserve _ _).of_snd heq
    split
    · split
      · next heq =>
        exact (hr.trans ((shrinks_reserve _ _).of_snd heq)).trans
          ((shrinks_release _ _).trans (shrinks_restoreVmState id thread))
      · next heq =>
        have ht := hr.trans ((shrinks_reserve _ _).of_snd heq)
        split
        · exact ht.trans (shrinks_dropThread thread)
        · exact ht.trans (shrinks_blocked _ _ id thread)
    · exact hr.trans (shrinks_blocked _ _ id thread)

theorem shrinks_unblock (id : ℕ) : k.Shrinks (k.unblock id).2 := by
  unfold unblock
  generalize k.blocked.unblock id = p
  obtain ⟨⟨wb, ha⟩, b⟩ := p
  have hb : k.Shrinks { k with blocked := b } := .of_eq rfl rfl rfl
  dsimp only
  split
  · split
    · next thread _ heq =>
      have hr := (hb.trans ((shrinks_take id).of_snd heq)).trans
        ((shrinks_release .pendingStates 1).trans (shrinks_releaseTimer ha))
      split
      · next heq => exact hr.trans ((shrinks_enqueueRunnable id thread).of_snd heq)
      · next heq => exact hr.trans ((shrinks_enqueueRunnable id thread).of_snd heq)
    · next heq => exact hb.trans ((shrinks_take id).of_snd heq)
  · exact hb

theorem shrinks_releaseCancelled (wr : Bool) (bi : Option Bool) :
    k.Shrinks (k.releaseCancelled wr bi) := by
  cases wr <;> cases bi
  · exact .refl k
  · exact (shrinks_release _ _).trans (shrinks_releaseTimer _)
  · exact shrinks_release _ _
  · exact (shrinks_release _ _).trans ((shrinks_release _ _).trans (shrinks_releaseTimer _))

theorem box_removeTcb (id id' : ℕ) :
    (k.removeTcb id).2.box id' = if id' = id then none else k.box id' := by
  unfold removeTcb
  cases h : k.tcb? id with
  | some t => exact box_forget id id'
  | none =>
    by_cases heq : id' = id
    · rw [if_pos heq, heq]
      exact congrArg (fun tcb? => tcb?.bind boxOf) h
    · exact (if_neg heq).symm

theorem shrinks_removeTcb (id : ℕ) : k.Shrinks (k.removeTcb id).2 := by
  unfold removeTcb
  split
  · refine .trans ?_ (shrinks_forget id)
    exact .of_eq rfl rfl rfl
  · exact .of_eq rfl rfl rfl

theorem shrinks_free (h : k.box id = none) :
    k.Shrinks { k with threadIds := k.threadIds.free id } := by
  constructor
  · exact fun _ => .inl rfl
  · intro id' hb hid
    have hne : id' ≠ id := by
      rintro rfl
      exact hb h
    exact IdManager.activeIds_free ▸ Finset.mem_erase.mpr ⟨hne, hid⟩
  · exact .free
  · rfl

theorem shrinks_cancel (id : ℕ) : k.Shrinks (k.cancel id) := by
  unfold cancel
  generalize k.runnable.remove id = p
  generalize k.blocked.remove id = q
  obtain ⟨wr, r⟩ := p
  obtain ⟨bi, b⟩ := q
  dsimp only
  have ht := Shrinks.trans (Shrinks.of_eq rfl rfl rfl : k.Shrinks
    { k with runnable := r, blocked := b }) (shrinks_take id)
  generalize VirtualKernel.take { k with runnable := r, blocked := b } id = p at ht ⊢
  obtain ⟨thread, k₁⟩ := p
  have hr : k.Shrinks (if thread.isSome = true then k₁.releaseCancelled wr bi else k₁) := by
    split
    · exact ht.trans (shrinks_releaseCancelled _ _)
    · exact ht
  generalize (if thread.isSome = true then k₁.releaseCancelled wr bi else k₁) = k₂ at hr ⊢
  have hrm := hr.trans (shrinks_removeTcb id)
  have hb := @box_removeTcb _ k₂ id id
  refine Shrinks.trans ?_ (shrinks_dropThread? thread)
  split
  · exact hrm.trans (shrinks_free (by simpa using hb))
  · exact hrm

theorem shrinks_nextRunnableDetailed : k.Shrinks (k.nextRunnableDetailed).2 :=
  .of_eq rfl rfl rfl

theorem shrinks_wake (i : List ℕ) (k : VirtualKernel host) : k.Shrinks (wake i k).2 := by
  induction i generalizing k with
  | nil => exact .refl k
  | cons id r ih =>
    unfold wake
    split
    · next heq =>
      exact (((shrinks_take id).of_snd heq).trans (((shrinks_release _ _).trans
        (shrinks_release _ _)).trans (shrinks_enqueueRunnable id _))).trans (ih _)
    · next heq => exact ((shrinks_take id).of_snd heq).trans (ih _)

theorem shrinks_tick (dm : ℕ) : k.Shrinks (k.tick dm).2 := by
  refine .trans ?_ (shrinks_wake _ _)
  exact .of_eq rfl rfl rfl

section Messages

variable {senderId : Option ℕ}

/-- Whether a receive with this sender, if it has one, takes messages of `sender`. -/
def matchesSender (senderId : Option ℕ) (sender : ℕ) : Bool :=
  match senderId with
  | some senderId => sender == senderId
  | none => true

theorem messageIndex_eq (senderId : Option ℕ) (mailbox : List MailboxMessage) :
    messageIndex senderId mailbox =
      mailbox.findIdx? fun m => matchesSender senderId m.senderId := by
  cases senderId with
  | none => cases mailbox <;> rfl
  | some s => rfl

theorem messageIndex_eq_none {mailbox : List MailboxMessage} :
    messageIndex senderId mailbox = none ↔
      ∀ m ∈ mailbox, matchesSender senderId m.senderId = false := by
  rw [messageIndex_eq, List.findIdx?_eq_none_iff]

theorem exists_of_messageIndex {mailbox : List MailboxMessage} {i : ℕ}
    (h : messageIndex senderId mailbox = some i) :
    ∃ b m a, mailbox = b ++ m :: a ∧ mailbox[i]? = some m ∧ mailbox.eraseIdx i = b ++ a ∧
      matchesSender senderId m.senderId = true ∧
      ∀ o ∈ b, matchesSender senderId o.senderId = false := by
  rw [messageIndex_eq] at h
  induction mailbox generalizing i with
  | nil => cases h
  | cons first r ih =>
    rw [List.findIdx?_cons] at h
    split at h
    · next hf =>
      cases h
      exact ⟨[], first, r, rfl, rfl, rfl, hf, by simp⟩
    · next hf =>
      obtain ⟨j, hj, rfl⟩ := Option.map_eq_some_iff.mp h
      obtain ⟨b, m, a, hr, hg, hes, hm, hb⟩ := ih hj
      refine ⟨first :: b, m, a, by rw [hr]; rfl, hg, ?_, hm, ?_⟩
      · rw [List.eraseIdx_cons_succ, hes]
        rfl
      · rintro o (_ | ⟨_, ho⟩)
        · exact Bool.eq_false_iff.mpr hf
        · exact hb o ho

theorem getMailbox_eq (k : VirtualKernel host) (id : ℕ) :
    k.getMailbox id = (k.box id).map Prod.fst := by
  unfold getMailbox box boxOf
  cases k.tcb? id with
  | none => rfl
  | some t => cases h : t.mailbox <;> simp [h]

variable {ml : List MailboxMessage} {q : MailboxQuota}

variable (h : k.box id = some (ml, q))
include h

theorem exists_tcb_of_box : ∃ t, k.tcb? id = some t ∧ t.mailbox = some ml ∧ t.quota = q := by
  obtain ⟨t, ht, hb⟩ := Option.bind_eq_some_iff.mp h
  obtain ⟨_, hm, heq⟩ := Option.map_eq_some_iff.mp hb
  cases heq
  exact ⟨t, ht, hm, rfl⟩

theorem getThreadQuota_of_box : k.getThreadQuota id = some q := by
  obtain ⟨t, ht, -, rfl⟩ := exists_tcb_of_box h
  unfold getThreadQuota
  rw [ht]
  rfl

theorem box_setMailbox (m' : List MailboxMessage) (id' : ℕ) : (k.setMailbox id m').box id' =
      if id' = id then some (m', q) else k.box id' := by
  obtain ⟨t, ht, -, rfl⟩ := exists_tcb_of_box h
  unfold setMailbox
  rw [ht]
  exact box_setTcb _ _

theorem box_setThreadQuota (q' : MailboxQuota) (id' : ℕ) : (k.setThreadQuota id q').box id' =
      if id' = id then some (ml, q') else k.box id' := by
  obtain ⟨t, ht, hm, rfl⟩ := exists_tcb_of_box h
  unfold setThreadQuota
  rw [ht]
  refine (box_setTcb _ _).trans ?_
  unfold boxOf
  simp [hm]

omit h in
@[simp]
theorem setMailbox_frame (id : ℕ) (ml : List MailboxMessage) :
    (k.setMailbox id ml).threadIds = k.threadIds ∧ (k.setMailbox id ml).quota = k.quota := by
  unfold setMailbox
  split <;> exact ⟨rfl, rfl⟩

omit h in
@[simp]
theorem setThreadQuota_frame (id : ℕ) (q : MailboxQuota) :
    (k.setThreadQuota id q).threadIds = k.threadIds ∧ (k.setThreadQuota id q).quota = k.quota := by
  unfold setThreadQuota
  split <;> exact ⟨rfl, rfl⟩

omit h in
theorem takeMessage_none (h : k.takeMessage id senderId = (none, k')) :
    k' = k ∧ ∀ ml q, k.box id = some (ml, q) →
      ∀ m ∈ ml, matchesSender senderId m.senderId = false := by
  unfold takeMessage at h
  rw [getMailbox_eq] at h
  cases hb : k.box id with
  | none =>
    rw [hb] at h
    cases h
    exact ⟨rfl, by simp⟩
  | some box =>
    rw [hb] at h
    simp only [Option.map_some] at h
    split at h
    · next hi =>
      cases h
      refine ⟨rfl, ?_⟩
      rintro ml q ⟨⟩
      exact messageIndex_eq_none.mp hi
    · next hi =>
      obtain ⟨-, m, -, -, hg, -⟩ := exists_of_messageIndex hi
      rw [hg] at h
      cases h

omit h in
/-- A receive that finds a message takes the first one that matches. -/
theorem takeMessage_some {m : MailboxMessage} (h : k.takeMessage id senderId = (some m, k')) :
    ∃ b a q, k.box id = some (b ++ m :: a, q) ∧ k' = k.setMailbox id (b ++ a) ∧
      matchesSender senderId m.senderId = true ∧
      ∀ o ∈ b, matchesSender senderId o.senderId = false := by
  unfold takeMessage at h
  rw [getMailbox_eq] at h
  cases hbx : k.box id with
  | none =>
    rw [hbx] at h
    cases h
  | some box =>
    rw [hbx] at h
    simp only [Option.map_some] at h
    split at h
    · cases h
    · next hi =>
      obtain ⟨b, first, a, hm, hg, hes, hmt, hb⟩ :=
        exists_of_messageIndex hi
      rw [hg, hes] at h
      cases h
      exact ⟨b, a, box.2, by rw [← hm], rfl, hmt, hb⟩

theorem releaseMessage_of_box (m : MailboxMessage) : k.releaseMessage id m = k.setThreadQuota id
      ((q.releaseMailboxMessages 1).releaseMailboxBytes m.data.length) := by
  unfold releaseMessage
  rw [getThreadQuota_of_box h]

theorem box_replace (m' : List MailboxMessage) (q' : MailboxQuota) :
    ((k.setThreadQuota id q').setMailbox id m').box = Function.update k.box id (some (m', q')) ∧
      ((k.setMailbox id m').setThreadQuota id q').box =
        Function.update k.box id (some (m', q')) := by
  constructor
  · have hb : (k.setThreadQuota id q').box id = some (ml, q') := by
      rw [box_setThreadQuota h, if_pos rfl]
    funext id'
    rw [box_setMailbox hb, Function.update_apply, box_setThreadQuota h]
    split <;> rfl
  · have hb : (k.setMailbox id m').box id = some (m', q) := by
      rw [box_setMailbox h, if_pos rfl]
    funext id'
    rw [box_setThreadQuota hb, Function.update_apply, box_setMailbox h]
    split <;> rfl

end Messages

section Spawn

variable {t : host.Thread} {key : Option String}

theorem reserve_ok {kn : ResourceLimitKind} {a : ℕ} {u : Unit} (h : k.reserve kn a = (.ok u, k')) :
    k'.threadIds = k.threadIds ∧ k'.quota.limits = k.quota.limits ∧ ∀ id, k'.box id = k.box id := by
  have hl := ((shrinks_reserve kn a).of_snd h).limits
  unfold reserve at h
  split at h
  · cases h
    exact ⟨rfl, hl, fun _ => rfl⟩
  · cases h

theorem box_park (h : k.park id t key = (.ok (), k')) :
    k'.threadIds = k.threadIds ∧ k'.quota.limits = k.quota.limits ∧
      ∀ id', k'.box id' = if id' = id then some ([], .new k.quota.limits) else k.box id' := by
  unfold park at h
  split at h
  · cases h
    refine ⟨rfl, rfl, fun id' => ?_⟩
    unfold box tcb?
    simp only [Table.lookup_insert_eq]
    split <;> rfl
  · cases h

theorem spawn_ok (h : k.spawn t key = (.ok id, k')) :
    k.threadIds.tryAllocate = some (id, k'.threadIds) ∧ k'.quota.limits = k.quota.limits ∧
      ∀ id', k'.box id' = if id' = id then some ([], .new k.quota.limits) else k.box id' := by
  unfold spawn at h
  split at h
  · cases h
  · next k₁ hr =>
    obtain ⟨hi, hl, hb⟩ := reserve_ok hr
    dsimp only at h
    split at h
    · split at h
      · cases h
      · next ha =>
        split at h
        · next hp =>
          cases h
          obtain ⟨hi', hl', hb'⟩ := box_park hp
          refine ⟨?_, hl'.trans hl, fun id' => ?_⟩
          · rw [← hi, ha, hi']
          · rw [hb', ← hl, ← hb]
            rfl
        · cases h
    · cases h

theorem spawn_error {e : ExecutionFailure} (h : k.spawn t key = (.error e, k')) : k.Shrinks k' := by
  unfold spawn at h
  split at h
  · next hrs =>
    cases h
    exact (shrinks_reserve _ _).of_snd hrs
  · next hrs =>
    have hr := (shrinks_reserve _ _).of_snd hrs
    dsimp only at h
    split at h
    · next hk =>
      split at h
      · cases h
        exact hr.trans (shrinks_dropThread _)
      · split at h
        · cases h
        · next hp =>
          -- the key was found to be available, so the registration does not fail
          unfold park at hp
          split at hp
          · cases hp
          · next hn => exact absurd hk hn
    · cases h
      exact hr.trans (shrinks_dropThread _)

end Spawn

end Galfus.VirtualKernel
