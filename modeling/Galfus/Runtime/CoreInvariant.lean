import Galfus.Runtime.Core

/-! # The invariant of the core

The threads with a box have ids that are in use. The futures that are registered have ids
that are in use, no two of them have one id, and each was created with the current lease of
its id, unless a race discarded a future of another thread. No message that a receive waits
for stays in a mailbox.
-/

namespace Galfus

open Function (update_of_ne update_self)
open VirtualKernel (matchesSender)

namespace Generations

theorem of_bump_ne {g : Generations} {id id' : ℕ} (h : id' ≠ id) :
    (g.bump id).of id' = g.of id' := by
  unfold bump of
  cases g.lookup id <;> rw [AList.lookup_insert_ne h]

theorem lease_bump_ne {g : Generations} {id id' : ℕ} (h : id' ≠ id) :
    (g.bump id).lease id' = g.lease id' := by
  unfold lease
  rw [of_bump_ne h]

end Generations

namespace Core

variable {host : Host} {c c' : Core host}

section History

variable {h l : List (Observation host)}

theorem Clean.of_append (hc : Clean (h ++ l)) : Clean h :=
  fun key hm => hc key (List.mem_append_left l hm)

/-- Observations that are not about the creation of a future. -/
theorem leaseOf_append (hl : ∀ key ls, Observation.created key ls ∉ l) (key : FutureKey) :
    leaseOf (h ++ l) key = leaseOf h key := by
  unfold leaseOf
  rw [List.foldl_append]
  induction l with
  | nil => rfl
  | cons o l ih =>
    have hr := ih fun key ls hm => hl key ls (List.mem_cons_of_mem o hm)
    cases o with
    | created k' l' => exact absurd List.mem_cons_self (hl k' l')
    | _ => exact hr

theorem leaseOf_created (key k' : FutureKey) (ls : Lease) : leaseOf (h ++ [.created k' ls]) key =
      if k' = key then some ls else leaseOf h key := by
  unfold leaseOf
  rw [List.foldl_append]
  rfl

theorem Outcome.ne_created {key k' : FutureKey} {cs : Cause} {r : host.Result}
    {o : Observation host} {ls : Lease} (h : Outcome c key cs r o) : o ≠ .created k' ls := by
  cases h <;> simp

end History

/-- The ids of the threads that have a box are in use. -/
structure ThreadsOk (c : Core host) : Prop where
  sound : c.threadIds.Sound
  active : ∀ id, c.box id ≠ none → id ∈ c.threadIds.activeIds

/-- The futures that are registered have ids of their own, with the leases that they were
created with. -/
structure FuturesOk (c : Core host) : Prop where
  active : ∀ key, c.held key → key.2 ∈ c.futureIds.activeIds
  lease : ∀ key, c.held key → leaseOf c.history key = some (c.generations.lease key.2)
  unique : ∀ key key', c.held key → c.held key' → key.2 = key'.2 → key = key'

/-- No receive in a queue waits for a message that is in the mailbox. -/
structure WaitsOk (c : Core host) : Prop where
  sender : ∀ target senderId, ∀ wait ∈ c.queue target senderId, wait.senderId = senderId
  settled : ∀ target mailbox quota, c.box target = some (mailbox, quota) →
    ∀ senderId, c.queue target senderId ≠ [] →
      ∀ message ∈ mailbox, matchesSender senderId message.senderId = false

structure Ok (c : Core host) : Prop where
  threads : c.ThreadsOk
  ids : c.futureIds.Sound
  futures : Clean c.history → c.FuturesOk
  waits : c.WaitsOk

theorem ThreadsOk.update (h : c.ThreadsOk) {t : ℕ}
    {b : List MailboxMessage × MailboxQuota} (hb : c.box t = some b)
    (b' : Option (List MailboxMessage × MailboxQuota)) (id : ℕ)
    (hid : Function.update c.box t b' id ≠ none) : id ∈ c.threadIds.activeIds := by
  apply h.active
  rcases eq_or_ne id t with rfl | hne
  · simp [hb]
  · rwa [update_of_ne hne] at hid

theorem ThreadsOk.step (h : c.ThreadsOk) (hst : Step c c') : c'.ThreadsOk := by
  obtain ⟨hsn, ha⟩ := id h
  cases hst with
  | quiet b ti hb hids hs =>
    refine ⟨hs hsn, fun id hid => hids id hid (ha id ?_)⟩
    rcases hb id with heq | hn
    · rwa [← heq]
    · exact absurd hn hid
  | @opened id ti hal =>
    obtain ⟨hs, -, hids⟩ := hsn.tryAllocate hal
    refine ⟨hs, fun id' hid' => ?_⟩
    rw [hids, Finset.mem_insert]
    rcases eq_or_ne id' id with heq | hne
    · exact .inl heq
    · dsimp only at hid'
      rw [update_of_ne hne] at hid'
      exact .inr (ha id' hid')
  | received hb | refused hb | kept hb | served hb => exact ⟨hsn, h.update hb _⟩
  | lost t =>
    refine ⟨hsn, fun id hid => ha id ?_⟩
    dsimp only at hid
    rcases eq_or_ne id t with rfl | hne
    · simp at hid
    · rwa [update_of_ne hne] at hid
  | _ => exact ⟨hsn, ha⟩

section Futures

variable {fi : IdManager}

theorem ids_step (h : c.futureIds.Sound) (hs : Step c c') : c'.futureIds.Sound := by
  cases hs with
  | allocated ha | created _ ha => exact (h.tryAllocate ha).1
  | freed => exact h.free
  | _ => exact h

theorem Step.history_eq (hs : Step c c') : ∃ l, c'.history = c.history ++ l := by
  cases hs with
  | opened | received | kept | lost | served | created | registered | resolved | raced =>
    exact ⟨_, rfl⟩
  | _ => exact ⟨[], (List.append_nil _).symm⟩

variable (h : c.FuturesOk)
include h

theorem FuturesOk.of_append {l : List (Observation host)} (ha : c'.futureIds = c.futureIds)
    (hg : c'.generations = c.generations) (hh : ∀ key, c'.held key → c.held key)
    (hhs : c'.history = c.history ++ l)
    (hl : ∀ key ls, Observation.created key ls ∉ l) : c'.FuturesOk := by
  constructor
  · exact fun key hk => ha ▸ h.active key (hh key hk)
  · intro key hk
    rw [hhs, leaseOf_append hl, hg]
    exact h.lease key (hh key hk)
  · exact fun key k' hk hk' => h.unique key k' (hh key hk) (hh k' hk')

variable (hd : c.futureIds.Sound)
include hd

theorem FuturesOk.ne_of_allocate {id : ℕ}
    (ha : c.futureIds.tryAllocate = some (id, fi)) (key : FutureKey)
    (hk : c.held key) : key.2 ≠ id := by
  rintro rfl
  exact (hd.tryAllocate ha).2.1 (h.active key hk)

theorem FuturesOk.allocated {id : ℕ} (ha : c.futureIds.tryAllocate = some (id, fi)) :
    FuturesOk { c with futureIds := fi, generations := c.generations.bump id } := by
  have hne := h.ne_of_allocate hd ha
  obtain ⟨-, -, hac⟩ := hd.tryAllocate ha
  constructor
  · intro key hk
    exact hac ▸ Finset.mem_insert_of_mem (h.active key hk)
  · intro key hk
    exact (h.lease key hk).trans (by rw [Generations.lease_bump_ne (hne key hk)])
  · exact h.unique

theorem FuturesOk.created {id : ℕ} (hal : c.futureIds.tryAllocate = some (id, fi)) (ti : ℕ) :
    FuturesOk { c with
      futureIds := fi
      generations := c.generations.bump id
      held := fun key => key = (ti, id) ∨ c.held key
      history := c.history ++ [.created (ti, id) ((c.generations.bump id).lease id)] } := by
  have hne := h.ne_of_allocate hd hal
  obtain ⟨-, -, ha⟩ := hd.tryAllocate hal
  constructor
  · rintro key (rfl | hk)
    · exact ha ▸ Finset.mem_insert_self id _
    · exact ha ▸ Finset.mem_insert_of_mem (h.active key hk)
  · intro key hk
    rw [leaseOf_created]
    rcases hk with rfl | hk
    · rw [if_pos rfl]
    · rw [if_neg (fun heq => hne key hk (by rw [← heq])), h.lease key hk,
        Generations.lease_bump_ne (hne key hk)]
  · rintro key k' (rfl | hk) (rfl | hk') heq
    · rfl
    · exact absurd heq.symm (hne k' hk')
    · exact absurd heq (hne key hk)
    · exact h.unique key k' hk hk' heq

omit hd in
theorem FuturesOk.freed {id : ℕ} (hid : ∀ key, c.held key → key.2 ≠ id) :
    FuturesOk { c with futureIds := c.futureIds.free id } := by
  constructor
  · intro key hk
    exact IdManager.activeIds_free ▸ Finset.mem_erase.mpr ⟨hid key hk, h.active key hk⟩
  · exact h.lease
  · exact h.unique

theorem FuturesOk.step (hc : Clean c.history) (hs : Step c c') : c'.FuturesOk := by
  cases hs with
  | allocated ha => exact h.allocated hd ha
  | created ti ha => exact h.created hd ha ti
  | freed id hid => exact h.freed (hid hc)
  | forget hl hh => exact h.of_append rfl rfl hh (List.append_nil _).symm (by simp)
  | served _ _ _ _ _ _ _ ho _ =>
    refine h.of_append rfl rfl (fun _ hk => hk) rfl fun key ls hm => ?_
    simp only [List.mem_cons, reduceCtorEq, List.not_mem_nil, or_false, false_or] at hm
    exact ho.ne_created hm.symm
  | resolved ho =>
    refine h.of_append rfl rfl (fun _ hk => hk) rfl fun key ls hm => ?_
    exact ho.ne_created (List.mem_singleton.mp hm).symm
  | opened | received | kept | lost | registered | raced =>
    exact h.of_append rfl rfl (fun _ hk => hk) rfl (by simp)
  | quiet | refused | unregistered | popped | cleared => exact ⟨h.active, h.lease, h.unique⟩

end Futures

/-- Boxes with messages that were there before, and queues that get shorter. -/
theorem WaitsOk.of_subset (h : c.WaitsOk) (hb : ∀ t m q, c'.box t = some (m, q) →
      m = [] ∨ ∃ m' q', c.box t = some (m', q') ∧ m ⊆ m')
    (hq : ∀ t si, c'.queue t si ⊆ c.queue t si) :
    c'.WaitsOk := by
  constructor
  · exact fun t si w hw =>
      h.sender t si w (hq t si hw)
  · intro t m q heq si hne ms hm
    rcases hb t m q heq with rfl | ⟨m', q', heq', hs⟩
    · cases hm
    · refine h.settled t m' q' heq' si (fun hn => ?_) ms (hs hm)
      exact hne (List.subset_nil.mp (hn ▸ hq t si))

theorem WaitsOk.update (h : c.WaitsOk) {t : ℕ} {m : List MailboxMessage}
    {q : MailboxQuota} (hb : c.box t = some (m, q))
    {b : Option (List MailboxMessage × MailboxQuota)}
    (hs : ∀ m' q', b = some (m', q') → m' ⊆ m)
    (hc' : c'.box = Function.update c.box t b)
    (hq : ∀ t si, c'.queue t si ⊆ c.queue t si) :
    c'.WaitsOk := by
  refine h.of_subset (fun t' m' q' heq => .inr ?_) hq
  rw [hc'] at heq
  rcases eq_or_ne t' t with rfl | hne
  · rw [update_self] at heq
    exact ⟨m, q, hb, hs m' q' heq⟩
  · rw [update_of_ne hne] at heq
    exact ⟨m', q', heq, List.Subset.refl _⟩

theorem queue_update_sublist {t : ℕ} {si : Option ℕ} {w : MailboxFutureWait}
    {r : List MailboxFutureWait} (h : c.queue t si = w :: r) (t' : ℕ)
    (si' : Option ℕ) :
    (Function.update c.queue t (Function.update (c.queue t) si r) t'
      si').Sublist (c.queue t' si') := by
  rcases eq_or_ne t' t with rfl | hne
  · rw [update_self]
    rcases eq_or_ne si' si with rfl | hne
    · rw [update_self, h]
      exact List.sublist_cons_self w r
    · rw [update_of_ne hne]
  · rw [update_of_ne hne]

theorem WaitsOk.kept (h : c.WaitsOk) {t : ℕ} {m : List MailboxMessage}
    {ms : MailboxMessage} {q q' : MailboxQuota}
    (hb : c.box t = some (m, q))
    (hn : ∀ si, matchesSender si ms.senderId = true →
      c.queue t si = []) (hs : List (Observation host)) :
    WaitsOk { c with
      box := Function.update c.box t (some (m ++ [ms], q'))
      history := hs } := by
  refine ⟨h.sender, fun t' m' q'' heq si hne o hm => ?_⟩
  dsimp only at heq hne
  rcases eq_or_ne t' t with rfl | ht
  · rw [update_self] at heq
    cases heq
    rcases List.mem_append.mp hm with hm | hm
    · exact h.settled t' m q hb si hne o hm
    · rw [List.mem_singleton.mp hm]
      exact Bool.eq_false_iff.mpr fun hmt => hne (hn si hmt)
  · rw [update_of_ne ht] at heq
    exact h.settled t' m' q'' heq si hne o hm

theorem WaitsOk.registered (h : c.WaitsOk) (t : ℕ) (w : MailboxFutureWait)
    (hbx : ∀ ml q, c.box t = some (ml, q) → ∀ m ∈ ml, matchesSender w.senderId m.senderId = false)
    (hc' : c'.box = c.box)
    (hqu : c'.queue = Function.update c.queue t (Function.update (c.queue t)
      w.senderId (c.queue t w.senderId ++ [w]))) : c'.WaitsOk := by
  constructor
  · intro t' si o hmm
    rw [hqu] at hmm
    rcases eq_or_ne t' t with rfl | hne
    · rw [update_self] at hmm
      rcases eq_or_ne si w.senderId with rfl | hsn
      · rw [update_self] at hmm
        rcases List.mem_append.mp hmm with hmm | hmm
        · exact h.sender _ _ o hmm
        · rw [List.mem_singleton.mp hmm]
      · rw [update_of_ne hsn] at hmm
        exact h.sender _ _ o hmm
    · rw [update_of_ne hne] at hmm
      exact h.sender _ _ o hmm
  · intro t' ml q heq si hne m hmm
    rw [hc'] at heq
    rw [hqu] at hne
    rcases eq_or_ne t' t with rfl | htr
    · rw [update_self] at hne
      rcases eq_or_ne si w.senderId with rfl | hsn
      · exact hbx ml q heq m hmm
      · rw [update_of_ne hsn] at hne
        exact h.settled _ _ _ heq si hne m hmm
    · rw [update_of_ne htr] at hne
      exact h.settled _ _ _ heq si hne m hmm

theorem WaitsOk.step (h : c.WaitsOk) (hst : Step c c') : c'.WaitsOk := by
  have hqu : ∀ t si, c.queue t si ⊆ c.queue t si :=
    fun _ _ => List.Subset.refl _
  cases hst with
  | quiet b ti hbx =>
    refine h.of_subset (fun t m q heq => .inr ⟨m, q, ?_, ?_⟩) hqu
    · rcases hbx t with hsm | hnn
      · exact hsm ▸ heq
      · exact absurd (hnn.symm.trans heq) (by simp)
    · exact List.Subset.refl _
  | @opened id =>
    refine h.of_subset (fun t m q heq => ?_) hqu
    dsimp only at heq
    rcases eq_or_ne t id with rfl | hne
    · rw [update_self] at heq
      cases heq
      exact .inl rfl
    · rw [update_of_ne hne] at heq
      exact .inr ⟨m, q, heq, List.Subset.refl _⟩
  | received hbx =>
    refine h.update hbx ?_ rfl hqu
    rintro m' q' ⟨⟩
    exact List.append_subset.mpr ⟨by simp, by simp⟩
  | refused hbx =>
    refine h.update hbx ?_ rfl hqu
    rintro m' q' ⟨⟩
    exact List.Subset.refl _
  | kept hbx _ hnn => exact h.kept hbx hnn _
  | lost t =>
    refine h.of_subset (fun t' m q heq => .inr ⟨m, q, ?_, ?_⟩) hqu
    · dsimp only at heq
      rcases eq_or_ne t' t with rfl | hne
      · rw [update_self] at heq
        cases heq
      · rwa [update_of_ne hne] at heq
    · exact List.Subset.refl _
  | served hbx _ hq =>
    refine h.update hbx ?_ rfl fun t si =>
      (queue_update_sublist hq t si).subset
    rintro m' q' ⟨⟩
    exact List.Subset.refl _
  | registered t w _ hbx => exact h.registered t w hbx rfl rfl
  | popped hq =>
    exact h.of_subset (fun t m q heq =>
      .inr ⟨m, q, heq, List.Subset.refl _⟩) fun t si =>
        (queue_update_sublist hq t si).subset
  | cleared => exact ⟨by simp, by simp⟩
  | _ => exact ⟨h.sender, h.settled⟩

theorem Ok.step (h : c.Ok) (hs : Step c c') : c'.Ok := by
  refine ⟨h.threads.step hs, ids_step h.ids hs, fun hc => ?_, h.waits.step hs⟩
  obtain ⟨l, hl⟩ := hs.history_eq
  have hc : Clean c.history := .of_append (hl ▸ hc)
  exact (h.futures hc).step h.ids hc hs

theorem Ok.steps (h : c.Ok) (hs : Steps c c') : c'.Ok := by
  induction hs with
  | refl => exact h
  | tail _ hst ih => exact ih.step hst

end Core

end Galfus
