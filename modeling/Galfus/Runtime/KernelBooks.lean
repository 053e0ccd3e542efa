import Galfus.Runtime.BlockedQueue
import Galfus.Runtime.RunQueue

/-! # What the kernel has reserved

The kernel books its queued threads, its armed timers and its blocked threads in the global
quota. The books are its queues together with these counters; they are exact if every counter
is the size of what it counts. An operation that keeps the books exact only under a condition
has an iff here.
-/

namespace Galfus

open BlockedQueue (unblock_of_notMem card_unblock blockWithTimeout blocked_block
  blocked_blockWithTimeout fst_unblock isDue_iff)

structure Books where
  runnable : RunnableQueue
  blocked : BlockedQueue
  runnableThreads : ℕ
  timers : ℕ
  pendingStates : ℕ

namespace Books

/-- The counters are the sizes of the queues; the coordinators are counted with the blocked
threads. -/
structure Exact (b : Books) (coordinators : ℕ) : Prop where
  runnableThreads : b.runnableThreads = Table.size b.runnable.queued
  timers : b.timers = Table.size b.blocked.activeTimers
  pendingStates : b.pendingStates = b.blocked.blocked.card + coordinators

end Books

namespace VirtualKernel

variable {host : Host} {k : VirtualKernel host} {n id : ℕ}

def books (k : VirtualKernel host) : Books :=
  ⟨k.runnable, k.blocked, k.quota.used .runnableThreads, k.quota.used .timers,
    k.quota.used .pendingStates⟩

def hasState (k : VirtualKernel host) (id : ℕ) : Bool :=
  ((k.tcb? id).bind (·.vmState)).isSome

def isFull (k : VirtualKernel host) (kind : ResourceLimitKind) : Bool :=
  decide (k.quota.limits kind < usizeSaturatingAdd (k.quota.used kind) 1)

def occupy (k : VirtualKernel host) (kind : ResourceLimitKind) : VirtualKernel host :=
  { k with quota := k.quota.setUsed kind (k.quota.used kind + 1) }

@[simp]
theorem books_dropThread (thread : host.Thread) : (k.dropThread thread).books = k.books := by
  unfold dropThread
  split <;> rfl

@[simp]
theorem books_dropThread? (thread : Option host.Thread) :
    (k.dropThread? thread).books = k.books := by
  cases thread with
  | none => rfl
  | some thread => exact books_dropThread thread

@[simp]
theorem books_setTcb (t : ThreadControlBlock host) : (k.setTcb id t).books = k.books := rfl

@[simp]
theorem books_restoreVmState (k : VirtualKernel host) (id : ℕ) (thread : host.Thread) :
    (k.restoreVmState id thread).books = k.books := by
  unfold restoreVmState
  split
  · exact (books_dropThread? _).trans (books_setTcb _)
  · exact books_dropThread thread

@[simp]
theorem books_take (k : VirtualKernel host) (id : ℕ) : (k.take id).2.books = k.books := by
  unfold take
  split <;> rfl

@[simp]
theorem books_forget : (k.forget id).books = k.books := by
  unfold forget
  split
  · exact books_dropThread? _
  · rfl

@[simp]
theorem books_removeTcb : (k.removeTcb id).2.books = k.books := by
  unfold removeTcb
  split
  · exact books_forget
  · rfl

theorem books_expireExited (i : List ℕ) (k : VirtualKernel host) :
    (expireExited i k).books = k.books := by
  induction i generalizing k with
  | nil => rfl
  | cons first r ih =>
    unfold expireExited
    split
    · exact (ih _).trans books_forget
    · rfl

theorem books_markExited (k : VirtualKernel host) (id : ℕ) (thread : host.Thread)
    (r : Except ExecutionFailure (BitVec 32)) :
    (k.markExited id thread r).books = k.books := by
  have hr := books_restoreVmState k id thread
  unfold markExited
  dsimp only
  split
  · split
    · exact hr
    · rw [books_expireExited]
      exact (books_dropThread? _).trans hr
  · exact hr

theorem reserve_of_isFull {kn : ResourceLimitKind} (h : k.isFull kn = true) :
    ∃ e, k.reserve kn 1 = (.error e, k) := by
  unfold reserve GlobalQuota.tryReserve
  rw [if_pos (of_decide_eq_true h)]
  exact ⟨_, rfl⟩

theorem reserve_of_not_isFull {kn : ResourceLimitKind} (h : k.isFull kn = false) :
    k.reserve kn 1 = (.ok (), k.occupy kn) := by
  unfold reserve GlobalQuota.tryReserve
  rw [if_neg (of_decide_eq_false h)]
  rfl

theorem books_reserve_threads : (k.reserve .threads 1).2.books = k.books := by
  unfold reserve GlobalQuota.tryReserve
  split_ifs <;> rfl

theorem books_park (k : VirtualKernel host) (id : ℕ) (thread : host.Thread) (key : Option String) :
    (k.park id thread key).2.books = k.books := by
  unfold park
  split <;> rfl

theorem books_spawn (thread : host.Thread) (key : Option String) :
    (k.spawn thread key).2.books = k.books := by
  have hr := books_reserve_threads (k := k)
  unfold spawn
  rcases hrs : k.reserve .threads 1 with ⟨_ | _, k'⟩
  · rw [hrs] at hr
    exact hr
  · rw [hrs] at hr
    dsimp only
    split
    · split
      · exact (books_dropThread _).trans hr
      · next threadId threadIds _ =>
        have hp := books_park { k' with threadIds := threadIds } threadId
          (host.setSpawned thread) key
        split
        · next heq =>
          rw [heq] at hp
          exact hp.trans hr
        · next heq =>
          rw [heq] at hp
          exact (books_dropThread _).trans (hp.trans hr)
    · exact (books_dropThread _).trans hr

section Runnable

theorem size_queued_enqueue {q : RunnableQueue} (h : q.contains id = false) :
    Table.size (q.enqueue id).queued = Table.size q.queued + 1 := by
  unfold RunnableQueue.enqueue
  rw [h]
  exact Table.size_insert_of_none (Option.not_isSome_iff_eq_none.mp (Bool.eq_false_iff.mp h)) _

theorem size_queued_enqueueFront {q : RunnableQueue} (h : q.contains id = false) :
    Table.size (q.enqueueFront id).queued = Table.size q.queued + 1 := by
  unfold RunnableQueue.enqueueFront
  rw [h]
  exact Table.size_insert_of_none (Option.not_isSome_iff_eq_none.mp (Bool.eq_false_iff.mp h)) _

variable {en : RunnableQueue → ℕ → RunnableQueue}

/-- A thread is queued at most once, and its place is reserved with it. -/
structure Requeues (b b' : Books) : Prop where
  blocked : b'.blocked = b.blocked
  timers : b'.timers = b.timers
  pendingStates : b'.pendingStates = b.pendingStates
  runnableThreads : b.runnableThreads = Table.size b.runnable.queued →
    b'.runnableThreads = Table.size b'.runnable.queued

theorem Requeues.exact {b b' : Books} (hrq : Requeues b b') (h : b.Exact n) : b'.Exact n := by
  obtain ⟨hb, ht, hp, hr⟩ := hrq
  constructor
  · exact hr h.runnableThreads
  · rw [ht, hb]
    exact h.timers
  · rw [hp, hb]
    exact h.pendingStates

theorem requeues_of_eq {b b' : Books} (h : b' = b) : Requeues b b' := by
  rw [h]
  exact ⟨rfl, rfl, rfl, id⟩

theorem requeues_enqueueWith (k : VirtualKernel host) (id : ℕ) (thread : host.Thread)
    (hs : ∀ q : RunnableQueue, q.contains id = false →
      Table.size (en q id).queued = Table.size q.queued + 1) :
    Requeues k.books (k.enqueueWith en id thread).2.books := by
  unfold enqueueWith
  cases hq : k.runnable.contains id with
  | true => exact requeues_of_eq (books_restoreVmState _ id thread)
  | false =>
    cases hf : k.isFull .runnableThreads with
    | true =>
      obtain ⟨e, he⟩ := reserve_of_isFull hf
      rw [he]
      exact requeues_of_eq (books_restoreVmState _ id thread)
    | false =>
      have hb := books_restoreVmState (k.occupy .runnableThreads) id thread
      rw [reserve_of_not_isFull hf]
      dsimp only
      generalize (k.occupy .runnableThreads).restoreVmState id thread = k' at hb
      change Requeues k.books { k'.books with runnable := en k'.books.runnable id }
      rw [hb]
      exact ⟨rfl, rfl, rfl, fun h => (congrArg (· + 1) h).trans (hs _ hq).symm⟩

theorem requeues_enqueueRunnable (k : VirtualKernel host) (id : ℕ) (thread : host.Thread) :
    Requeues k.books (k.enqueueRunnable id thread).2.books :=
  requeues_enqueueWith k id thread fun _ => size_queued_enqueue

theorem requeues_enqueueRunnableFront (k : VirtualKernel host) (id : ℕ) (thread : host.Thread) :
    Requeues k.books (k.enqueueRunnableFront id thread).2.books :=
  requeues_enqueueWith k id thread fun _ => size_queued_enqueueFront

theorem blocked_enqueueRunnable (thread : host.Thread) :
    (k.enqueueRunnable id thread).2.blocked = k.blocked :=
  (requeues_enqueueRunnable k id thread).blocked

theorem fst_take_isSome (k : VirtualKernel host) (id : ℕ) :
    (k.take id).1.isSome = k.hasState id := by
  unfold take hasState
  cases k.tcb? id <;> rfl

theorem take_of_hasState (h : k.hasState id = true) : ∃ thread, (k.take id).1 = some thread :=
  Option.isSome_iff_exists.mp ((fst_take_isSome k id).trans h)

theorem fst_take_of_not_hasState (h : k.hasState id = false) : (k.take id).1 = none :=
  Option.not_isSome_iff_eq_none.mp (Bool.eq_false_iff.mp ((fst_take_isSome k id).trans h))

end Runnable

section Blocked

variable {th : host.Thread}

@[simp]
theorem books_releaseTimer (ha : Bool) : (k.releaseTimer ha).books =
      { k.books with timers := k.books.timers - ha.toNat } := by
  cases ha <;> rfl

/-- Whether the books stay exact when a thread is blocked: it fails, or it was not blocked and there
is an id for its timer. -/
def BlockKeeps (k : VirtualKernel host) (id : ℕ) (timeout : Option ℕ) : Prop :=
  k.isFull .pendingStates = true ∨ (timeout.isSome = true ∧ k.isFull .timers = true) ∨
    (id ∉ k.blocked.blocked ∧
      (timeout.isSome = true → k.blocked.timerIds.tryAllocate.isSome = true))

theorem card_insert_iff {s : Finset ℕ} (id n p : ℕ) (h : p = s.card + n) :
    p + 1 = (insert id s).card + n ↔ id ∉ s := by
  rw [Finset.card_insert_eq_ite]
  split
  · next hid => exact iff_of_false (by omega) (not_not.mpr hid)
  · next hid => exact iff_of_true (by omega) hid

/-- The books after an attempt to block a thread. -/
inductive Blocking (k : VirtualKernel host) (id : ℕ) : Option ℕ → Books → Prop where
  | refused {timeout : Option ℕ} (h : k.isFull .pendingStates = true ∨
      (timeout.isSome = true ∧ k.isFull .timers = true)) : Blocking k id timeout k.books
  | forever (hpending : k.isFull .pendingStates = false) : Blocking k id none { k.books with
      blocked := (k.blocked.block id).2
      timers := k.books.timers - (k.blocked.removeTimer id).1.toNat
      pendingStates := k.books.pendingStates + 1 }
  | exhausted {ms : ℕ} (hpending : k.isFull .pendingStates = false)
      (htimers : k.isFull .timers = false) (halloc : k.blocked.timerIds.tryAllocate = none) :
      Blocking k id (some ms) { k.books with
        timers := k.books.timers + 1
        pendingStates := k.books.pendingStates + 1 }
  | timed {ms : ℕ} (hpending : k.isFull .pendingStates = false) (htimers : k.isFull .timers = false)
      (halloc : k.blocked.timerIds.tryAllocate.isSome = true) :
      Blocking k id (some ms) { k.books with
        blocked := (k.blocked.blockWithTimeout id ms).2
        timers := k.books.timers + 1 - (k.blocked.removeTimer id).1.toNat
        pendingStates := k.books.pendingStates + 1 }

theorem blocking_block (id : ℕ) (th : host.Thread) (t : Option ℕ) :
    k.Blocking id t (k.block id th t).2.books := by
  unfold block
  cases hpn : k.isFull .pendingStates with
  | true =>
    obtain ⟨e, he⟩ := reserve_of_isFull hpn
    rw [he, books_restoreVmState]
    exact .refused (.inl hpn)
  | false =>
    rw [reserve_of_not_isFull hpn]
    cases t with
    | none =>
      rw [books_restoreVmState, books_releaseTimer]
      exact .forever hpn
    | some ms =>
      dsimp only
      cases htm : (k.occupy .pendingStates).isFull .timers with
      | true =>
        obtain ⟨e, he⟩ := reserve_of_isFull htm
        rw [he, books_restoreVmState]
        exact .refused (.inr ⟨rfl, htm⟩)
      | false =>
        rw [reserve_of_not_isFull htm]
        cases hal : k.blocked.timerIds.tryAllocate with
        | none =>
          simp only [blockWithTimeout, occupy, hal]
          rw [books_dropThread]
          exact .exhausted hpn htm hal
        | some a =>
          have hti : k.Blocking id (some ms) _ :=
            .timed hpn htm (by rw [hal]; rfl)
          simp only [blockWithTimeout, occupy, hal, BlockedQueue.fst_removeTimer,
            books_restoreVmState, books_releaseTimer] at hti ⊢
          exact hti

theorem exact_block_iff (th : host.Thread) (t : Option ℕ) (h : k.books.Exact n) :
    (k.block id th t).2.books.Exact n ↔ k.BlockKeeps id t := by
  have hcr := card_insert_iff id n _ h.pendingStates
  have hbl := k.blocking_block id th t
  generalize (k.block id th t).2.books = b at hbl ⊢
  cases hbl with
  | refused hfl => exact iff_of_true h (hfl.imp_right .inl)
  | forever hpn =>
    have hsz := BlockedQueue.size_removeTimer k.blocked id
    constructor
    · intro haf
      have haf := haf.pendingStates
      rw [blocked_block] at haf
      exact .inr (.inr ⟨hcr.mp haf, fun hsm => absurd hsm Bool.false_ne_true⟩)
    · rintro (hfl | ⟨hsm, -⟩ | ⟨hid, -⟩)
      · cases hpn.symm.trans hfl
      · cases hsm
      · refine ⟨h.runnableThreads, Nat.sub_eq_of_eq_add (h.timers.trans hsz.symm), ?_⟩
        rw [blocked_block]
        exact hcr.mpr hid
  | exhausted hpn htm hal =>
    apply iff_of_false
    · intro haf
      have := haf.timers.symm.trans (congrArg (· + 1) h.timers)
      dsimp only at this
      omega
    · rintro (hfl | ⟨-, hfl⟩ | ⟨-, hsm⟩)
      · cases hpn.symm.trans hfl
      · cases htm.symm.trans hfl
      · rw [hal] at hsm
        cases hsm rfl
  | @timed ms hpn htm hal =>
    have hsz := BlockedQueue.size_blockWithTimeout id ms hal
    constructor
    · intro haf
      have haf := haf.pendingStates
      rw [blocked_blockWithTimeout ms hal] at haf
      exact .inr (.inr ⟨hcr.mp haf, fun _ => hal⟩)
    · rintro (hfl | ⟨-, hfl⟩ | ⟨hid, -⟩)
      · cases hpn.symm.trans hfl
      · cases htm.symm.trans hfl
      · refine ⟨h.runnableThreads, Nat.sub_eq_of_eq_add
          ((congrArg (· + 1) h.timers).trans hsz.symm), ?_⟩
        rw [blocked_blockWithTimeout ms hal]
        exact hcr.mpr hid

theorem sound_block (th : host.Thread) (t : Option ℕ) (h : k.blocked.Sound) :
    (k.block id th t).2.blocked.Sound := by
  change (k.block id th t).2.books.blocked.Sound
  have hb := k.blocking_block id th t
  generalize (k.block id th t).2.books = b at hb ⊢
  cases hb with
  | refused | exhausted => exact h
  | forever => exact h.block id
  | timed => exact h.blockWithTimeout id _

/-- The books after a thread left the blocked ones, with what its operation gives back. -/
theorem exact_unblocked {b : Books} (h : b.Exact n) (hid : id ∈ b.blocked.blocked) :
    Books.Exact { b with
      blocked := (b.blocked.unblock id).2
      timers := b.timers - (b.blocked.activeTimers.lookup id).isSome.toNat
      pendingStates := b.pendingStates - 1 } n := by
  have hc := card_unblock hid
  have hs := BlockedQueue.size_unblock b.blocked id
  obtain ⟨hr, ht, hp⟩ := h
  exact ⟨hr, Nat.sub_eq_of_eq_add (ht.trans hs.symm), by dsimp only; omega⟩

theorem not_exact_unblocked {b : Books} (h : b.Exact n) (hid : id ∈ b.blocked.blocked)
    (ts : ℕ) (r : RunnableQueue) (rt : ℕ) :
    ¬ Books.Exact { b with
      blocked := (b.blocked.unblock id).2
      runnable := r
      runnableThreads := rt
      timers := ts } n := by
  rintro ⟨_, _, ha⟩
  have hc := card_unblock hid
  have hp := h.pendingStates
  dsimp only at ha
  omega

/-- A thread leaves the blocked ones and its timer goes. -/
def unblocked (k : VirtualKernel host) (id : ℕ) : VirtualKernel host :=
  { k with blocked := (k.blocked.unblock id).2 }

theorem snd_unblock (hid : id ∈ k.blocked.blocked) : (k.unblock id).2 =
      match ((k.unblocked id).take id).1 with
      | none => ((k.unblocked id).take id).2
      | some th => (((((k.unblocked id).take id).2.release .pendingStates 1).releaseTimer
          (k.blocked.activeTimers.lookup id).isSome).enqueueRunnable id th).2 := by
  have hf := fst_unblock k.blocked id
  rw [decide_eq_true hid] at hf
  unfold unblocked unblock
  rcases hub : k.blocked.unblock id with ⟨⟨wb, ha⟩, blocked⟩
  rw [hub] at hf
  obtain ⟨rfl, rfl⟩ := Prod.mk.inj hf
  dsimp only
  rw [if_pos rfl]
  rcases VirtualKernel.take { k with blocked := blocked } id with ⟨_ | th, k'⟩
  · rfl
  · dsimp only
    split <;> next heq => rw [heq]

theorem exact_unblock_iff (hsound : k.blocked.Sound) (h : k.books.Exact n) :
    (k.unblock id).2.books.Exact n ↔ id ∉ k.blocked.blocked ∨ k.hasState id = true := by
  by_cases hid : id ∈ k.blocked.blocked
  · cases hs : k.hasState id with
    | true =>
      obtain ⟨th, ht⟩ := take_of_hasState (k := k.unblocked id) hs
      rw [snd_unblock hid, ht]
      apply iff_of_true _ (.inr rfl)
      apply (requeues_enqueueRunnable _ id th).exact
      have hb := books_take (k.unblocked id) id
      generalize ((k.unblocked id).take id).2 = k' at hb
      rw [books_releaseTimer]
      change Books.Exact { k'.books with
        pendingStates := k'.books.pendingStates - 1
        timers := k'.books.timers - _ } n
      rw [hb]
      exact exact_unblocked h hid
    | false =>
      rw [snd_unblock hid, fst_take_of_not_hasState (k := k.unblocked id) hs, books_take]
      apply iff_of_false
      · exact not_exact_unblocked h hid _ _ _
      · rintro (hid' | hs)
        · exact hid' hid
        · cases hs
  · unfold unblock
    rw [unblock_of_notMem hsound hid]
    exact iff_of_true h (.inl hid)

theorem sound_unblock (hsound : k.blocked.Sound) : (k.unblock id).2.blocked.Sound := by
  by_cases hid : id ∈ k.blocked.blocked
  · have hb : ((k.unblocked id).take id).2.blocked = (k.blocked.unblock id).2 :=
      congrArg Books.blocked (books_take _ id)
    have htk : ((k.unblocked id).take id).2.blocked.Sound := hb ▸ hsound.unblock id
    cases ht : ((k.unblocked id).take id).1 with
    | none =>
      rw [snd_unblock hid, ht]
      exact htk
    | some th =>
      rw [snd_unblock hid, ht, blocked_enqueueRunnable]
      cases (k.blocked.activeTimers.lookup id).isSome <;> exact htk
  · unfold unblock
    rw [unblock_of_notMem hsound hid]
    exact hsound

theorem hasState_setTcb_of_ne (t : ThreadControlBlock host) {id' : ℕ} (h : id' ≠ id) :
    (k.setTcb id t).hasState id' = k.hasState id' := by
  unfold hasState tcb? setTcb
  rw [Table.lookup_insert_eq, if_neg h]

theorem hasState_dropThread? (th : Option host.Thread) (id' : ℕ) :
    (k.dropThread? th).hasState id' = k.hasState id' := by
  cases th with
  | none => rfl
  | some th =>
    unfold dropThread? dropThread
    dsimp only
    split <;> rfl

theorem hasState_take_of_ne {id' : ℕ} (h : id' ≠ id) :
    (k.take id).2.hasState id' = k.hasState id' := by
  unfold take
  split
  · exact hasState_setTcb_of_ne _ h
  · rfl

theorem hasState_restoreVmState_of_ne (th : host.Thread) {id' : ℕ} (h : id' ≠ id) :
    (k.restoreVmState id th).hasState id' = k.hasState id' := by
  unfold restoreVmState
  split
  · rw [hasState_dropThread?, hasState_setTcb_of_ne _ h]
  · exact hasState_dropThread? (some th) id'

theorem hasState_enqueueRunnable_of_ne (th : host.Thread) {id' : ℕ} (h : id' ≠ id) :
    (k.enqueueRunnable id th).2.hasState id' = k.hasState id' := by
  unfold enqueueRunnable enqueueWith
  split
  · exact hasState_restoreVmState_of_ne th h
  · cases hf : k.isFull .runnableThreads with
    | true =>
      obtain ⟨e, he⟩ := reserve_of_isFull hf
      rw [he]
      exact hasState_restoreVmState_of_ne th h
    | false =>
      rw [reserve_of_not_isFull hf]
      exact hasState_restoreVmState_of_ne (k := k.occupy .runnableThreads) th h

/-- The threads that wake up and have a state give back their reservations. -/
structure WakesUp (b : Books) (woken : ℕ) (b' : Books) : Prop where
  blocked : b'.blocked = b.blocked
  timers : b'.timers = b.timers - woken
  pendingStates : b'.pendingStates = b.pendingStates - woken
  runnableThreads : b.runnableThreads = Table.size b.runnable.queued →
    b'.runnableThreads = Table.size b'.runnable.queued

theorem wakesUp_step : WakesUp k.books 1
      (((((k.take id).2.release .pendingStates 1).release .timers 1).enqueueRunnable id
        th).2.books) := by
  have hbk := books_take k id
  generalize (k.take id).2 = k' at hbk
  obtain ⟨hb, ht, hp, hr⟩ := requeues_enqueueRunnable
    ((k'.release .pendingStates 1).release .timers 1) id th
  have hrl : ((k'.release .pendingStates 1).release .timers 1).books = { k.books with
      timers := k.books.timers - 1
      pendingStates := k.books.pendingStates - 1 } := by
    rw [← hbk]
    rfl
  rw [hrl] at hb ht hp hr
  exact ⟨hb, ht, hp, hr⟩

theorem WakesUp.trans {b b' b'' : Books} {m m' : ℕ} (h : WakesUp b m b') (h' : WakesUp b' m' b'') :
    WakesUp b (m' + m) b'' := by
  obtain ⟨hb, ht, hp, hr⟩ := h
  obtain ⟨hb', ht', hp', hr'⟩ := h'
  exact ⟨hb'.trans hb, by omega, by omega, fun h => hr' (hr h)⟩

theorem snd_wake_cons {r : List ℕ} : (wake (id :: r) k).2 =
      match (k.take id).1 with
      | none => (wake r (k.take id).2).2
      | some th => (wake r ((((k.take id).2.release .pendingStates 1).release .timers
          1).enqueueRunnable id th).2).2 := by
  rw [wake]
  rcases k.take id with ⟨_ | th, k'⟩ <;> rfl

theorem wakesUp_wake {i : List ℕ} (hnd : i.Nodup) :
    WakesUp k.books (i.countP k.hasState) (wake i k).2.books := by
  induction i generalizing k with
  | nil => exact ⟨rfl, rfl, rfl, id⟩
  | cons first r ih =>
    obtain ⟨hfr, hrs⟩ := List.nodup_cons.mp hnd
    have hne {id : ℕ} (h : id ∈ r) : id ≠ first := fun heq => hfr (heq ▸ h)
    have htk : r.countP (k.take first).2.hasState = r.countP k.hasState := by
      apply List.countP_congr
      intro id hid
      rw [hasState_take_of_ne (hne hid)]
    cases hst : k.hasState first with
    | true =>
      obtain ⟨th, hth⟩ := take_of_hasState hst
      have hcn : r.countP ((((k.take first).2.release .pendingStates 1).release .timers
          1).enqueueRunnable first th).2.hasState = r.countP (k.take first).2.hasState := by
        apply List.countP_congr
        intro id hid
        rw [hasState_enqueueRunnable_of_ne th (hne hid)]
        rfl
      rw [List.countP_cons_of_pos hst, ← htk, ← hcn, snd_wake_cons, hth]
      exact wakesUp_step.trans (ih hrs)
    | false =>
      rw [List.countP_cons_of_neg (Bool.eq_false_iff.mp hst), ← htk,
        snd_wake_cons, fst_take_of_not_hasState hst]
      exact books_take k first ▸ ih hrs

theorem WakesUp.exact_iff {b b' : Books} {q : BlockedQueue} {w a : ℕ} (h : b.Exact n) (hle : w ≤ a)
    (htm : Table.size q.activeTimers + a = Table.size b.blocked.activeTimers)
    (hb : q.blocked.card + a = b.blocked.blocked.card)
    (hw : WakesUp { b with blocked := q } w b') : b'.Exact n ↔ w = a := by
  obtain ⟨hb', ht', hp', hr'⟩ := hw
  obtain ⟨hr, ht, hp⟩ := h
  dsimp only at hb' ht' hp'
  constructor
  · rintro ⟨_, ha, _⟩
    rw [hb'] at ha
    omega
  · rintro rfl
    constructor
    · exact hr' hr
    · rw [hb']
      omega
    · rw [hb']
      omega

theorem exact_tick_iff (dm : ℕ) (hsound : k.blocked.Sound) (h : k.books.Exact n) :
    (k.tick dm).2.books.Exact n ↔ ∀ id, k.blocked.isDue dm id = true → k.hasState id = true := by
  obtain ⟨hn, hi, ht, hb⟩ := hsound.wakes dm
  have hw := wakesUp_wake (k := { k with blocked := (k.blocked.tickTimeouts dm).2 }) hn
  refine (WakesUp.exact_iff h List.countP_le_length ht hb hw).trans ?_
  rw [List.countP_eq_length]
  apply forall_congr'
  intro id
  rw [hi, isDue_iff]
  rfl

theorem sound_tick (dm : ℕ) (hsound : k.blocked.Sound) : (k.tick dm).2.blocked.Sound := by
  have hw := wakesUp_wake (k := { k with blocked := (k.blocked.tickTimeouts dm).2 })
    (hsound.wakes dm).nodup
  have hb : (k.tick dm).2.blocked = (k.blocked.tickTimeouts dm).2 := hw.blocked
  exact hb ▸ hsound.tickTimeouts dm

end Blocked

/-- The first thread of the queue whose entry counts. -/
def nextId (q : RunnableQueue) : Option ℕ :=
  (q.queue.find? fun entry => decide (q.queued.lookup entry.1 = some entry.2.1)).map Prod.fst

theorem nextId_eq (q : RunnableQueue) :
    nextId q = (RunnableQueue.live q.queued q.queue).head?.map Prod.fst := by
  rw [nextId, RunnableQueue.live, List.head?_map, List.head?_filter, Option.map_map]
  rfl

/-- The next thread is taken from the queue, with its state. -/
def dispatchNext (k : VirtualKernel host) : Option (ℕ × Option host.Thread) × VirtualKernel host :=
  match k.nextRunnableDetailed with
  | (none, k) => (none, k)
  | (some (id, _), k) => let (thread, k) := k.takeThread id; (some (id, thread), k)

theorem books_takeThread : (k.takeThread id).2.books = { k.books with
        runnableThreads := k.books.runnableThreads - (k.hasState id).toNat } := by
  have hs := fst_take_isSome k id
  have hb := books_take k id
  unfold takeThread
  rcases ht : k.take id with ⟨_ | thread, k'⟩
  · rw [ht] at hs hb
    rw [← hs]
    exact hb
  · rw [ht] at hs hb
    rw [← hs, ← hb]
    rfl

/-- A thread takes its reservation with its state, whatever is queued then. -/
theorem exact_takeThread_queue_iff (q : RunnableQueue) (h : k.books.Exact n) :
    (VirtualKernel.takeThread { k with runnable := q } id).2.books.Exact n ↔
      Table.size k.runnable.queued - (k.hasState id).toNat = Table.size q.queued := by
  have hr : k.books.runnableThreads = Table.size k.runnable.queued := h.runnableThreads
  rw [books_takeThread, ← hr]
  exact ⟨fun ha => ha.runnableThreads, fun hq => ⟨hq, h.timers, h.pendingStates⟩⟩

theorem exact_takeThread_iff (h : k.books.Exact n) : (k.takeThread id).2.books.Exact n ↔
      k.hasState id = false ∨ Table.size k.runnable.queued = 0 := by
  refine (exact_takeThread_queue_iff k.runnable h).trans ?_
  cases k.hasState id <;> simp
  omega

theorem exact_takeThread_dequeued_iff {q : RunnableQueue} (h : k.books.Exact n)
    (hs : Table.size q.queued + 1 = Table.size k.runnable.queued) :
    (VirtualKernel.takeThread { k with runnable := q } id).2.books.Exact n ↔
      k.hasState id = true := by
  rw [exact_takeThread_queue_iff q h, ← hs]
  cases k.hasState id <;> simp

theorem exact_dispatchNext_iff (h : k.books.Exact n) : k.dispatchNext.2.books.Exact n ↔
      ∀ id, nextId k.runnable = some id → k.hasState id = true := by
  rw [nextId_eq]
  unfold dispatchNext nextRunnableDetailed RunnableQueue.dequeueDetailed
  rcases RunnableQueue.dequeueFrom_cases k.runnable.queued k.runnable.queue with
    ⟨hl, heq⟩ | ⟨id, token, front, rest, hlk, -, hl, heq⟩
  · rw [hl, heq]
    apply iff_of_true ⟨h.runnableThreads, h.timers, h.pendingStates⟩
    rintro id ⟨⟩
  · have hn : (∀ id', some id = some id' → k.hasState id' = true) ↔ k.hasState id = true := by
      simp
    rw [hl, heq]
    refine Iff.trans ?_ hn.symm
    exact exact_takeThread_dequeued_iff h (Table.size_erase_of_some hlk)

theorem blocked_takeThread : (k.takeThread id).2.blocked = k.blocked :=
  congrArg Books.blocked books_takeThread

theorem blocked_dispatchNext : k.dispatchNext.2.blocked = k.blocked := by
  unfold dispatchNext nextRunnableDetailed
  rcases k.runnable.dequeueDetailed with ⟨_ | ⟨id, f⟩, r⟩
  · rfl
  · exact blocked_takeThread

section Cancellation

def dequeued (k : VirtualKernel host) (id : ℕ) : VirtualKernel host :=
  { k with runnable := (k.runnable.remove id).2, blocked := (k.blocked.unblock id).2 }

/-- What a cancellation does once the thread left the queues and its state is taken. -/
def discard (k : VirtualKernel host) (id : ℕ) (thread : Option host.Thread) : VirtualKernel host :=
  (if (k.removeTcb id).1 then { (k.removeTcb id).2 with
      threadIds := (k.removeTcb id).2.threadIds.free id }
    else (k.removeTcb id).2).dropThread? thread

theorem books_discard (thread : Option host.Thread) : (k.discard id thread).books = k.books := by
  unfold discard
  rw [books_dropThread?]
  split
  · exact books_removeTcb
  · exact books_removeTcb

theorem cancel_eq : k.cancel id = ((if ((k.dequeued id).take id).1.isSome then
          ((k.dequeued id).take id).2.releaseCancelled (k.runnable.contains id)
            (k.blocked.remove id).1
        else ((k.dequeued id).take id).2).discard id ((k.dequeued id).take id).1) := rfl

theorem books_cancel : (k.cancel id).books =
      if k.hasState id then
        (((k.dequeued id).take id).2.releaseCancelled (k.runnable.contains id)
          (k.blocked.remove id).1).books
      else (k.dequeued id).books := by
  have hs : ((k.dequeued id).take id).1.isSome = k.hasState id :=
    fst_take_isSome _ id
  rw [cancel_eq, books_discard, hs]
  split
  · rfl
  · exact books_take _ id

theorem books_releaseCancelled (wr : Bool) (bi : Option Bool) :
    (k.releaseCancelled wr bi).books = { k.books with
        runnableThreads := k.books.runnableThreads - wr.toNat
        timers := k.books.timers - (bi.getD false).toNat
        pendingStates := k.books.pendingStates - bi.isSome.toNat } := by
  rcases wr <;> rcases bi with _ | _ | _ <;> rfl

theorem size_remove (q : RunnableQueue) (id : ℕ) :
    Table.size (q.remove id).2.queued + (q.contains id).toNat = Table.size q.queued := by
  unfold RunnableQueue.remove RunnableQueue.contains
  cases h : q.queued.lookup id with
  | none => exact Table.size_erase_of_none h
  | some t => exact Table.size_erase_of_some h

theorem fst_remove (q : BlockedQueue) :
    (q.remove id).1 = if id ∈ q.blocked then some (q.activeTimers.lookup id).isSome else none := by
  have hf := fst_unblock q id
  change (if (q.unblock id).1.1 = true then some (q.unblock id).1.2 else none) = _
  rw [hf]
  simp

variable (hn : k.blocked.Sound)
include hn

theorem exact_dequeued_iff (ht : k.books.timers = Table.size k.blocked.activeTimers)
    (hp : k.books.pendingStates = k.blocked.blocked.card + n) :
    (k.dequeued id).books.Exact n ↔
      k.books.runnableThreads + (k.runnable.contains id).toNat = Table.size k.runnable.queued ∧
        id ∉ k.blocked.blocked := by
  have hs := size_remove k.runnable id
  constructor
  · rintro ⟨hr, _, ha⟩
    have hr : k.books.runnableThreads = Table.size (k.runnable.remove id).2.queued :=
      hr
    have ha : k.books.pendingStates = (k.blocked.unblock id).2.blocked.card + n := ha
    constructor
    · omega
    · intro hid
      have := card_unblock hid
      omega
  · rintro ⟨hr, hid⟩
    have hq : (k.dequeued id).books = { k.books with runnable := (k.runnable.remove id).2 } := by
      unfold dequeued
      rw [unblock_of_notMem hn hid]
      rfl
    rw [hq]
    refine ⟨?_, ht, hp⟩
    change k.books.runnableThreads = Table.size (k.runnable.remove id).2.queued
    omega

theorem exact_releaseCancelled (h : k.books.Exact n) :
    (((k.dequeued id).take id).2.releaseCancelled (k.runnable.contains id)
      (k.blocked.remove id).1).books.Exact n := by
  have hs := size_remove k.runnable id
  obtain ⟨hr, ht, hp⟩ := h
  have hr : k.quota.used .runnableThreads = Table.size k.runnable.queued := hr
  rw [books_releaseCancelled, books_take, fst_remove]
  by_cases hid : id ∈ k.blocked.blocked
  · rw [if_pos hid]
    obtain ⟨_, ht', hp'⟩ := exact_unblocked ⟨hr, ht, hp⟩ hid
    refine ⟨?_, ht', hp'⟩
    change k.quota.used .runnableThreads - _ = Table.size (k.runnable.remove id).2.queued
    omega
  · rw [if_neg hid]
    unfold dequeued
    rw [unblock_of_notMem hn hid]
    refine ⟨?_, ht, hp⟩
    change k.quota.used .runnableThreads - _ = Table.size (k.runnable.remove id).2.queued
    omega

theorem exact_cancel_iff (h : k.books.Exact n) :
    (k.cancel id).books.Exact n ↔ k.hasState id = true ∨
      (k.runnable.contains id = false ∧ id ∉ k.blocked.blocked) := by
  rw [books_cancel]
  cases hs : k.hasState id with
  | true =>
    exact iff_of_true (exact_releaseCancelled hn h) (.inl rfl)
  | false =>
    have hr : k.books.runnableThreads = Table.size k.runnable.queued := h.runnableThreads
    rw [if_neg Bool.false_ne_true, exact_dequeued_iff hn h.timers h.pendingStates, hr]
    simp

theorem sound_cancel : (k.cancel id).blocked.Sound := by
  have hb : (k.cancel id).blocked = (k.blocked.unblock id).2 := by
    change (k.cancel id).books.blocked = _
    rw [books_cancel]
    split
    · rw [books_releaseCancelled, books_take]
      rfl
    · rfl
  exact hb ▸ hn.unblock id

omit hn in
theorem hasState_takeThread (k : VirtualKernel host) (id : ℕ) :
    (k.takeThread id).2.hasState id = false := by
  have ht : (k.take id).2.hasState id = false := by
    unfold take hasState
    split
    · unfold tcb? setTcb
      rw [Table.lookup_insert_eq, if_pos rfl]
      rfl
    · next htc =>
      rw [htc]
      rfl
  unfold takeThread
  split
  all_goals
    next heq =>
      rw [heq] at ht
      exact ht

/-- The state of the thread is taken first, so that its cancellation gives nothing back. -/
theorem exact_takeThread_cancel_iff {k' : VirtualKernel host} (h : k.books.Exact n)
    (hbk : k'.books = (k.takeThread id).2.books) (hgn : k'.hasState id = false) :
    (k'.cancel id).books.Exact n ↔ id ∉ k.blocked.blocked ∧
      (if k.hasState id then k.runnable.contains id = true ∨ Table.size k.runnable.queued = 0
        else k.runnable.contains id = false) := by
  have hsz := size_remove k.runnable id
  obtain ⟨hrn, htm, hpn⟩ := h
  rw [books_takeThread] at hbk
  obtain ⟨hqu, hbl, hus, htm', hpn'⟩ := Books.mk.inj hbk
  have hus : k'.books.runnableThreads = k.books.runnableThreads - (k.hasState id).toNat := hus
  have hrn : k.books.runnableThreads = Table.size k.runnable.queued := hrn
  have hqu : k'.runnable = k.runnable := hqu
  have hbl : k'.blocked = k.blocked := hbl
  rw [books_cancel, hgn, if_neg Bool.false_ne_true, exact_dequeued_iff (n := n), hqu, hbl,
    hus, hrn, and_comm]
  · apply and_congr Iff.rfl
    cases hq : k.runnable.contains id with
    | false => cases k.hasState id <;> simp; omega
    | true =>
      rw [hq, Bool.toNat_true] at hsz
      cases k.hasState id <;> simp; omega
  · exact hbl ▸ hn
  · exact htm'.trans (htm.trans (by rw [hbl]; rfl))
  · exact hpn'.trans (hpn.trans (by rw [hbl]; rfl))

end Cancellation

end VirtualKernel

end Galfus
