import Galfus.Exec.Moves
import Galfus.Runtime.KernelBooks
import Galfus.Runtime.PlainHost

/-! # The quotas of the kernel

The operations of the kernel, and of the orchestrator on it, in any order: after each of them
the quotas are what is queued, armed and blocked just if every operation met its condition.
-/

namespace Galfus

namespace Orchestrator

variable {host : Host} {s s' : Orchestrator host}

/-- The queued threads, the armed timers, and the blocked threads with the coordinators are
what is reserved for them. -/
def QuotasExact (s : Orchestrator host) : Prop :=
  s.kernel.books.Exact (Table.size s.aggregateCoordinators)

/-- The first part of `begin_aggregate_wait`. -/
def openCoordinator (coordinator : AggregateCoordinator host) : Orchestration host Unit := do
  match ← kernelCall (·.reserve .pendingStates 1) with
  | .error _ => pure ()
  | .ok () =>
    let s ← Exec.get
    match s.coordinatorIds.tryAllocate with
    | none => kernelDo (·.release .pendingStates 1)
    | some (id, coordinatorIds) => do
      Exec.modify fun s => { s with coordinatorIds := coordinatorIds }
      putCoordinator id coordinator

def closeCoordinator (coordinatorId : ℕ) : Orchestration host Unit := do
  let s ← Exec.get
  match s.aggregateCoordinators.lookup coordinatorId with
  | none => pure ()
  | some _ => do
    Exec.modify fun s =>
      { s with aggregateCoordinators := s.aggregateCoordinators.erase coordinatorId }
    kernelDo (·.release .pendingStates 1)
    Exec.modify fun s => { s with coordinatorIds := s.coordinatorIds.free coordinatorId }

/-- An aggregate wait that gets its state and its id opens its coordinator and goes on. -/
theorem beginAggregateWait_apply {threadId moduleId returnType id : ℕ} {thread : host.Thread}
    {continuation : Continuation} {futureIds : List ℕ} {mode : AggregateMode} {ids : IdManager}
    (hf : s.kernel.isFull .pendingStates = false)
    (hal : s.coordinatorIds.tryAllocate = some (id, ids)) :
    beginAggregateWait threadId thread continuation moduleId returnType futureIds mode s = (do
      openCoordinator (newCoordinator mode ⟨threadId, continuation, moduleId, returnType,
        host.executionStack thread, .future⟩ futureIds)
      note (.gathers id mode futureIds)
      note (.awaits threadId (.coordinator id))
      if ← registerMembers threadId id moduleId thread 0 futureIds then do
        armCoordinator id
        if ← blockOrFail threadId thread then finishAggregateIfReady id else pure ()
      else pure () : Orchestration host Unit) s := by
  have hr := VirtualKernel.reserve_of_not_isFull hf
  rw [beginAggregateWait, kernelCall_bind hr, openCoordinator, Exec.bind_apply, kernelCall_bind hr]
  dsimp only
  rw [allocateCoordinatorId, Exec.bind_apply]
  simp only [Exec.bind_apply, Exec.get_apply, Option.bind_some, hal]
  rfl

/-- An aggregate wait that is ready closes its coordinator and resumes its thread. -/
theorem finishAggregateIfReady_apply {id : ℕ} {c : AggregateCoordinator host} {result : host.Result}
    (hl : s.aggregateCoordinators.lookup id = some c)
    (hr : aggregateResult c = some (some result)) :
    finishAggregateIfReady id s = (do
      closeCoordinator id
      discardMembers c
      resumePending c.pending.threadId c.pending result (.coordinator id) :
        Orchestration host Unit) s := by
  rw [finishAggregateIfReady, closeCoordinator]
  simp only [Exec.bind_apply, Exec.get_apply, Option.bind_some, hl, hr]
  rfl

end Orchestrator

inductive KernelOperation (host : Host) where
  | spawn (thread : host.Thread) (key : Option String)
  | enqueueRunnable (id : ℕ) (thread : host.Thread)
  | enqueueRunnableFront (id : ℕ) (thread : host.Thread)
  | block (id : ℕ) (thread : host.Thread) (timeout : Option ℕ)
  | unblock (id : ℕ)
  | tick (deltaMs : ℕ)
  | dispatch
  | takeThread (id : ℕ)
  | cancel (id : ℕ)
  | cancelAndTeardownThread (id : ℕ)
  | exit (id : ℕ) (thread : host.Thread) (result : Except ExecutionFailure (BitVec 32))
  | openCoordinator (coordinator : AggregateCoordinator host)
  | closeCoordinator (coordinatorId : ℕ)

namespace KernelOperation

open Orchestrator

variable {host : Host} {s s' : Orchestrator host}

def run : KernelOperation host → Orchestration host Unit
  | spawn thread key => kernelDo fun k => (k.spawn thread key).2
  | enqueueRunnable id thread => kernelDo fun k => (k.enqueueRunnable id thread).2
  | enqueueRunnableFront id thread => kernelDo fun k => (k.enqueueRunnableFront id thread).2
  | block id thread timeout => kernelDo fun k => (k.block id thread timeout).2
  | unblock id => kernelDo fun k => (k.unblock id).2
  | tick deltaMs => kernelDo fun k => (k.tick deltaMs).2
  | dispatch => kernelDo fun k => k.dispatchNext.2
  | takeThread id => kernelDo fun k => (k.takeThread id).2
  | cancel id => kernelDo fun k => k.cancel id
  | cancelAndTeardownThread id => Orchestrator.cancelAndTeardownThread id
  | exit id thread result => kernelDo fun k => k.markExited id thread result
  | openCoordinator coordinator => Orchestrator.openCoordinator coordinator
  | closeCoordinator coordinatorId => Orchestrator.closeCoordinator coordinatorId

/-- The condition under which an operation keeps the quotas exact. -/
def Keeps (s : Orchestrator host) : KernelOperation host → Prop
  | block id _ timeout => s.kernel.BlockKeeps id timeout
  | unblock id => id ∉ s.kernel.blocked.blocked ∨ s.kernel.hasState id = true
  | tick deltaMs => ∀ id, s.kernel.blocked.isDue deltaMs id = true → s.kernel.hasState id = true
  | dispatch =>
    ∀ id, VirtualKernel.nextId s.kernel.runnable = some id → s.kernel.hasState id = true
  | takeThread id => s.kernel.hasState id = false ∨ Table.size s.kernel.runnable.queued = 0
  | cancel id => s.kernel.hasState id = true ∨
      (s.kernel.runnable.contains id = false ∧ id ∉ s.kernel.blocked.blocked)
  | cancelAndTeardownThread id => id ∉ s.kernel.blocked.blocked ∧ (if s.kernel.hasState id then
        s.kernel.runnable.contains id = true ∨ Table.size s.kernel.runnable.queued = 0
      else s.kernel.runnable.contains id = false)
  | _ => True

structure Sound (s : Orchestrator host) : Prop where
  blocked : s.kernel.blocked.Sound
  coordinatorIds : s.coordinatorIds.Sound
  active : ∀ {id coordinator}, s.aggregateCoordinators.lookup id = some coordinator →
    id ∈ s.coordinatorIds.activeIds

section

variable (limits : ResourceLimitKind → ℕ) (bindings : Option host.Bindings)
  (providers : Option host.Providers)

theorem sound_new : Sound (new limits bindings providers) := by
  constructor
  · exact BlockedQueue.sound_new
  · exact IdManager.sound_new 1
  · intro id c h
    cases h

theorem quotasExact_new : QuotasExact (new limits bindings providers) :=
  ⟨rfl, rfl, rfl⟩

end

/-- The release of handles does not touch what the kernel has booked. -/
structure Apart (s s' : Orchestrator host) : Prop where
  books : s'.kernel.books = s.kernel.books
  hasState : ∀ id, s'.kernel.hasState id = s.kernel.hasState id
  coordinators : s'.aggregateCoordinators = s.aggregateCoordinators
  coordinatorIds : s'.coordinatorIds = s.coordinatorIds

theorem Apart.refl (s : Orchestrator host) : Apart s s := ⟨rfl, fun _ => rfl, rfl, rfl⟩

theorem Apart.trans {s'' : Orchestrator host} (h : Apart s s') (h' : Apart s' s'') : Apart s s'' :=
  ⟨h'.books.trans h.books, fun id => (h'.hasState id).trans (h.hasState id),
    h'.coordinators.trans h.coordinators, h'.coordinatorIds.trans h.coordinatorIds⟩

theorem apart_releaseAdapterHandle (h : AdapterHandleId) (s : Orchestrator host) :
    ∃ r s', releaseAdapterHandle h s = some (.ok r, s') ∧ Apart s s' := by
  rw [releaseAdapterHandle_apply]
  split
  · exact ⟨_, _, rfl, .refl s⟩
  · split
    · exact ⟨_, _, rfl, ⟨rfl, fun _ => rfl, rfl, rfl⟩⟩
    · exact ⟨_, _, rfl, ⟨rfl, fun _ => rfl, rfl, rfl⟩⟩

theorem apart_releaseAdapterHandles (hs : List AdapterHandleId) (s : Orchestrator host) :
    ∃ r s', releaseAdapterHandles hs s = some (.ok r, s') ∧ Apart s s' := by
  induction hs generalizing s with
  | nil => exact ⟨_, _, rfl, .refl s⟩
  | cons hn rs ih =>
    obtain ⟨r, s₁, hrn, h⟩ := apart_releaseAdapterHandle hn s
    rw [releaseAdapterHandles, Exec.bind_apply, hrn]
    cases r with
    | error e => exact ⟨_, _, rfl, h⟩
    | ok u =>
      obtain ⟨r, s₂, hr, h'⟩ := ih s₁
      exact ⟨r, s₂, hr, h.trans h'⟩

theorem apart_teardownThreadHandles (t : host.Thread) (s : Orchestrator host) :
    ∃ t' s', teardownThreadHandles t s = some (.ok t', s') ∧ Apart s s' := by
  unfold teardownThreadHandles
  rcases host.extractAllAdapterHandles t with ⟨hs, t'⟩
  obtain ⟨r, s₁, hr, h⟩ := apart_releaseAdapterHandles hs s
  refine ⟨t', ?_⟩
  dsimp only
  rw [Exec.bind_apply, releaseOrFail, Exec.bind_apply, hr]
  cases r with
  | error e => exact ⟨_, rfl, h.trans ⟨rfl, fun _ => rfl, rfl, rfl⟩⟩
  | ok u => exact ⟨_, rfl, h⟩

theorem run_cancelAndTeardownThread (id : ℕ) (s : Orchestrator host) :
    ∃ (s' : Orchestrator host) (k : VirtualKernel host),
      Orchestrator.cancelAndTeardownThread id s = some (.ok (), s') ∧
      s'.kernel = k.cancel id ∧ k.books = (s.kernel.takeThread id).2.books ∧
      k.hasState id = false ∧ s'.aggregateCoordinators = s.aggregateCoordinators ∧
      s'.coordinatorIds = s.coordinatorIds := by
  have hgn := VirtualKernel.hasState_takeThread s.kernel id
  unfold Orchestrator.cancelAndTeardownThread
  rcases htk : s.kernel.takeThread id with ⟨_ | t, k⟩
  · rw [htk] at hgn
    rw [kernelCall_bind htk]
    exact ⟨_, k, rfl, rfl, rfl, hgn, rfl, rfl⟩
  · rw [htk] at hgn
    rw [kernelCall_bind htk]
    obtain ⟨t', s₁, hrn, hbk, hst, hcr, hid⟩ :=
      apart_teardownThreadHandles t { s with kernel := k }
    refine ⟨{ s₁ with kernel := (s₁.kernel.dropThread t').cancel id },
      s₁.kernel.dropThread t', ?_, rfl, ?_, ?_, hcr, hid⟩
    · dsimp only
      rw [Exec.bind_apply, hrn]
      rfl
    · exact (VirtualKernel.books_dropThread t').trans hbk
    · exact (VirtualKernel.hasState_dropThread? (some t') id).trans ((hst id).trans hgn)

theorem run_openCoordinator (c : AggregateCoordinator host) (hsn : Sound s) :
    ∃ s', Orchestrator.openCoordinator c s = some (.ok (), s') ∧ Sound s' ∧
      (QuotasExact s → QuotasExact s') := by
  unfold Orchestrator.openCoordinator
  cases hfl : s.kernel.isFull .pendingStates with
  | true =>
    obtain ⟨e, he⟩ := VirtualKernel.reserve_of_isFull hfl
    rw [kernelCall_bind he]
    exact ⟨s, rfl, hsn, id⟩
  | false =>
    rw [kernelCall_bind (VirtualKernel.reserve_of_not_isFull hfl)]
    obtain ⟨hbl, hid, hac⟩ := hsn
    cases hal : s.coordinatorIds.tryAllocate with
    | none =>
      refine ⟨{ s with kernel := (s.kernel.occupy .pendingStates).release .pendingStates 1 }, ?_,
        ⟨hbl, hid, hac⟩, fun h => ⟨h.runnableThreads, h.timers, h.pendingStates⟩⟩
      dsimp only
      rw [Exec.bind_apply]
      dsimp only [Exec.get_apply, Option.bind_some]
      rw [hal]
      rfl
    | some a =>
      obtain ⟨id, ci⟩ := a
      obtain ⟨hsn', hnw, hir⟩ := hid.tryAllocate hal
      have hfr : s.aggregateCoordinators.lookup id = none :=
        Option.eq_none_iff_forall_ne_some.mpr fun _ hlk => hnw (hac hlk)
      refine ⟨{ s with
        kernel := s.kernel.occupy .pendingStates
        coordinatorIds := ci
        aggregateCoordinators := s.aggregateCoordinators.insert id c }, ?_,
        ⟨hbl, hsn', ?_⟩, ?_⟩
      · dsimp only
        rw [Exec.bind_apply]
        dsimp only [Exec.get_apply, Option.bind_some]
        rw [hal]
        rfl
      · intro id' c' hlk
        rw [Table.lookup_insert_eq] at hlk
        rw [hir]
        split at hlk
        · next heq => exact heq ▸ Finset.mem_insert_self _ _
        · exact Finset.mem_insert_of_mem (hac hlk)
      · rintro ⟨hrn, htm, hpn⟩
        refine ⟨hrn, htm, ?_⟩
        rw [Table.size_insert_of_none hfr]
        exact congrArg (· + 1) hpn

theorem run_closeCoordinator (ci : ℕ) (hsn : Sound s) :
    ∃ s', Orchestrator.closeCoordinator ci s = some (.ok (), s') ∧ Sound s' ∧
      (QuotasExact s → QuotasExact s') := by
  unfold Orchestrator.closeCoordinator
  rw [Exec.bind_apply]
  dsimp only [Exec.get_apply, Option.bind_some]
  cases hlk : s.aggregateCoordinators.lookup ci with
  | none => exact ⟨s, rfl, hsn, id⟩
  | some c =>
    obtain ⟨hbl, hid, hac⟩ := hsn
    have hsz := Table.size_erase_of_some hlk
    refine ⟨{ s with
      kernel := s.kernel.release .pendingStates 1
      coordinatorIds := s.coordinatorIds.free ci
      aggregateCoordinators := s.aggregateCoordinators.erase ci }, rfl,
      ⟨hbl, hid.free, ?_⟩, ?_⟩
    · intro id' c' hlk'
      rw [Table.lookup_erase_eq, Option.ite_none_left_eq_some] at hlk'
      rw [IdManager.activeIds_free]
      exact Finset.mem_erase.mpr ⟨hlk'.1, hac hlk'.2⟩
    · rintro ⟨hrn, htm, hpn⟩
      refine ⟨hrn, htm, ?_⟩
      change s.kernel.books.pendingStates - 1 =
        s.kernel.blocked.blocked.card + Table.size (s.aggregateCoordinators.erase ci)
      have hpn : s.kernel.books.pendingStates =
        s.kernel.blocked.blocked.card + Table.size s.aggregateCoordinators := hpn
      omega

section Runs

variable {limits : ResourceLimitKind → ℕ} {bindings : Option host.Bindings}
  {providers : Option host.Providers}

theorem step_of_kernel (f : VirtualKernel host → VirtualKernel host) {P : Prop} (hs : Sound s)
    (hb : (f s.kernel).books.blocked.Sound)
    (hi : QuotasExact s → ((f s.kernel).books.Exact (Table.size s.aggregateCoordinators) ↔ P)) :
    ∃ s', (kernelDo f : Orchestration host Unit) s = some (.ok (), s') ∧ Sound s' ∧
      (QuotasExact s → (QuotasExact s' ↔ P)) :=
  ⟨{ s with kernel := f s.kernel }, rfl, ⟨hb, hs.coordinatorIds, hs.active⟩, hi⟩

/-- Every operation runs, and it keeps exact quotas exact just if its condition holds. -/
theorem step (op : KernelOperation host) (hsn : Sound s) :
    ∃ s', op.run s = some (.ok (), s') ∧ Sound s' ∧
      (QuotasExact s → (QuotasExact s' ↔ op.Keeps s)) := by
  have hbl := hsn.blocked
  cases op with
  | spawn t key =>
    have hbk := VirtualKernel.books_spawn (k := s.kernel) t key
    refine step_of_kernel (fun k => (k.spawn t key).2) hsn ?_ fun h => ?_
    · rw [hbk]
      exact hbl
    · rw [hbk]
      exact iff_of_true h trivial
  | enqueueRunnable id t =>
    have hrq := VirtualKernel.requeues_enqueueRunnable s.kernel id t
    refine step_of_kernel (fun k => (k.enqueueRunnable id t).2) hsn ?_ fun h =>
      iff_of_true (hrq.exact h) trivial
    rw [hrq.blocked]
    exact hbl
  | enqueueRunnableFront id t =>
    have hrq := VirtualKernel.requeues_enqueueRunnableFront s.kernel id t
    refine step_of_kernel (fun k => (k.enqueueRunnableFront id t).2) hsn ?_ fun h =>
      iff_of_true (hrq.exact h) trivial
    rw [hrq.blocked]
    exact hbl
  | block id t tm =>
    exact step_of_kernel (fun k => (k.block id t tm).2) hsn (VirtualKernel.sound_block t tm hbl)
      (VirtualKernel.exact_block_iff t tm)
  | unblock id =>
    exact step_of_kernel (fun k => (k.unblock id).2) hsn
      (VirtualKernel.sound_unblock hbl) (VirtualKernel.exact_unblock_iff hbl)
  | tick dm =>
    exact step_of_kernel (fun k => (k.tick dm).2) hsn
      (VirtualKernel.sound_tick dm hbl) (VirtualKernel.exact_tick_iff dm hbl)
  | dispatch =>
    have hsm : s.kernel.dispatchNext.2.blocked = _ := VirtualKernel.blocked_dispatchNext
    exact step_of_kernel (fun k => k.dispatchNext.2) hsn (hsm ▸ hbl :)
      VirtualKernel.exact_dispatchNext_iff
  | takeThread id =>
    have hsm : (s.kernel.takeThread id).2.blocked = _ := VirtualKernel.blocked_takeThread
    exact step_of_kernel (fun k => (k.takeThread id).2) hsn (hsm ▸ hbl :)
      VirtualKernel.exact_takeThread_iff
  | cancel id =>
    exact step_of_kernel (fun k => k.cancel id) hsn (VirtualKernel.sound_cancel hbl)
      (VirtualKernel.exact_cancel_iff hbl)
  | cancelAndTeardownThread id =>
    obtain ⟨s', k, hrn, hkr, hbk, hgn, hcr, hid⟩ :=
      run_cancelAndTeardownThread id s
    have hk : k.blocked = s.kernel.blocked :=
      (congrArg Books.blocked hbk).trans VirtualKernel.blocked_takeThread
    refine ⟨s', hrn, ⟨?_, hid ▸ hsn.coordinatorIds, ?_⟩, fun h => ?_⟩
    · exact hkr ▸ VirtualKernel.sound_cancel (hk ▸ hbl)
    · intro id' c hlk
      rw [hcr] at hlk
      exact hid ▸ hsn.active hlk
    · unfold QuotasExact
      rw [hkr, hcr]
      exact VirtualKernel.exact_takeThread_cancel_iff hbl h hbk hgn
  | exit id t r =>
    have hbk := VirtualKernel.books_markExited s.kernel id t r
    refine step_of_kernel (fun k => k.markExited id t r) hsn ?_ fun h => ?_
    · rw [hbk]
      exact hbl
    · rw [hbk]
      exact iff_of_true h trivial
  | openCoordinator c =>
    obtain ⟨s', hrn, hsn', hec⟩ := run_openCoordinator c hsn
    exact ⟨s', hrn, hsn', fun h => iff_of_true (hec h) trivial⟩
  | closeCoordinator ci =>
    obtain ⟨s', hrn, hsn', hec⟩ := run_closeCoordinator ci hsn
    exact ⟨s', hrn, hsn', fun h => iff_of_true (hec h) trivial⟩

inductive Run : Orchestrator host → List (KernelOperation host) → Orchestrator host → Prop
  | nil (s : Orchestrator host) : Run s [] s
  | snoc {s s₁ s₂ : Orchestrator host} {ops : List (KernelOperation host)}
      {op : KernelOperation host} (h : Run s ops s₁) (hop : op.run s₁ = some (.ok (), s₂)) :
      Run s (ops ++ [op]) s₂

theorem Run.sound {o : List (KernelOperation host)} (h : Run s o s') (hs : Sound s) : Sound s' := by
  induction h with
  | nil => exact hs
  | snoc _ hop ih =>
    obtain ⟨s₂, hr, hs', _⟩ := step _ ih
    cases hr.symm.trans hop
    exact hs'

/-- The quotas of the kernel are exact after every operation of a list just if every operation
meets its condition. -/
theorem quotas_exact_iff (limits : ResourceLimitKind → ℕ) (bindings : Option host.Bindings)
    (providers : Option host.Providers) (ops : List (KernelOperation host)) :
    (∀ done s, done <+: ops → Run (new limits bindings providers) done s → QuotasExact s) ↔
      ∀ done op s, done ++ [op] <+: ops → Run (new limits bindings providers) done s →
        op.Keeps s := by
  have hn := sound_new limits bindings providers
  constructor
  · intro h done op s hp hr
    obtain ⟨s', hop, _, hi⟩ := step op (hr.sound hn)
    have hec := h done s ((List.prefix_append _ _).trans hp) hr
    exact (hi hec).mp (h _ s' hp (hr.snoc hop))
  · intro h done s hp hr
    induction hr with
    | nil => exact quotasExact_new limits bindings providers
    | snoc hr hop ih =>
      obtain ⟨s', hop', _, hi⟩ := step _ (hr.sound hn)
      cases hop'.symm.trans hop
      exact (hi (ih ((List.prefix_append _ _).trans hp))).mpr (h _ _ _ hp hr)

/-- The first thread is cancelled while it waits for a sleep. -/
def cancelledSleeper : List (Input plainHost) :=
  polls [asks 1 (createSleep 5), asks 1 (.futureWait 1 0 0), .cancelThread 1]

theorem cancelled_sleeper_stays_reserved : (execute plainLaunch cancelledSleeper).map (fun s =>
      (s.kernel.quota.used .pendingStates, s.kernel.blocked.blocked.card,
        Table.size s.aggregateCoordinators, s.failure.isNone)) = some (1, 0, 0, true) := by
  decide +kernel

end Runs

end KernelOperation

end Galfus
