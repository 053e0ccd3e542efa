import Galfus.Runtime.CoreInvariant
import Galfus.Runtime.Wide

/-! # Completions refine the core

What the completion of a future, the cancellation of futures and the end of an aggregate do
is a sequence of steps of the core.
-/

namespace Galfus.Orchestrator

open Exec (Moves)
open Galfus.Core (Step Steps Outcome Clean)

variable {host : Host} {α : Type} {s s' s₁ : Orchestrator host} {r : Except Empty α}

/-- From a state that is in order, steps of the core lead to the other one. -/
def Tends (s s' : Orchestrator host) : Prop := s.core.Ok → Steps s.core s'.core

instance : Std.Refl (@Tends host) := ⟨fun _ _ => .refl⟩

instance : IsTrans (Orchestrator host) Tends :=
  ⟨fun _ _ _ h h' hok => (h hok).trans (h' (hok.steps (h hok)))⟩

abbrev Leads (x : Orchestration host α) : Prop := Moves Tends x

theorem Still.ledger_eq (h : Still s s') :
    s'.futureRegistry = s.futureRegistry ∧ s'.futureIds = s.futureIds ∧
      s'.futureGenerations = s.futureGenerations ∧ s'.mailboxFutureWaits = s.mailboxFutureWaits ∧
      s'.mailboxFutureWaitTargets = s.mailboxFutureWaitTargets ∧
      s'.mailboxWaitSequence = s.mailboxWaitSequence ∧ s'.history = s.history := by
  simpa [Orchestrator.ledger] using h.ledger

theorem Still.core_eq (h : Still s s') :
    s'.core = { s.core with box := s'.kernel.box, threadIds := s'.kernel.threadIds } := by
  obtain ⟨hr, hi, hg, hw, ht, hs, hh⟩ := h.ledger_eq
  unfold core waitQueues
  rw [hr, hi, hg, hw, ht, hs, hh, h.kernel.limits]

theorem Still.tends (h : Still s s') : Tends s s' := by
  intro _
  rw [h.core_eq]
  exact .single (.quiet _ _ h.kernel.box h.kernel.active h.kernel.sound)

instance : Closed (@Tends host) where
  quota s q h := (Mild.quota s q h : Still s _).tends
  set s s' h := (Mild.set s s' h : Still s s').tends
  fail s e := (Mild.fail s e : Still s _).tends
  kernel s k h := (Closed.kernel s k h : Still s _).tends
  note s n h := (Closed.note s n h : Still s _).tends
  worker s id := (Closed.worker s id : Still s _).tends
  continuation s key := (Closed.continuation s key : Still s _).tends
  aggregates s c i f := (Closed.aggregates s c i f : Still s _).tends

theorem leads_of_still {x : Orchestration host α} (h : Moves Still x) : Leads x :=
  h.mono fun _ _ => Still.tends

theorem leads_set {f : Orchestrator host → Orchestrator host}
    (hk : ∀ s, (f s).kernel = s.kernel) (hl : ∀ s, (f s).ledger = s.ledger) :
    Leads (Exec.modify f) :=
  .modify fun s =>
    Still.tends ⟨hk s ▸ VirtualKernel.Shrinks.refl s.kernel, hl s⟩

theorem tends_of_step (h : s.core.Ok → Step s.core s'.core) : Tends s s' :=
  fun hok => .single (h hok)

/-- The futures and the history stay as they are. -/
structure Rests (s s' : Orchestrator host) : Prop where
  tends : Tends s s'
  registry : s'.futureRegistry = s.futureRegistry
  history : s'.history = s.history

instance : Std.Refl (@Rests host) := ⟨fun s => ⟨refl s, rfl, rfl⟩⟩

instance : IsTrans (Orchestrator host) Rests :=
  ⟨fun _ _ _ h h' => ⟨trans_of Tends h.tends h'.tends, h'.registry.trans h.registry,
    h'.history.trans h.history⟩⟩

theorem Still.rests (h : Still s s') : Rests s s' :=
  ⟨h.tends, h.ledger_eq.1, h.ledger_eq.2.2.2.2.2.2⟩

/-- No future has this id, unless a race discarded a future of another thread. -/
def Vacant (s : Orchestrator host) (futureId : ℕ) : Prop :=
  Clean s.history → ∀ key, s.futureRegistry.Holds key → key.2 ≠ futureId

theorem Vacant.rests {fi : ℕ} (h : s.Vacant fi) (hr : Rests s s') : s'.Vacant fi := by
  unfold Vacant
  rw [hr.registry, hr.history]
  exact h

theorem vacant_of_gone (hok : s.core.Ok) {key : FutureKey} (hk : s.futureRegistry.Holds key)
    (hw : s.futureRegistry.Within s'.futureRegistry)
    (hg : ¬ s'.futureRegistry.Holds key) (hh : s'.history = s.history) :
    s'.Vacant key.2 := by
  intro hc o ho heq
  have hu := (hok.futures (show Clean s.history from hh ▸ hc)).unique
  have : o = key := hu o key (hw o ho) hk heq
  exact hg (this ▸ ho)

theorem rests_freeFutureId {fi : ℕ} {r : Except Empty Unit} (h : s.Vacant fi)
    (hr : freeFutureId fi s = some (r, s')) : Rests s s' := by
  cases hr
  exact ⟨tends_of_step fun _ => .freed fi h, rfl, rfl⟩

theorem rests_cleanDiscarded {key : FutureKey} {a : Option (Activation host.Surface)}
    {r : Except Empty Unit} (h : s.Vacant key.2)
    (hrn : cleanDiscarded key a s = some (r, s')) : Rests s s' := by
  cases a with
  | none => exact rests_freeFutureId h hrn
  | some a =>
    obtain ⟨_, s₁, hc, hf⟩ := Exec.bind_run hrn
    have hs : Still s s₁ := moves_cancelFutureActivation key a _ _ _ hc
    have hr := hs.rests
    exact trans_of Rests hr (rests_freeFutureId (h.rests hr) hf)

theorem rests_cleanDiscarded_forM (k : List (FutureKey × Option (Activation host.Surface)))
    {r : Except Empty PUnit} (h : ∀ d ∈ k, s.Vacant d.1.2)
    (hrn : (k.forM fun d => cleanDiscarded d.1 d.2) s = some (r, s')) : Rests s s' := by
  induction k generalizing s with
  | nil =>
    cases hrn
    exact refl _
  | cons d rs ih =>
    obtain ⟨_, s₁, hf, hrs⟩ := Exec.bind_run hrn
    have hr := rests_cleanDiscarded (h d List.mem_cons_self) hf
    exact trans_of Rests hr (ih (fun d' hd' => (h d' (List.mem_cons_of_mem d hd')).rests hr) hrs)

theorem tends_cleanAll {rg : FutureRegistry host.Surface PendingContinuation host.Result}
    {k : List (FutureKey × Option (Activation host.Surface))} {r : Except Empty PUnit}
    (hw : s.futureRegistry.Within rg)
    (hg : ∀ d ∈ k, s.futureRegistry.Holds d.1 ∧ ¬ rg.Holds d.1)
    (hr : (k.forM fun d => cleanDiscarded d.1 d.2) { s with futureRegistry := rg } =
      some (r, s')) : Tends s s' := by
  intro hok
  have hf : Step s.core { s with futureRegistry := rg }.core := .forget _ hw
  refine .head hf ((rests_cleanDiscarded_forM k ?_ hr).tends (hok.step hf))
  exact fun d hd => vacant_of_gone hok (hg d hd).1 hw (hg d hd).2 rfl

theorem leads_cancelAllFutures : Leads (cancelAllFutures : Orchestration host Unit) := by
  intro s r s' hr
  obtain ⟨hw, hg⟩ := FutureRegistry.discardOwners_spec s.futureRegistry.owners s.futureRegistry
  exact tends_cleanAll hw hg hr

theorem leads_cancelThreadFutures (threadId : ℕ) :
    Leads (cancelThreadFutures threadId : Orchestration host Unit) := by
  intro s r s' hr
  obtain ⟨hw, hg⟩ := FutureRegistry.discardOwned_spec threadId
    (s.futureRegistry.ownedIds threadId) s.futureRegistry
  have hm : ((s.futureRegistry.discardAllForOwner threadId).1.map
      fun d => ((threadId, d.1), d.2)).forM (fun d => cleanDiscarded d.1 d.2)
        { s with futureRegistry := (s.futureRegistry.discardAllForOwner threadId).2 } =
      some (r, s') := by
    rw [Exec.forM_map]
    exact hr
  refine tends_cleanAll hw ?_ hm
  intro d hd
  obtain ⟨d', hd', rfl⟩ := List.mem_map.mp hd
  exact hg d' hd'

theorem eq_of_heldByOther {key o : FutureKey} (h : s.heldByOther key = false)
    (ho : s.futureRegistry.Holds o) (heq : o.2 = key.2) : o.1 = key.1 := by
  unfold heldByOther at h
  rw [List.any_eq_false] at h
  have := h o (Table.mem_keys_iff.mpr (Option.isSome_iff_exists.mp ho))
  simpa [heq] using this

/-- The id of a member of a race is freed even if the member was gone before. -/
theorem leads_discardRaced (key : FutureKey) :
    Leads (discardRaced key : Orchestration host Unit) := by
  intro s r s' hrn hok
  let s₀ : Orchestrator host := { s with history := s.history ++ [.raced key (s.heldByOther key)] }
  let s₁ : Orchestrator host :=
    { s₀ with futureRegistry := (s.futureRegistry.discardForRace key).2 }
  have hrc : Step s.core s₀.core := .raced key _ fun h other hot heq =>
    eq_of_heldByOther h hot heq
  have hwt := s.futureRegistry.within_discardInner key true
  have hfr : Step s₀.core s₁.core := .forget _ hwt
  have hgn : ¬ s₁.futureRegistry.Holds key := by
    show ¬ (s.futureRegistry.discardInner key true).2.Holds key
    rcases s.futureRegistry.discardInner_cases key true with ⟨hnt, e, h⟩ | ⟨h, -⟩ | ⟨-, d, -, h⟩
    · rwa [h]
    · cases h
    · rw [h]
      exact fun hhl => ((FutureRegistry.holds_remove key).mp hhl).1 rfl
  have hvc : s₁.Vacant key.2 := by
    intro hcl other hot heq
    have hhe : s.heldByOther key = false := by
      rcases hfl : s.heldByOther key with _ | _
      · rfl
      · exact absurd (by simp [s₁, s₀, hfl]) (hcl key)
    have : other = key := Prod.ext (eq_of_heldByOther hhe (hwt other hot) heq) heq
    exact hgn (this ▸ hot)
  have hcl : ∃ activation, cleanDiscarded key activation s₁ = some (r, s') := by
    simp only [discardRaced, registryCall, observe, Exec.bind_apply, Exec.get_apply,
      Exec.modify_apply, Option.bind_some] at hrn
    generalize (s.futureRegistry.discardForRace key).1 = answer at hrn
    rcases answer with e | ⟨_ | activation | _ | _⟩
    · exact ⟨none, hrn⟩
    · exact ⟨none, hrn⟩
    · exact ⟨some activation, hrn⟩
    · exact ⟨none, hrn⟩
    · exact ⟨none, hrn⟩
  obtain ⟨activation, hrs⟩ := hcl
  exact .head hrc (.head hfr ((rests_cleanDiscarded hvc hrs).tends ((hok.step hrc).step hfr)))

section Completion

variable {rs : host.Result}

/-- A future that has no waiters any more. -/
def Settled (s : Orchestrator host) (key : FutureKey) : Prop :=
  ∃ record, s.futureRegistry.records.lookup key = some record ∧ record.waiters.isEmpty = true

theorem tends_discardDirect {i : Bool} {key : FutureKey} {r : Except Empty Unit}
    (h : s.Settled key) (hr : discardDirect i key s = some (r, s')) :
    Tends s s' := by
  unfold discardDirect at hr
  split at hr
  · obtain ⟨rc, hl, hem⟩ := h
    let s₁ : Orchestrator host := { s with futureRegistry := s.futureRegistry.remove key }
    have hfr : freeFutureId key.2 s₁ = some (r, s') := by
      have hd := FutureRegistry.discard_of_isEmpty hl hem
      show freeFutureId key.2 { s with futureRegistry := s.futureRegistry.remove key } = _
      rw [← hd]
      exact hr
    have hf : Step s.core s₁.core := .forget _ FutureRegistry.within_remove
    intro hok
    have hv : s₁.Vacant key.2 :=
      vacant_of_gone hok (FutureRegistry.holds_of_lookup hl) FutureRegistry.within_remove
        (fun hh => ((FutureRegistry.holds_remove key).mp hh).1 rfl) rfl
    exact .head hf ((rests_freeFutureId hv hfr).tends (hok.step hf))
  · cases hr
    exact refl s

theorem tends_deliverResult {key : FutureKey} {pm : Option String} {ri : Option ℕ}
    {i : Bool} {ws : List PendingContinuation} {r : Except Empty Unit}
    (h : s.Settled key)
    (hrn : deliverResult key pm ri i rs ws s = some (r, s')) : Tends s s' := by
  obtain ⟨a, s₁, hrg, hrn⟩ := Exec.bind_run hrn
  have hst : Still s s₁ := moves_registerResult pm rs _ _ _ hrg
  refine trans_of Tends hst.tends ?_
  rcases a with e | _
  · exact (moves_fail _ : Leads _).bind (fun _ => moves_cancel _) _ _ _ hrn
  · obtain ⟨_, s₂, hrs, hrn⟩ := Exec.bind_run hrn
    have hst' : Still s₁ s₂ := Moves.forM ws
      (fun w => moves_resumePending w.threadId w rs (.future key.2)) _ _ _ hrs
    refine trans_of Tends hst'.tends ?_
    obtain ⟨_, s₃, hds, hrn⟩ := Exec.bind_run hrn
    have hse : s₂.Settled key := by
      unfold Settled
      rw [hst'.ledger_eq.1, hst.ledger_eq.1]
      exact h
    refine trans_of Tends (tends_discardDirect hse hds) ?_
    exact (moves_freeRequest ri : Leads _).bind (fun _ => moves_countMetrics _) _ _ _ hrn

theorem core_completeRecord (key : FutureKey) (rs : host.Result) (o : Observation host) :
    core { s with
      futureRegistry := (s.futureRegistry.complete key rs).2
      history := s.history ++ [o] } =
      { s.core with history := s.core.history ++ [o] } := by
  unfold core
  congr 1
  funext key'
  exact propext (FutureRegistry.holds_complete rs key')

/-- A completion notes its outcome first; what follows is a sequence of steps. -/
theorem completeFuture_run {c : Cause} {ti fi : ℕ} {r : Except Empty Unit}
    (hrn : completeFuture c ti fi rs s = some (r, s')) :
    ∃ s₁ o r', s₁.core = { s.core with history := s.core.history ++ [o] } ∧
      Outcome s.core (ti, fi) c r' o ∧
      (∀ d, rs = .ok (.bytes d) → r' = rs) ∧
      (o = .completed (ti, fi) c (s.core.isCurrent c) r' ↔
        s.futureRegistry.isPending (ti, fi) = true ∧
          checkPayload s.futureRegistry (ti, fi) r' = some (.ok ())) ∧
      Tends s₁ s' := by
  unfold completeFuture at hrn
  rw [Exec.get_bind] at hrn
  generalize had : adaptResult _ _ rs = r' at hrn
  have hby : ∀ d, rs = .ok (.bytes d) → r' = rs := by
    rintro d rfl
    rw [← had]
    rfl
  cases hpy : checkPayload s.futureRegistry (ti, fi) r' with
  | none =>
    rw [hpy] at hrn
    cases hrn
  | some p =>
    rw [hpy] at hrn
    cases p with
    | error e =>
      refine ⟨{ s with history := s.history ++ [.missed (ti, fi) c] }, _, r',
        rfl, .missed, hby, by simp [hpy], ?_⟩
      exact (moves_failAndTeardown ti e) _ _ _ hrn
    | ok u =>
      have hcr := @core_completeRecord _ s (ti, fi) r'
      have hpn := @FutureRegistry.complete_fst _ _ _ s.futureRegistry (ti, fi) r'
      obtain ⟨a, s₁, hrc, hrn⟩ := Exec.bind_run hrn
      unfold completeRecord at hrc
      rcases hcm : s.futureRegistry.complete (ti, fi) r' with
        ⟨answer', registry⟩
      rw [hcm] at hrc hcr hpn
      cases hrc
      cases a with
      | error e =>
        refine ⟨_, .missed (ti, fi) c, r', hcr _, .missed, hby, ?_,
          (moves_noteUnmatched _ e) _ _ _ hrn⟩
        simp [← hpn]
      | ok ws =>
        obtain ⟨hhl, hst⟩ := FutureRegistry.complete_ok hcm
        refine ⟨_, _, r', hcr _, .completed hhl, hby, ?_, tends_deliverResult hst hrn⟩
        simp [← hpn, hpy]

theorem tends_completeFuture {c : Cause} {ti fi : ℕ} {r : Except Empty Unit}
    (hcs : ∀ t w m, c ≠ .delivery t w m)
    (hl : ∀ l, c.lease? = some l → l.id = fi)
    (hc : c.isChecked = true → s.core.isCurrent c = true)
    (hr : completeFuture c ti fi rs s = some (r, s')) : Tends s s' := by
  obtain ⟨s₁, o, r', hcr, ho, -, -, ht⟩ := completeFuture_run hr
  have hs : Step s.core s₁.core := by
    rw [hcr]
    exact .resolved ho hcs hl hc
  exact fun hok => .head hs (ht (hok.step hs))

end Completion

end Galfus.Orchestrator
