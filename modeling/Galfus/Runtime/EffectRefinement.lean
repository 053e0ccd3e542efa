import Galfus.Runtime.MailRefinement

/-! # Effects refine the core

Threads and futures are created, receives are registered and futures are dropped by steps of
the core.
-/

namespace Galfus.Orchestrator

open Exec (Moves)
open Galfus.Core (Step Steps)

variable {host : Host} {s s' s₁ : Orchestrator host}

theorem leads_spawnThread (t : host.Thread) (key : Option String) : Leads (spawnThread t key) := by
  intro s r s' hr
  unfold spawnThread at hr
  split at hr
  · next id kernel hs =>
    cases hr
    obtain ⟨hi, hl, hb⟩ := VirtualKernel.spawn_ok hs
    refine tends_of_step fun _ => ?_
    convert Step.opened (c := s.core) hi using 1
    refine Core.ext hl rfl ?_ rfl rfl rfl rfl rfl rfl rfl
    funext id'
    exact (hb id').trans (Function.update_apply ..).symm
  · next e kernel hs =>
    cases hr
    exact Still.tends ⟨VirtualKernel.spawn_error hs, rfl⟩

/-- A receive is registered after no message for it was found. -/
theorem tends_registerAfterReceive {ti fi : ℕ} {si tm : Option ℕ}
    {r : Except Empty Unit} (hr : receiveMessage ti si s = some (.ok none, s₁))
    (hrn : registerMailboxFutureWait ti ti fi si tm s₁ = some (r, s')) : Tends s₁ s' := by
  refine tends_registerMailboxFutureWait ?_ hrn
  unfold receiveMessage at hr
  split at hr
  · next kernel ht =>
    cases hr
    obtain ⟨rfl, hn⟩ := VirtualKernel.takeMessage_none ht
    exact hn
  · cases hr

theorem Allocated.tends {l : Lease} (h : Allocated s s' l) : Tends s s' := by
  obtain ⟨h⟩ := h
  exact tends_of_step fun _ => .allocated (c := s.core) h

theorem tends_insertFuture {ti : ℕ} {l : Lease}
    {rc : FutureRecord host.Surface PendingContinuation host.Result}
    {r : Except Empty (Except ExecutionFailure Unit)} (ha : Allocated s s₁ l)
    (hi : insertFuture ti l (fun rg key => rg.insertRecord key rc)
      s₁ = some (r, s')) : Tends s s' := by
  unfold insertFuture at hi
  split at hi
  · next rg hr =>
    cases hi
    have hh := FutureRegistry.insertRecord_ok (r := s₁.futureRegistry) hr
    obtain ⟨h⟩ := ha
    refine tends_of_step fun _ => ?_
    convert Step.created (c := s.core) ti h using 1
    exact Core.ext rfl rfl rfl (funext fun key => propext (hh key)) rfl rfl rfl rfl rfl rfl
  · next e rg hr =>
    cases hi
    obtain rfl := FutureRegistry.insertRecord_error (r := s₁.futureRegistry) hr
    exact ha.tends

/-- The id of a future that was dropped is free again. -/
theorem tends_freeDropped {key : FutureKey} {d : DiscardDisposition host.Surface}
    {rg : FutureRegistry host.Surface PendingContinuation host.Result}
    {r : Except Empty Unit} (a : Option (Activation host.Surface))
    (hds : s.futureRegistry.discard key = (.ok d, rg)) (hd : d ≠ .retained)
    (hr : cleanDiscarded key a { s with futureRegistry := rg } = some (r, s')) :
    Tends s s' := by
  rcases s.futureRegistry.discardInner_cases key false with ⟨-, e, h⟩ | ⟨-, h⟩ | ⟨hh, d', -, h⟩
  · cases hds.symm.trans h
  · cases hds.symm.trans h
    exact absurd rfl hd
  · cases hds.symm.trans h
    intro hok
    have hf : Step s.core { s with futureRegistry := s.futureRegistry.remove key }.core :=
      .forget _ FutureRegistry.within_remove
    refine .head hf ((rests_cleanDiscarded ?_ hr).tends (hok.step hf))
    have hg : ¬ (s.futureRegistry.remove key).Holds key :=
      fun hk => ((FutureRegistry.holds_remove key).mp hk).1 rfl
    exact @vacant_of_gone _ s { s with futureRegistry := s.futureRegistry.remove key } hok key hh
      FutureRegistry.within_remove hg rfl

instance : Wide (@Tends host) where
  registry _ _ h := tends_of_step fun _ => Step.forget _ h
  spawn := leads_spawnThread
  receive := leads_receiveMessage
  register := tends_registerAfterReceive
  unregister := leads_removeMailboxFutureWait
  send := leads_sendInternalThreadMessage
  complete := tends_completeFuture
  allocate := Allocated.tends
  create := tends_insertFuture
  drop := tends_freeDropped
  cancelFutures := leads_cancelThreadFutures
  race := leads_discardRaced

end Galfus.Orchestrator
