import Galfus.Adapter.AdapterHost
import Galfus.Adapter.Denotes
import Galfus.Runtime.KernelBooks

/-! # The namespace of foreign handles

A value that an adapter returns is checked, its handles are registered and it is put on a heap,
by three walks over the value. The third one looks into structs, the other two do not.
-/

namespace Galfus.Orchestrator

section Registration

variable {host : Host} {s s' : Orchestrator host} {proxyModule : String} {value : host.Surface}

theorem registerAdapterHandles_eq_ok
    (hrn : registerAdapterHandles proxyModule value s = some (.ok (.ok ()), s')) :
    (host.collectAdapterHandles value = [] ∧ s' = s) ∨
      ∃ bindings bs' bindingId q, s.adapterBindings = some bindings ∧
        host.bindingId bindings proxyModule = some bindingId ∧
        host.registerHandles bindings bindingId (host.collectAdapterHandles value) = (.ok (), bs') ∧
        s.kernel.quota.tryReserve .externalHandles (host.collectAdapterHandles value).length =
          .ok q ∧
        s' = { s with
          adapterBindings := some bs'
          kernel := { s.kernel with quota := q } } := by
  unfold registerAdapterHandles at hrn
  split at hrn
  · next hem =>
    cases hrn
    exact .inl ⟨List.isEmpty_iff.mp hem, rfl⟩
  · right
    rcases hrs : s.kernel.reserve .externalHandles (host.collectAdapterHandles value).length with
      ⟨e | u, k⟩
    · rw [kernelCall_bind hrs] at hrn
      cases hrn
    · rw [kernelCall_bind hrs] at hrn
      have hqt : ∃ q, s.kernel.quota.tryReserve .externalHandles
          (host.collectAdapterHandles value).length = .ok q ∧
          k = { s.kernel with quota := q } := by
        unfold VirtualKernel.reserve at hrs
        split at hrs
        · next q hqt =>
          cases hrs
          exact ⟨q, hqt, rfl⟩
        · cases hrs
      obtain ⟨q, hqt, rfl⟩ := hqt
      dsimp only at hrn
      rw [Exec.bind_apply] at hrn
      dsimp only [Exec.get_apply, Option.bind_some] at hrn
      rcases hbn : s.adapterBindings with _ | bindings
      · rw [hbn] at hrn
        cases hrn
      · rw [hbn] at hrn
        dsimp only at hrn
        rcases hid : host.bindingId bindings proxyModule with _ | bindingId
        · rw [hid] at hrn
          cases hrn
        · rw [hid] at hrn
          dsimp only at hrn
          rcases hrg : host.registerHandles bindings bindingId
            (host.collectAdapterHandles value) with ⟨e | u, bs'⟩
          · rw [hrg] at hrn
            cases hrn
          · rw [hrg] at hrn
            cases hrn
            exact ⟨bindings, bs', bindingId, q, rfl, hid, hrg, hqt, rfl⟩

end Registration

section Handles

variable {M : Type} [AdapterModuleBinding M] {m : BytecodeModule} {h : PrivateHeap}
  {s s' : Orchestrator (adapterHost M m h)} {bindings : AdapterBindings M}
  {proxyModule : String} {bindingId : ℕ} {value : SurfaceValue}

theorem mem_handles_of_registerAdapterHandles (hb : s.adapterBindings = some bindings)
    (hid : bindings.bindingId proxyModule = some bindingId)
    (hr : registerAdapterHandles proxyModule value s = some (.ok (.ok ()), s')) :
    ∃ bs', s'.adapterBindings = some bs' ∧ ∀ h, h ∈ bs'.handles ↔
      h ∈ bindings.handles ∨ ∃ x ∈ value.collectAdapterHandles, h = bound bindingId x := by
  rcases registerAdapterHandles_eq_ok hr with ⟨hem, rfl⟩ |
    ⟨bindings₁, bs', bindingId', quota, hb₁, hid', hrg, -, rfl⟩
  · have hem : value.collectAdapterHandles = [] := hem
    refine ⟨bindings, hb, fun h => ?_⟩
    rw [hem]
    simp
  · cases hb.symm.trans hb₁
    cases hid.symm.trans hid'
    have hr' := AdapterBindings.registerOrFail_eq_ok hrg
    obtain ⟨p, b, n', -, -, -, rfl⟩ := AdapterBindings.registerHandles_eq_ok hr'
    refine ⟨_, rfl, fun h => ?_⟩
    rw [Finset.mem_union, List.mem_toFinset, List.mem_map]
    apply or_congr Iff.rfl
    constructor
    · rintro ⟨x, hx, rfl⟩
      exact ⟨x, hx, rfl⟩
    · rintro ⟨x, hx, rfl⟩
      exact ⟨x, hx, rfl⟩

/-- After a value of an adapter is accepted and its handles are registered, all handles in it are of
the proxy module, and what an encoding puts on a heap is registered just if each handle in it was
collected or registered before. -/
theorem accepted_handles_registered_iff (hbindings : s.adapterBindings = some bindings)
    (hsound : bindings.Sound) (hid : bindings.bindingId proxyModule = some bindingId)
    (haccept : value.validateAdapterHandles proxyModule = true)
    (hrun : registerAdapterHandles proxyModule value s = some (.ok (.ok ()), s')) :
    ((∀ x ∈ value.handles, x.1.belongsTo proxyModule = true) ∧
      ∃ bindings', s'.adapterBindings = some bindings' ∧ (∀ h, h ∈ bindings'.handles ↔
          h ∈ bindings.handles ∨ ∃ x ∈ value.handles, h = bound bindingId x) ∧
        ∀ (target : SurfaceTarget) schema expected h r h',
          target.adapterBindingId = some bindingId →
          target.encodeSurface schema value expected h = some (r, h') →
          ∀ handle, h'.Denotes handle → h.Denotes handle ∨ handle ∈ bindings'.handles) ↔
      ∀ x ∈ value.handles,
        x ∈ value.collectAdapterHandles ∨ bound bindingId x ∈ bindings.handles := by
  obtain ⟨bindings', hbn', hmm⟩ := mem_handles_of_registerAdapterHandles hbindings hid hrun
  constructor
  · rintro ⟨-, bs₁, hbn₁, hec, -⟩ x hx
    cases hbn'.symm.trans hbn₁
    rcases (hmm _).mp ((hec _).mpr (.inr ⟨x, hx, rfl⟩)) with hl | ⟨y, hy, hxy⟩
    · exact .inr hl
    · cases x
      cases y
      cases hxy
      exact .inl hy
  · intro h
    have hec (handle : AdapterHandleId) : handle ∈ bindings'.handles ↔
        handle ∈ bindings.handles ∨ ∃ x ∈ value.handles, handle = bound bindingId x := by
      rw [hmm]
      constructor
      · rintro (hl | ⟨x, hx, rfl⟩)
        · exact .inl hl
        · exact .inr ⟨x, SurfaceValue.mem_handles_of_mem_collect value hx, rfl⟩
      · rintro (hl | ⟨x, hx, rfl⟩)
        · exact .inl hl
        · rcases h x hx with hx | hx
          · exact .inr ⟨x, hx, rfl⟩
          · exact .inl hx
    refine ⟨fun x hx => ?_, bindings', hbn', hec, ?_⟩
    · rcases h x hx with hx | hx
      · exact (SurfaceValue.validateAdapterHandles_iff value).mp haccept x hx
      · obtain ⟨p, b, hlk, hbn, hbl⟩ := hsound.owner _ hx
        have hp := AdapterBindings.bindingId_eq_some.mpr ⟨b, hlk, hbn⟩
        rw [hsound.injective hid hp]
        exact hbl
    · intro target schema expected h r h' htr hen handle hdn
      apply SurfaceTarget.adds_encodeSurface (S := (· ∈ bindings'.handles)) schema value expected
        _ h r h' hen handle hdn
      intro x hx n hn
      cases htr.symm.trans hn
      exact (hec _).mpr (.inr ⟨x, hx, rfl⟩)

end Handles

instance : AdapterModuleBinding Unit where
  releaseHandle module _ _ := (.ok .released, module)

def filesModule : BytecodeModule where
  name := "main"
  globalCount := 0
  constants := []
  functions := []
  types := [.struct 0, .adapterHandle ⟨"other", "File"⟩]
  structLayouts := [⟨"Entry", [⟨"file", 1, 0, .strong⟩], []⟩]
  choiceLayouts := []
  imports := []
  exports := []
  initFuncIdx := none

def filesHeap : PrivateHeap := .new ⟨9, 999, 0, 0⟩ ⟨64, 16⟩

def filesBindings : AdapterBindings Unit :=
  (AdapterBindings.empty.registerModule "files.gfp" ()).2

def filesRuntime : Orchestrator (adapterHost Unit filesModule filesHeap) :=
  .new (fun _ => 1024) (some filesBindings) none

def accepts {σ : Type} : Except Empty (Except ExecutionFailure Unit) × σ → Bool
  | (.ok (.ok ()), _) => true
  | _ => false

theorem exists_of_accepts {σ : Type} {r : Option (Except Empty (Except ExecutionFailure Unit) × σ)}
    (h : r.any accepts = true) : ∃ s, r = some (.ok (.ok ()), s) := by
  obtain ⟨⟨e | e | u, s⟩, rfl, h⟩ := Option.any_eq_true _ _ |>.mp h
  · exact e.elim
  · cases h
  · exact ⟨s, rfl⟩

def fileList : SurfaceValue := .list [.handle ⟨⟨"files", "File"⟩, 1⟩]

theorem accepted_handles_registered_list :
    ∃ s' bindings', registerAdapterHandles "files.gfp" fileList filesRuntime =
      some (.ok (.ok ()), s') ∧ s'.adapterBindings = some bindings' ∧
      ⟨0, ⟨"files", "File"⟩, 1⟩ ∈ bindings'.handles := by
  have ha : fileList.validateAdapterHandles "files.gfp" = true := by decide +kernel
  have hid : filesBindings.bindingId "files.gfp" = some 0 := by decide +kernel
  have hs : filesBindings.Sound := AdapterBindings.sound_empty.registerModule _ _
  have hok : (registerAdapterHandles "files.gfp" fileList filesRuntime).any accepts = true := by
    decide +kernel
  have hc : ∀ x ∈ fileList.handles,
      x ∈ fileList.collectAdapterHandles ∨ bound 0 x ∈ filesBindings.handles := by
    decide +kernel
  have hf : (⟨"files", "File"⟩, 1) ∈ fileList.handles := by decide +kernel
  obtain ⟨s', hr⟩ := exists_of_accepts hok
  obtain ⟨-, bindings', hb', hec, -⟩ :=
    (accepted_handles_registered_iff rfl hs hid ha hr).mpr hc
  exact ⟨s', bindings', hr, hb', (hec _).mpr (.inr ⟨_, hf, rfl⟩)⟩

def foreignEntry : SurfaceValue := .struct [("file", .handle ⟨⟨"other", "File"⟩, 7⟩)]

def entrySchema : SurfaceSchema := .struct "Entry" [("file", .handle "File")]

def filesTarget : SurfaceTarget := ⟨0, filesModule, some 0, .doubling, fun _ => .ascending⟩

theorem foreign_handle_in_struct_is_encoded :
    foreignEntry.validateAdapterHandles "files.gfp" = true ∧
      (registerAdapterHandles "files.gfp" foreignEntry filesRuntime).map (fun p =>
        p.2.adapterBindings.map (·.activeHandles)) = some (some []) ∧
      (filesTarget.encodeSurface entrySchema foreignEntry 0 filesHeap).map (fun p =>
        p.2.objectAt 0) = some (some (.adapterHandle ⟨0, ⟨"other", "File"⟩, 7⟩)) ∧
      ¬ (⟨"other", "File"⟩ : OpaqueTypeId).belongsTo "files.gfp" := by
  decide +kernel

end Galfus.Orchestrator
