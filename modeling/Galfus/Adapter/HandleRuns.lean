import Galfus.Adapter.Conservation
import Galfus.Adapter.Namespace

/-! # Runs with foreign handles

The bindings and the quota of a runtime with the heaps of its threads, wherever their states
are. Adapters are taken and restored by the calls in flight, handles are registered, encoded and
copied, and they are released by drops, by teardowns and when the bindings are closed. A handle
that is never given a second object is not released while an object is it.
-/

namespace Galfus

open AdapterBindings
open Option (bind_some bind_eq_some_iff bind_eq_bind)

structure HandleState (M : Type) [AdapterModuleBinding M] (module : BytecodeModule)
    (heap : PrivateHeap) where
  runtime : Orchestrator (adapterHost M module heap)
  heaps : Table ℕ PrivateHeap

inductive HandleOperation (M : Type) where
  | registerModule (proxyModule : String) (adapter : M)
  | takeModule (proxyModule : String)
  | restoreModule (proxyModule : String) (adapter : M)
  | registerAdapterHandles (proxyModule : String) (value : SurfaceValue)
  | newThread (threadId : ℕ)
  | encode (threadId : ℕ) (value : FutureValue SurfaceSchema SurfaceValue) (expected moduleId : ℕ)
  | deepCopy (threadId : ℕ) (vm : VirtualMachine) (order : DrainOrder VmObjectRef)
      (ords : ℕ → CollectOrder) (v : VmValue)
  | heapOperation (threadId : ℕ) (op : HeapOp)
  | dropThread (threadId : ℕ)
  | flushDrops (threadId : ℕ)
  | dropLast (threadId : ℕ)
  | teardown (threadId : ℕ)
  | closeBindings

namespace HandleState

variable {M : Type} [AdapterModuleBinding M] {module : BytecodeModule} {heap : PrivateHeap}
  {s s' : HandleState M module heap} {b : AdapterBindings M}

def initial (limits : ResourceLimitKind → ℕ) : HandleState M module heap :=
  ⟨.new limits (some (.empty : AdapterBindings M)) none, ∅⟩

def bindings (s : HandleState M module heap) : AdapterBindings M :=
  s.runtime.adapterBindings.getD .empty

def used (s : HandleState M module heap) : ℕ := s.runtime.kernel.quota.used .externalHandles

/-- The state after a method of the runtime, with the heaps it leaves. -/
def after {α : Type} (x : Orchestration (adapterHost M module heap) α)
    (heaps : α → Table ℕ PrivateHeap) (s : HandleState M module heap) :
    Option (HandleState M module heap) :=
  (x s.runtime).bind fun
    | (.ok a, runtime) => some ⟨runtime, heaps a⟩

def onBindings (s : HandleState M module heap) (f : AdapterBindings M → AdapterBindings M) :
    HandleState M module heap :=
  { s with runtime := { s.runtime with adapterBindings := s.runtime.adapterBindings.map f } }

def onHeap (s : HandleState M module heap) (threadId : ℕ)
    (f : PrivateHeap → Option PrivateHeap) : Option (HandleState M module heap) := do
  let h ← s.heaps.lookup threadId
  let h ← f h
  pure { s with heaps := s.heaps.insert threadId h }

def Unused (heaps : Table ℕ PrivateHeap) (h : AdapterHandleId) : Prop :=
  ∀ threadId heap, heaps.lookup threadId = some heap → ¬ heap.Denotes h

/-- Every handle has at most one holder on all heaps together. -/
structure Single (heaps : Table ℕ PrivateHeap) : Prop where
  one : ∀ threadId h x, heaps.lookup threadId = some h → h.holders x ≤ 1
  apart : ∀ threadId threadId' h h' x, heaps.lookup threadId = some h →
    heaps.lookup threadId' = some h' → 0 < h.holders x → 0 < h'.holders x → threadId = threadId'

section Single

variable {hp : Table ℕ PrivateHeap} {ti : ℕ} {h h' : PrivateHeap} {x : AdapterHandleId}

theorem Single.insert (hs : Single hp) (hn : ∀ x, 0 < h.holders x → h.holders x ≤ 1 ∧
      ∀ tj g, hp.lookup tj = some g → 0 < g.holders x → tj = ti) :
    Single (hp.insert ti h) := by
  constructor
  · intro tj g x hl
    rw [Table.lookup_insert_eq] at hl
    split at hl
    · cases hl
      rcases Nat.eq_zero_or_pos (h.holders x) with hz | hz
      · omega
      · exact (hn x hz).1
    · exact hs.one tj g x hl
  · intro tj tk g g' x hl hl' hx hx'
    rw [Table.lookup_insert_eq] at hl hl'
    split at hl <;> split at hl'
    · omega
    · cases hl
      have := (hn x hx).2 tk g' hl' hx'
      omega
    · cases hl'
      have := (hn x hx').2 tj g hl hx
      omega
    · exact hs.apart tj tk g g' x hl hl' hx hx'

theorem Single.insert_of_le (hs : Single hp) (hl : hp.lookup ti = some h)
    (hle : ∀ x, h'.holders x ≤ h.holders x) : Single (hp.insert ti h') := by
  refine hs.insert fun x hx => ⟨(hle x).trans (hs.one ti h x hl), fun tj g hg hgx => ?_⟩
  exact hs.apart tj ti g h x hg hl hgx (hx.trans_le (hle x))

theorem Single.erase (hs : Single hp) (ti : ℕ) : Single (hp.erase ti) := by
  constructor
  · intro tj g x hl
    rw [Table.lookup_erase_eq, Option.ite_none_left_eq_some] at hl
    exact hs.one tj g x hl.2
  · intro tj tk g g' x hl hl'
    rw [Table.lookup_erase_eq, Option.ite_none_left_eq_some] at hl hl'
    exact hs.apart tj tk g g' x hl.2 hl'.2

/-- The only holder of a handle was a pending drop that has been taken. -/
theorem Single.unused_insert (hs : Single hp) (hl : hp.lookup ti = some h)
    (hx : x ∈ h.pendingAdapterHandleDrops) (ho : ∀ i, h'.objectAt i = h.objectAt i) :
    Unused (hp.insert ti h') x := by
  have hc := List.count_pos_iff.mpr hx
  have hone := hs.one ti h x hl
  unfold PrivateHeap.holders at hone
  have hno : ¬ h.Denotes x := by
    intro hd
    have := hd.slots_pos
    omega
  intro tj g hg hd
  rw [Table.lookup_insert_eq] at hg
  split at hg
  · cases hg
    exact hno (hd.imp fun i hi => (ho i).symm.trans hi)
  · next hne =>
    refine hne (hs.apart tj ti g h x hg hl hd.holders_pos ?_)
    exact Nat.add_pos_right _ hc

theorem Single.unused_erase (hs : Single hp) (hl : hp.lookup ti = some h) (hx : 0 < h.holders x) :
    Unused (hp.erase ti) x := by
  intro tj g hg hd
  rw [Table.lookup_erase_eq, Option.ite_none_left_eq_some] at hg
  exact hg.1 (hs.apart tj ti g h x hg.2 hl hd.holders_pos hx)

end Single

/-- The heap of a thread gets a holder of a handle only if no heap has one. -/
def AddsOnce (s : HandleState M module heap) (threadId : ℕ)
    (f : PrivateHeap → Option PrivateHeap) : Prop :=
  ∀ h h', s.heaps.lookup threadId = some h → f h = some h' → ∀ x, h.holders x < h'.holders x →
    h'.holders x = 1 ∧
      ∀ threadId' g, s.heaps.lookup threadId' = some g → g.holders x = 0

theorem AddsOnce.single {ti : ℕ} {f : PrivateHeap → Option PrivateHeap} (ha : s.AddsOnce ti f)
    (hs : Single s.heaps) {h h' : PrivateHeap} (hl : s.heaps.lookup ti = some h)
    (hf : f h = some h') : Single (s.heaps.insert ti h') := by
  refine hs.insert fun x hx => ?_
  rcases Nat.lt_or_ge (h.holders x) (h'.holders x) with hlt | hge
  · obtain ⟨hone, hno⟩ := ha h h' hl hf x hlt
    refine ⟨hone.le, fun tj g hg hgx => ?_⟩
    have := hno tj g hg
    omega
  · refine ⟨hge.trans (hs.one ti h x hl), fun tj g hg hgx => ?_⟩
    exact hs.apart tj ti g h x hg hl hgx (hx.trans_le hge)

/-- A registered handle is still registered or was released once, and the quota is the number
of registered handles. -/
structure Exact (s : HandleState M module heap) : Prop where
  conserved : s.bindings.Conserved
  quota : s.used = s.bindings.handles.card

/-- The handles that are released between two states are not on any heap. -/
def ReleasedUnused (s s' : HandleState M module heap) : Prop :=
  ∃ new, s'.bindings.released = s.bindings.released ++ new ∧ ∀ h ∈ new, Unused s'.heaps h

structure Sound (s : HandleState M module heap) : Prop where
  bound : s.runtime.adapterBindings = some s.bindings
  kept : s.bindings.Kept

theorem sound_initial (limits : ResourceLimitKind → ℕ) :
    (initial limits : HandleState M module heap).Sound :=
  ⟨rfl, kept_empty⟩

theorem exact_initial (limits : ResourceLimitKind → ℕ) :
    (initial limits : HandleState M module heap).Exact :=
  ⟨conserved_empty, rfl⟩

theorem bindings_of_eq (h : s.runtime.adapterBindings = some b) : s.bindings = b := by
  unfold bindings
  rw [h]
  rfl

theorem sound_of_eq (h : s.runtime.adapterBindings = some b) (hk : b.Kept) : s.Sound := by
  obtain rfl := bindings_of_eq h
  exact ⟨h, hk⟩

/-- A step that keeps to what handles and quota should be just if a condition holds, and releases
only what is not on any heap. -/
structure Steps (s s' : HandleState M module heap) (P : Prop) : Prop where
  sound : s'.Sound
  single : Single s'.heaps
  unused : ReleasedUnused s s'
  iff : s.Exact → (s'.Exact ↔ P)

theorem steps_of_released (hb : s'.runtime.adapterBindings = some b) (hk : b.Kept)
    (hsg : Single s'.heaps) (hr : b.released = s.bindings.released)
    (hec : s.Exact → b.Conserved ∧ s'.used = b.handles.card) : Steps s s' True := by
  obtain rfl := bindings_of_eq hb
  refine ⟨⟨hb, hk⟩, hsg, ⟨[], ?_, nofun⟩, fun hs => iff_of_true ?_ trivial⟩
  · rw [hr, List.append_nil]
  · exact ⟨(hec hs).1, (hec hs).2⟩

theorem steps_of_same (hs : s.Sound) (hsg : Single s'.heaps)
    (hb : s'.runtime.adapterBindings = some b) (hsm : Same s.bindings b)
    (hu : s'.used = s.used) : Steps s s' True := by
  refine steps_of_released hb (hs.kept.of_same hsm) hsg hsm.released fun h => ?_
  exact ⟨h.conserved.of_same hsm, by rw [hu, hsm.handles, h.quota]⟩

theorem steps_of_heaps (hs : s.Sound) {h : Table ℕ PrivateHeap} (hsg : Single h) :
    Steps s { s with heaps := h } True :=
  steps_of_same hs hsg hs.bound (.refl _) rfl

theorem Sound.onBindings (hs : s.Sound) (f : AdapterBindings M → AdapterBindings M) :
    (s.onBindings f).runtime.adapterBindings = some (f s.bindings) := by
  unfold HandleState.onBindings
  rw [hs.bound]
  rfl

theorem steps_onBindings (hs : s.Sound) (hsg : Single s.heaps)
    {f : AdapterBindings M → AdapterBindings M} (hf : Same s.bindings (f s.bindings)) :
    Steps s (s.onBindings f) True :=
  steps_of_same hs hsg (hs.onBindings f) hf rfl

theorem steps_of_settle {st : Bool} {hd : List AdapterHandleId} (hs : s.Sound)
    (hb : s'.runtime.adapterBindings = some (settle st hd s.bindings s.used).1)
    (hu : s'.used = (settle st hd s.bindings s.used).2)
    (hl : s.Exact → st = true ∨ hd.length ≤ s.used)
    (hsg : Single s'.heaps ∧ ∀ x ∈ hd, Unused s'.heaps x) :
    Steps s s' (KeepsAll hd s.bindings) := by
  have hk := (settle_induction st hd (Q := fun _ => True) (fun _ _ _ _ _ _ _ => trivial)
    s.used hs.kept trivial).1
  obtain ⟨n, hn, hm⟩ := settle_released st hd s.used hs.kept
  refine ⟨sound_of_eq hb hk, hsg.1,
    ⟨n, by rw [bindings_of_eq hb, hn], fun x hx => hsg.2 x (hm x hx)⟩, fun h => ?_⟩
  rw [← settle_keeps_iff hs.kept h.conserved h.quota (hl h), ← hu, ← bindings_of_eq hb]
  exact ⟨fun h => ⟨h.conserved, h.quota⟩, fun h => ⟨h.1, h.2⟩⟩

end HandleState

namespace HandleOperation

open HandleState Orchestrator

variable {M : Type} [AdapterModuleBinding M] {module : BytecodeModule} {heap : PrivateHeap}
  {s s' : HandleState M module heap}

section

variable (op : HandleOperation M) (s : HandleState M module heap)

def run : Option (HandleState M module heap) :=
  match op with
  | registerModule p adapter => some (s.onBindings fun b => (b.registerModule p adapter).2)
  | takeModule p => some (s.onBindings fun b => (b.takeModule p).2)
  | restoreModule p adapter => some (s.onBindings fun b => (b.restoreModule p adapter).2)
  | registerAdapterHandles p value =>
    s.after (Orchestrator.registerAdapterHandles p value) fun _ => s.heaps
  | newThread threadId => some { s with heaps := s.heaps.insert threadId heap }
  | encode threadId value expected moduleId =>
    s.onHeap threadId fun h => some (h.encodeResult module value expected moduleId).2
  | deepCopy threadId vm order ords v =>
    s.onHeap threadId fun h => (vm.deepCopyValue order ords v h).map Prod.snd
  | heapOperation threadId op => s.onHeap threadId op.apply
  | dropThread threadId => some { s with heaps := s.heaps.erase threadId }
  | flushDrops threadId => do
    let h ← s.heaps.lookup threadId
    s.after (flushThreadHandleDrops h : Orchestration (adapterHost M module heap) PrivateHeap)
      fun h => s.heaps.insert threadId h
  | dropLast threadId => do
    let h ← s.heaps.lookup threadId
    let last ← h.pendingAdapterHandleDrops.getLast?
    s.after (releaseAdapterHandle last) fun _ => s.heaps.insert threadId
      { h with pendingAdapterHandleDrops := h.pendingAdapterHandleDrops.dropLast }
  | teardown threadId => do
    let h ← s.heaps.lookup threadId
    s.after (teardownThreadHandles h : Orchestration (adapterHost M module heap) PrivateHeap)
      fun _ => s.heaps.erase threadId
  | closeBindings => s.after closeAdapterBindings fun _ => s.heaps

/-- The handles that an operation releases, and the heaps it leaves. -/
def releases : Option (List AdapterHandleId × Table ℕ PrivateHeap) :=
  match op with
  | flushDrops threadId => (s.heaps.lookup threadId).map fun h =>
    (h.takeHandleDrops.1, s.heaps.insert threadId h.takeHandleDrops.2)
  | dropLast threadId => do
    let h ← s.heaps.lookup threadId
    let last ← h.pendingAdapterHandleDrops.getLast?
    pure ([last], s.heaps.insert threadId
      { h with pendingAdapterHandleDrops := h.pendingAdapterHandleDrops.dropLast })
  | teardown threadId => (s.heaps.lookup threadId).map fun h =>
    (h.extractAllAdapterHandles.1, s.heaps.erase threadId)
  | closeBindings => some (s.bindings.activeHandles, s.heaps)
  | _ => none

/-- Every handle that is released and registered has its adapter in the table, whose callback
succeeds. -/
def Keeps : Prop :=
  ∀ handles heaps, op.releases s = some (handles, heaps) → KeepsAll handles s.bindings

/-- No second object of a handle is put on a heap, and the bindings are closed when no heap has a
handle any more. -/
def Careful : Prop :=
  match op with
  | newThread _ => ∀ x, heap.holders x = 0
  | encode threadId value expected moduleId =>
    s.AddsOnce threadId fun h => some (h.encodeResult module value expected moduleId).2
  | deepCopy threadId vm order ords v =>
    s.AddsOnce threadId fun h => (vm.deepCopyValue order ords v h).map Prod.snd
  | heapOperation threadId (.alloc ord obj) => s.AddsOnce threadId (HeapOp.apply · (.alloc ord obj))
  | heapOperation threadId (.store r obj) => s.AddsOnce threadId (HeapOp.apply · (.store r obj))
  | closeBindings => ∀ threadId h, s.heaps.lookup threadId = some h → ∀ x, h.holders x = 0
  | _ => True

end

theorem keeps_of_releases {op : HandleOperation M} {hs : List AdapterHandleId}
    {hp : Table ℕ PrivateHeap} (h : op.releases s = some (hs, hp)) :
    op.Keeps s ↔ KeepsAll hs s.bindings := by
  constructor
  · intro hk
    exact hk hs hp h
  · rintro hk ha' hep' h'
    cases h.symm.trans h'
    exact hk

theorem keeps_of_none {op : HandleOperation M} (h : op.releases s = none) : op.Keeps s := by
  intro hn hp hs
  rw [h] at hs
  cases hs

section Releases

variable {r : Orchestrator (adapterHost M module heap)} {b : AdapterBindings M}

variable (hb : r.adapterBindings = some b)
include hb

theorem run_releaseAdapterHandle (h : AdapterHandleId) :
    ∃ rs r', releaseAdapterHandle h r = some (.ok rs, r') ∧
      r'.adapterBindings = some (b.releaseHandle h).2 ∧
      ((b.releaseHandle h).1 = none ∧ rs = .ok () ∧
          r'.kernel.quota.used .externalHandles = r.kernel.quota.used .externalHandles ∨
        (∃ e, (b.releaseHandle h).1 = some e ∧ (rs = .ok () ↔ e = .ok ())) ∧
          r'.kernel.quota.used .externalHandles = r.kernel.quota.used .externalHandles - 1) := by
  rw [releaseAdapterHandle_apply, hb]
  dsimp only [adapterHost]
  unfold releaseOrReport
  rcases b.releaseHandle h with ⟨_ | _ | _, b'⟩
  · exact ⟨_, _, rfl, rfl, .inl ⟨rfl, rfl, rfl⟩⟩
  · exact ⟨_, _, rfl, rfl, .inr ⟨⟨_, rfl, iff_of_false nofun nofun⟩, rfl⟩⟩
  · exact ⟨_, _, rfl, rfl, .inr ⟨⟨_, rfl, iff_of_true rfl rfl⟩, rfl⟩⟩

/-- Bindings and quota are those after the releases. -/
def Settled (stop : Bool) (hs : List AdapterHandleId) (b : AdapterBindings M)
    (r r' : Orchestrator (adapterHost M module heap)) : Prop :=
  r'.adapterBindings = some (settle stop hs b (r.kernel.quota.used .externalHandles)).1 ∧
    r'.kernel.quota.used .externalHandles =
      (settle stop hs b (r.kernel.quota.used .externalHandles)).2

/-- After the first release the others are made, but not if it fails and ends them. -/
theorem run_release_cons (h : AdapterHandleId) :
    ∃ res r₁ b₁, releaseAdapterHandle h r = some (.ok res, r₁) ∧ r₁.adapterBindings = some b₁ ∧
      ∀ stop rest r', Settled stop (if stop && !res.isOk then [] else rest) b₁ r₁ r' →
        Settled stop (h :: rest) b r r' := by
  obtain ⟨res, r₁, hrn, hb₁, hc⟩ := run_releaseAdapterHandle hb h
  refine ⟨res, r₁, _, hrn, hb₁, fun stop rest r' hr' => ?_⟩
  unfold Settled at hr' ⊢
  rw [AdapterBindings.settle]
  rcases ho : b.releaseHandle h with ⟨out, b₁⟩
  rw [ho] at hr' hc
  rcases hc with ⟨rfl, rfl, hu⟩ | ⟨⟨e, rfl, hr⟩, hu⟩
  · rw [hu] at hr'
    simpa [Except.isOk, Except.toBool] using hr'
  · rw [hu] at hr'
    rcases e with e | ⟨⟩
    · rcases res with res | ⟨⟩
      · cases stop <;> exact hr'
      · cases hr.mp rfl
    · obtain rfl := hr.mpr rfl
      simpa [Except.isOk, Except.toBool] using hr'

theorem run_releaseAdapterHandles (hs : List AdapterHandleId) :
    ∃ rs r', releaseAdapterHandles hs r = some (.ok rs, r') ∧ Settled true hs b r r' := by
  induction hs generalizing r b with
  | nil => exact ⟨_, r, rfl, hb, rfl⟩
  | cons h rt ih =>
    obtain ⟨rs, r₁, b₁, hr, hb₁, hst⟩ := run_release_cons hb h
    rw [releaseAdapterHandles, Exec.bind_apply, hr]
    rcases rs with e | ⟨⟩
    · exact ⟨_, r₁, rfl, hst true rt r₁ ⟨hb₁, rfl⟩⟩
    · obtain ⟨rs, r', hr, hr'⟩ := ih hb₁
      exact ⟨rs, r', hr, hst true rt r' hr'⟩

theorem run_releaseOrFail (hs : List AdapterHandleId) :
    ∃ r', releaseOrFail hs r = some (.ok (), r') ∧ Settled true hs b r r' := by
  obtain ⟨rs, r₁, hr, hb₁, hu⟩ := run_releaseAdapterHandles hb hs
  rw [releaseOrFail, Exec.bind_apply, hr]
  rcases rs with e | ⟨⟩
  · exact ⟨_, rfl, hb₁, hu⟩
  · exact ⟨_, rfl, hb₁, hu⟩

theorem run_closeHandles (hs : List AdapterHandleId) (rp : CloseReport) :
    ∃ rp' r', closeHandles hs rp r = some (.ok rp', r') ∧ Settled false hs b r r' := by
  induction hs generalizing r b rp with
  | nil => exact ⟨_, r, rfl, hb, rfl⟩
  | cons h rs ih =>
    obtain ⟨re, r₁, b₁, hr, hb₁, hst⟩ := run_release_cons hb h
    rw [closeHandles, Exec.bind_apply, hr]
    rcases re with e | ⟨⟩ <;>
    · obtain ⟨rp', r', hr, hr'⟩ := ih hb₁ _
      exact ⟨rp', r', hr, hst false rs r' hr'⟩

theorem run_closeAdapterBindings : ∃ rp r', closeAdapterBindings r = some (.ok rp, r') ∧
      Settled false b.activeHandles b r r' := by
  rw [closeAdapterBindings, Exec.bind_apply]
  dsimp only [Exec.get_apply, bind_some]
  rw [hb]
  exact run_closeHandles hb _ _

/-- A registration that does not succeed leaves bindings and quota as they are, and one that
does counts the handles it registers. -/
theorem run_registerAdapterHandles (p : String) (v : SurfaceValue) :
    ∃ rs r' b', Orchestrator.registerAdapterHandles p v r = some (.ok rs, r') ∧
      r'.adapterBindings = some b' ∧
      (Same b b' ∧ r'.kernel.quota.used .externalHandles = r.kernel.quota.used .externalHandles ∨
        ∃ bi hs, b.registerHandles bi hs = (.ok (), b') ∧ r'.kernel.quota.used .externalHandles =
            r.kernel.quota.used .externalHandles + hs.length) := by
  unfold Orchestrator.registerAdapterHandles
  split
  · exact ⟨_, r, b, rfl, hb, .inl ⟨.refl b, rfl⟩⟩
  · rcases VirtualKernel.reserve_cases r.kernel .externalHandles
      ((adapterHost M module heap).collectAdapterHandles v).length with ⟨e, hrs⟩ | hrs
    · rw [kernelCall_bind hrs]
      exact ⟨_, r, b, rfl, hb, .inl ⟨.refl b, rfl⟩⟩
    · rw [kernelCall_bind hrs]
      dsimp only
      rw [Exec.bind_apply]
      dsimp only [Exec.get_apply, bind_some]
      rw [hb]
      dsimp only [adapterHost]
      cases hid : b.bindingId p with
      | none =>
        exact ⟨_, _, b, rfl, rfl, .inl ⟨.refl b, GlobalQuota.used_release_setUsed _ _ _⟩⟩
      | some bi =>
        dsimp only
        unfold registerOrFail
        rcases hrg : b.registerHandles bi v.collectAdapterHandles with ⟨e | ⟨⟩, b'⟩
        · exact ⟨_, _, b', rfl, rfl,
            .inl ⟨same_registerHandles hrg, GlobalQuota.used_release_setUsed _ _ _⟩⟩
        · exact ⟨_, _, b', rfl, rfl, .inr ⟨bi, _, hrg, GlobalQuota.used_setUsed _ _ _⟩⟩

end Releases

theorem step_onHeap (hs : s.Sound) (hsg : Single s.heaps) {ti : ℕ}
    {f : PrivateHeap → Option PrivateHeap} (ha : s.AddsOnce ti f)
    (hr : s.onHeap ti f = some s') : Steps s s' True := by
  obtain ⟨h, hl, hr⟩ := Option.bind_eq_some_iff.mp hr
  obtain ⟨h', hf, hr⟩ := Option.bind_eq_some_iff.mp hr
  cases hr
  exact steps_of_heaps hs (ha.single hsg hl hf)

theorem Careful.heapOperation {ti : ℕ} {op : HeapOp}
    (hc : Careful (.heapOperation ti op : HandleOperation M) s) :
    s.AddsOnce ti (HeapOp.apply · op) := by
  cases op with
  | alloc | store => exact hc
  | count op => exact fun h h' _ hr x hlt => absurd ((op.freesTo hr).holders_le x) hlt.not_ge

theorem holders_pos_of_extract {h : PrivateHeap} {x : AdapterHandleId}
    (hx : x ∈ h.extractAllAdapterHandles.1) : 0 < h.holders x := by
  rcases List.mem_append.mp hx with hx | hx
  · exact Nat.add_pos_right _ (List.count_pos_iff.mpr hx)
  · obtain ⟨⟨y, r⟩, hm, rfl⟩ := List.mem_map.mp hx
    obtain ⟨⟨t, i⟩, hz, hs⟩ := List.mem_filterMap.mp hm
    obtain ⟨y, hy, ⟨⟩⟩ := Option.map_eq_some_iff.mp hs
    obtain ⟨o, ho, hy⟩ := Option.bind_eq_some_iff.mp hy
    have hi : h.objectAt i = t.object :=
      PrivateHeap.objectAt_eq (List.mem_zipIdx_iff_getElem?.mp hz)
    refine PrivateHeap.Denotes.holders_pos ⟨i, hi.trans (ho.trans ?_)⟩
    cases o <;> cases hy
    rfl

/-- What a careful operation releases had no holder but the one that is gone. -/
theorem single_of_releases {op : HandleOperation M} (hc : op.Careful s) (hs : Single s.heaps)
    {hn : List AdapterHandleId} {hp : Table ℕ PrivateHeap} (h : op.releases s = some (hn, hp)) :
    Single hp ∧ ∀ x ∈ hn, Unused hp x := by
  cases op with
  | flushDrops ti =>
    obtain ⟨u, hl, ⟨⟩⟩ := Option.map_eq_some_iff.mp h
    refine ⟨hs.insert_of_le hl fun x => Nat.add_le_add_left ?_ _, fun x hx => ?_⟩
    · exact (List.count_nil (a := x)).le.trans (Nat.zero_le _)
    · exact hs.unused_insert hl hx fun _ => rfl
  | dropLast ti =>
    obtain ⟨u, hl, h⟩ := Option.bind_eq_some_iff.mp h
    obtain ⟨l, hls, ⟨⟩⟩ := Option.bind_eq_some_iff.mp h
    refine ⟨hs.insert_of_le hl fun x => Nat.add_le_add_left ?_ _, fun x hx => ?_⟩
    · exact (List.dropLast_sublist _).count_le x
    · obtain rfl := List.mem_singleton.mp hx
      exact hs.unused_insert hl (List.mem_of_getLast? hls) fun _ => rfl
  | teardown ti =>
    obtain ⟨u, hl, ⟨⟩⟩ := Option.map_eq_some_iff.mp h
    exact ⟨hs.erase ti, fun x hx => hs.unused_erase hl (holders_pos_of_extract hx)⟩
  | closeBindings =>
    cases h
    exact ⟨hs, fun x _ ti g hg hd => hd.holders_pos.ne' (hc ti g hg x)⟩
  | _ => cases h

/-- An operation that releases handles runs, and leaves bindings and quota as they are after the
releases. -/
theorem run_of_releases {op : HandleOperation M} (hs : s.Sound) {hn : List AdapterHandleId}
    {hp : Table ℕ PrivateHeap} (h : op.releases s = some (hn, hp)) :
    ∃ st r, op.run s = some ⟨r, hp⟩ ∧ Settled st hn s.bindings s.runtime r ∧
      (s.Exact → st = true ∨ hn.length ≤ s.used) := by
  cases op with
  | flushDrops ti =>
    obtain ⟨u, hlk, ⟨⟩⟩ := Option.map_eq_some_iff.mp h
    obtain ⟨r, hrl, hst⟩ := run_releaseOrFail hs.bound u.takeHandleDrops.1
    refine ⟨true, r, ?_, hst, fun _ => .inl rfl⟩
    rw [run, hlk, bind_eq_bind, bind_some, after, flushThreadHandleDrops_apply hrl]
    rfl
  | dropLast ti =>
    obtain ⟨u, hlk, h⟩ := Option.bind_eq_some_iff.mp h
    obtain ⟨l, hls, ⟨⟩⟩ := Option.bind_eq_some_iff.mp h
    obtain ⟨rs, r, b, hrl, hb, hst⟩ := run_release_cons hs.bound l
    refine ⟨true, r, ?_, hst true [] r (by rw [ite_self]; exact ⟨hb, rfl⟩), fun _ => .inl rfl⟩
    rw [run, hlk, bind_eq_bind, bind_some, hls, bind_eq_bind, bind_some, after, hrl]
    rfl
  | teardown ti =>
    obtain ⟨u, hlk, ⟨⟩⟩ := Option.map_eq_some_iff.mp h
    obtain ⟨r, hrl, hst⟩ := run_releaseOrFail hs.bound u.extractAllAdapterHandles.1
    refine ⟨true, r, ?_, hst, fun _ => .inl rfl⟩
    rw [run, hlk, bind_eq_bind, bind_some, after, teardownThreadHandles_apply hrl]
    rfl
  | closeBindings =>
    cases h
    obtain ⟨rp, r, hcl, hst⟩ := run_closeAdapterBindings hs.bound
    refine ⟨false, r, ?_, hst, fun h => .inr ?_⟩
    · rw [run, after, hcl]
      rfl
    · rw [h.quota, activeHandles, Finset.length_sort]
  | _ => cases h

/-- An operation that runs keeps to what handles and quota should be just if its condition
holds. -/
theorem step (op : HandleOperation M) (hs : s.Sound) (hsg : Single s.heaps) (hc : op.Careful s)
    (hrn : op.run s = some s') : Steps s s' (op.Keeps s) := by
  rcases hrl : op.releases s with _ | ⟨hn, hp⟩
  swap
  · obtain ⟨st, r, hrn', ⟨hb, hus⟩, hln⟩ := run_of_releases hs hrl
    cases hrn'.symm.trans hrn
    rw [keeps_of_releases hrl]
    exact steps_of_settle hs hb hus hln (single_of_releases hc hsg hrl)
  rw [iff_true_intro (keeps_of_none hrl)]
  cases op with
  | registerModule p a =>
    cases hrn
    obtain ⟨hhn, -, hre⟩ := frame_registerModule s.bindings p a
    refine steps_of_released (hs.onBindings _) (hs.kept.registerModule p a) hsg hre fun h => ?_
    exact ⟨h.conserved.registerModule p a, by rw [hhn]; exact h.quota⟩
  | takeModule p =>
    cases hrn
    exact steps_onBindings hs hsg (same_takeModule _ _)
  | restoreModule p a =>
    cases hrn
    exact steps_onBindings hs hsg (same_restoreModule _ _ _)
  | registerAdapterHandles p v =>
    obtain ⟨rs, r', b', hrg, hb', hcs⟩ := run_registerAdapterHandles hs.bound p v
    rw [run, after, hrg] at hrn
    cases hrn
    rcases hcs with ⟨hsm, hus⟩ | ⟨bi, hn, hrg, hus⟩
    · exact steps_of_same hs hsg hb' hsm hus
    · obtain ⟨hkp, -, -, -, -, hre⟩ := hs.kept.registerHandles hrg
      refine steps_of_released hb' hkp hsg hre fun h => ?_
      obtain ⟨hc, hcr⟩ := h.conserved.registerHandles hs.kept hrg
      exact ⟨hc, hus.trans (by rw [hcr]; exact congrArg (· + _) h.quota)⟩
  | newThread =>
    cases hrn
    exact steps_of_heaps hs (hsg.insert fun x hx => absurd (hc x) hx.ne')
  | dropThread ti =>
    cases hrn
    exact steps_of_heaps hs (hsg.erase ti)
  | encode | deepCopy => exact step_onHeap hs hsg hc hrn
  | heapOperation => exact step_onHeap hs hsg hc.heapOperation hrn
  | flushDrops | teardown =>
    obtain ⟨h, hlk, -⟩ := Option.bind_eq_some_iff.mp hrn
    rw [releases, hlk] at hrl
    cases hrl
  | dropLast =>
    obtain ⟨h, hlk, hrn⟩ := Option.bind_eq_some_iff.mp hrn
    obtain ⟨l, hls, -⟩ := Option.bind_eq_some_iff.mp hrn
    rw [releases, hlk, bind_eq_bind, bind_some, hls] at hrl
    cases hrl
  | closeBindings => cases hrl

/-- Runs of careful operations. -/
inductive Run : HandleState M module heap → List (HandleOperation M) →
    HandleState M module heap → Prop
  | nil (s : HandleState M module heap) : Run s [] s
  | snoc {s s₁ s₂ : HandleState M module heap} {ops : List (HandleOperation M)}
      {op : HandleOperation M} (h : Run s ops s₁) (hc : op.Careful s₁) (hop : op.run s₁ = some s₂) :
      Run s (ops ++ [op]) s₂

theorem Run.sound {o : List (HandleOperation M)} (h : Run s o s') (hs : s.Sound)
    (hsg : Single s.heaps) : s'.Sound ∧ Single s'.heaps := by
  induction h with
  | nil => exact ⟨hs, hsg⟩
  | snoc _ hc hop ih =>
    have hst := step _ ih.1 ih.2 hc hop
    exact ⟨hst.sound, hst.single⟩

theorem keeps_of_run_eq_none {op : HandleOperation M} (hs : s.Sound) (hr : op.run s = none) :
    op.Keeps s := by
  intro h hp hrl
  obtain ⟨_, _, hr', -⟩ := run_of_releases hs hrl
  cases hr.symm.trans hr'

/-- An adapter whose releases fail while it is busy. -/
structure BusyAdapter where
  busy : Bool

instance : AdapterModuleBinding BusyAdapter where
  releaseHandle adapter _ _ :=
    (if adapter.busy then .error ⟨"io", "busy"⟩ else .ok .released, adapter)

def file : SurfaceHandle := ⟨⟨"other", "File"⟩, 1⟩

def fileHandle : AdapterHandleId := ⟨0, ⟨"other", "File"⟩, 1⟩

def registerFile (adapter : BusyAdapter) : List (HandleOperation BusyAdapter) :=
  [.registerModule "other.gfp" adapter, .registerAdapterHandles "other.gfp" (.handle file)]

/-- A thread gets a file, copies it and drops the file it got. -/
def copyAndDrop : List (HandleOperation BusyAdapter) :=
  [.newThread 1, .encode 1 (.surface (.handle "File") (.handle file) (some 0)) 1 0,
    .deepCopy 1 .bare .byIndex (fun _ => .ascending) (.object ⟨0, 1⟩),
    .heapOperation 1 (.count (.releaseAnchor ⟨0, 1⟩)), .flushDrops 1]

def outcome (ops : List (HandleOperation BusyAdapter)) :
    Option (ℕ × List AdapterHandleId × List AdapterHandleId × Option HeapObject) :=
  (ops.foldlM (fun s (op : HandleOperation BusyAdapter) => op.run s)
    (initial (fun _ => 9) : HandleState BusyAdapter filesModule filesHeap)).map fun s =>
      (s.used, s.bindings.activeHandles, s.bindings.released,
        (s.heaps.lookup 1).bind (·.objectAt 1))

end HandleOperation

end Galfus
