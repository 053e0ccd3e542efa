import Galfus.Adapter.Surface
import Galfus.Runtime.Ids
import Mathlib.Data.Finset.Sort
import Mathlib.Data.Prod.Lex
import Mathlib.Data.String.Basic

/-! # Adapter bindings

The adapters of an execution by their proxy modules, and the foreign handles that are
registered with them. An adapter is taken out of the table while one of its callbacks runs. The
logs of what was registered and released are not part of the source.
-/

namespace Galfus

inductive HandleReleaseOutcome where
  | released
  | alreadyReleased
  deriving DecidableEq, Repr

structure AdapterReleaseError where
  code : String
  message : String
  deriving DecidableEq, Repr

/-- The callback of an adapter that releases a handle. -/
class AdapterModuleBinding (M : Type) where
  releaseHandle : M → OpaqueTypeId → ℕ → Except AdapterReleaseError HandleReleaseOutcome × M

/-- The adapter is missing while one of its callbacks runs. -/
structure AdapterBinding (M : Type) where
  id : ℕ
  nextHandleId : Option ℕ
  module : Option M
  deriving DecidableEq

structure AdapterBindings (M : Type) where
  modules : Table String (AdapterBinding M)
  handles : Finset AdapterHandleId
  bindingIds : IdManager
  /-- The handles that were registered, and those that a callback released. -/
  registered : List AdapterHandleId
  released : List AdapterHandleId

inductive AdapterBindingReleaseError where
  | adapterReleaseFailed (handle : AdapterHandleId) (error : AdapterReleaseError)
  deriving DecidableEq, Repr

inductive AdapterBindingError where
  | duplicateProxyModule (proxyModule : String)
  | idSpaceExhausted (domain : String)
  | invalidHandle
  | compensationReleaseFailed (error : AdapterBindingReleaseError)
  deriving DecidableEq, Repr

instance : LinearOrder AdapterHandleId :=
  LinearOrder.lift' (fun h : AdapterHandleId =>
      toLex (h.bindingId, toLex (h.typeId.proxyModule, toLex (h.typeId.name, h.id))))
    (by
      rintro ⟨b, ⟨p, n⟩, i⟩ ⟨b', ⟨p', n'⟩, i'⟩ h
      simp only [EmbeddingLike.apply_eq_iff_eq, Prod.mk.injEq] at h
      obtain ⟨rfl, rfl, rfl, rfl⟩ := h
      rfl)

def bound (bindingId : ℕ) (x : OpaqueTypeId × ℕ) : AdapterHandleId := ⟨bindingId, x.1, x.2⟩

namespace AdapterBindings

variable {M : Type}

def empty : AdapterBindings M := ⟨∅, ∅, .new 0, [], []⟩

def registerModule (b : AdapterBindings M) (proxyModule : String) (module : M) :
    Except AdapterBindingError ℕ × AdapterBindings M :=
  if (b.modules.lookup proxyModule).isSome then (.error (.duplicateProxyModule proxyModule), b)
  else
    match b.bindingIds.tryAllocate with
    | none => (.error (.idSpaceExhausted "BindingId"), b)
    | some (id, bindingIds) =>
      (.ok id, { b with
        bindingIds := bindingIds
        modules := b.modules.insert proxyModule ⟨id, some 1, some module⟩ })

def takeModule (b : AdapterBindings M) (proxyModule : String) : Option M × AdapterBindings M :=
  match b.modules.lookup proxyModule with
  | none => (none, b)
  | some binding =>
    (binding.module, { b with
      modules := b.modules.insert proxyModule { binding with module := none } })

def restoreModule (b : AdapterBindings M) (proxyModule : String) (module : M) :
    Except AdapterBindingError Unit × AdapterBindings M :=
  match b.modules.lookup proxyModule with
  | none => (.error .invalidHandle, b)
  | some binding =>
    if binding.module.isSome then (.error (.duplicateProxyModule proxyModule), b)
    else
      (.ok (), { b with
        modules := b.modules.insert proxyModule { binding with module := some module } })

def bindingId (b : AdapterBindings M) (proxyModule : String) : Option ℕ :=
  (b.modules.lookup proxyModule).map fun binding => binding.id

def proxyModuleFor (b : AdapterBindings M) (bindingId : ℕ) : Option String :=
  b.modules.keys.find? fun proxyModule => decide (b.bindingId proxyModule = some bindingId)

/-- The loop of `register_handles`: the next id, the handles that were fine, and whether one
was not or the ids were used up. -/
structure Batch where
  next : Option ℕ
  accepted : List (OpaqueTypeId × ℕ)
  invalid : Bool
  exhausted : Bool

def checkHandle (b : AdapterBindings M) (bindingId : ℕ) (proxyModule : String) (batch : Batch)
    (x : OpaqueTypeId × ℕ) : Batch :=
  match batch.next with
  | none => { batch with exhausted := true }
  | some expected =>
    if x.1.belongsTo proxyModule = false ∨ x.2 ≠ expected ∨ bound bindingId x ∈ b.handles then
      { batch with invalid := true }
    else
      { batch with
        accepted := batch.accepted ++ [x]
        next := if x.2 < u32Max then some (x.2 + 1) else none }

section Release

variable [AdapterModuleBinding M]

/-- Release the handles of a batch that is rejected, up to the first error. -/
def compensate (bindingId : ℕ) : List (OpaqueTypeId × ℕ) → M → Except AdapterBindingError Unit × M
  | [], module => (.ok (), module)
  | (typeId, id) :: rest, module =>
    match AdapterModuleBinding.releaseHandle module typeId id with
    | (.ok _, module) => compensate bindingId rest module
    | (.error e, module) =>
      (.error (.compensationReleaseFailed (.adapterReleaseFailed ⟨bindingId, typeId, id⟩ e)),
        module)

def rejectBatch (b : AdapterBindings M) (proxyModule : String) (binding : AdapterBinding M)
    (batch : Batch) : Except AdapterBindingError Unit × AdapterBindings M :=
  let error : AdapterBindingError :=
    if batch.exhausted then .idSpaceExhausted "HandleId" else .invalidHandle
  match batch.accepted, binding.module with
  | [], _ => (.error error, b)
  | _ :: _, none => (.error .invalidHandle, b)
  | accepted, some module =>
    let (result, module) := compensate binding.id accepted module
    let b := { b with
      modules := b.modules.insert proxyModule { binding with module := some module } }
    match result with
    | .ok () => (.error error, b)
    | .error e => (.error e, b)

def registerHandles (b : AdapterBindings M) (bindingId : ℕ) (handles : List (OpaqueTypeId × ℕ)) :
    Except AdapterBindingError Unit × AdapterBindings M :=
  match b.proxyModuleFor bindingId with
  | none => (.error .invalidHandle, b)
  | some proxyModule =>
    match b.modules.lookup proxyModule with
    | none => (.error .invalidHandle, b)
    | some binding =>
      let batch := handles.foldl (b.checkHandle bindingId proxyModule)
        ⟨binding.nextHandleId, [], false, false⟩
      if batch.exhausted || batch.invalid then b.rejectBatch proxyModule binding batch
      else
        (.ok (), { b with
          modules := b.modules.insert proxyModule { binding with nextHandleId := batch.next }
          handles := b.handles ∪ (handles.map (bound bindingId)).toFinset
          registered := b.registered ++ handles.map (bound bindingId) })

def activeHandles (b : AdapterBindings M) : List AdapterHandleId := b.handles.sort (· ≤ ·)

/-- `take_handle_for_release`: the proxy module of a handle that was registered. -/
def takeHandleForRelease (b : AdapterBindings M) (handle : AdapterHandleId) :
    Option String × AdapterBindings M :=
  match b.proxyModuleFor handle.bindingId with
  | none => (none, b)
  | some proxyModule =>
    if handle ∈ b.handles then (some proxyModule, { b with handles := b.handles.erase handle })
    else (none, b)

def restoreHandleAfterFailedRelease (b : AdapterBindings M) (handle : AdapterHandleId) :
    AdapterBindings M :=
  { b with handles := insert handle b.handles }

/-- What `release_adapter_handle` does with the bindings. Without its adapter a handle counts
as released. -/
def releaseHandle (b : AdapterBindings M) (handle : AdapterHandleId) :
    Option (Except AdapterBindingReleaseError Unit) × AdapterBindings M :=
  match b.takeHandleForRelease handle with
  | (none, b) => (none, b)
  | (some proxyModule, b) =>
    match b.takeModule proxyModule with
    | (none, b) => (some (.ok ()), b)
    | (some module, b) =>
      match AdapterModuleBinding.releaseHandle module handle.typeId handle.id with
      | (.ok _, module) =>
        (some (.ok ()), { (b.restoreModule proxyModule module).2 with
          released := b.released ++ [handle] })
      | (.error e, module) =>
        (some (.error (.adapterReleaseFailed handle e)),
          (b.restoreModule proxyModule module).2.restoreHandleAfterFailedRelease handle)

end Release

section Sound

variable {b b' : AdapterBindings M} {p p' : String} {n : ℕ}

/-- Binding ids are not shared, and a registered handle has the type of its proxy module and an id
that was given out. -/
structure Sound (b : AdapterBindings M) : Prop where
  bindingIds : b.bindingIds.Sound
  active : ∀ {p binding}, b.modules.lookup p = some binding → binding.id ∈ b.bindingIds.activeIds
  injective : ∀ {p p' n}, b.bindingId p = some n → b.bindingId p' = some n → p = p'
  owner : ∀ h ∈ b.handles, ∃ p binding, b.modules.lookup p = some binding ∧
    binding.id = h.bindingId ∧ h.typeId.belongsTo p = true

theorem sound_empty : (empty : AdapterBindings M).Sound where
  bindingIds := IdManager.sound_new 0
  active := nofun
  injective := nofun
  owner := nofun

theorem bindingId_of_proxyModuleFor (h : b.proxyModuleFor n = some p) : b.bindingId p = some n := by
  have hf := List.find?_some h
  exact of_decide_eq_true hf

theorem Sound.proxyModuleFor_iff (h : b.Sound) :
    b.proxyModuleFor n = some p ↔ b.bindingId p = some n := by
  constructor
  · intro hf
    exact bindingId_of_proxyModuleFor hf
  · intro hid
    have hm : p ∈ b.modules.keys := by
      obtain ⟨bn, hb, _⟩ := Option.map_eq_some_iff.mp hid
      exact Table.mem_keys_iff.mpr ⟨bn, hb⟩
    cases hf : b.proxyModuleFor n with
    | none => exact absurd (decide_eq_true hid) (List.find?_eq_none.mp hf p hm)
    | some q => rw [h.injective hid (bindingId_of_proxyModuleFor hf)]

/-- The bindings have the same ids, and what is registered is the same. -/
structure Alike (b b' : AdapterBindings M) : Prop where
  bindingIds : b'.bindingIds = b.bindingIds
  bindingId : ∀ p, b'.bindingId p = b.bindingId p
  nextHandleId : ∀ p, (b'.modules.lookup p).bind (·.nextHandleId) =
    (b.modules.lookup p).bind (·.nextHandleId)

theorem Alike.refl (b : AdapterBindings M) : Alike b b := ⟨rfl, fun _ => rfl, fun _ => rfl⟩

theorem Alike.trans {b'' : AdapterBindings M} (h : Alike b b') (h' : Alike b' b'') : Alike b b'' :=
  ⟨h'.bindingIds.trans h.bindingIds, fun p => (h'.bindingId p).trans (h.bindingId p),
    fun p => (h'.nextHandleId p).trans (h.nextHandleId p)⟩

theorem bindingId_eq_some : b.bindingId p = some n ↔
    ∃ bn, b.modules.lookup p = some bn ∧ bn.id = n :=
  Option.map_eq_some_iff

theorem Sound.of_alike (h : b.Sound) (ha : Alike b b') (hh : b'.handles ⊆ b.handles) :
    b'.Sound where
  bindingIds := ha.bindingIds ▸ h.bindingIds
  active := by
    intro p bn hl
    have hid : b.bindingId p = some bn.id :=
      (ha.bindingId p).symm.trans (bindingId_eq_some.mpr ⟨bn, hl, rfl⟩)
    obtain ⟨bn', hl', hs⟩ := bindingId_eq_some.mp hid
    exact ha.bindingIds ▸ hs ▸ h.active hl'
  injective := by
    intro p p' n hp hp'
    rw [ha.bindingId] at hp hp'
    exact h.injective hp hp'
  owner := by
    intro hn hm
    obtain ⟨p, bn, hl, hid, hb⟩ := h.owner hn (hh hm)
    have hid' := (ha.bindingId p).trans (bindingId_eq_some.mpr ⟨bn, hl, hid⟩)
    obtain ⟨bn', hl', hid'⟩ := bindingId_eq_some.mp hid'
    exact ⟨p, bn', hl', hid', hb⟩

theorem alike_insert {bn : AdapterBinding M} (hl : b.modules.lookup p = some bn) (m : Option M)
    (hm : b'.modules = b.modules.insert p { bn with module := m })
    (hi : b'.bindingIds = b.bindingIds) : Alike b b' := by
  constructor
  · exact hi
  · intro q
    unfold AdapterBindings.bindingId
    rw [hm, Table.lookup_insert_eq]
    split
    · next hq => rw [hq, hl]; rfl
    · rfl
  · intro q
    rw [hm, Table.lookup_insert_eq]
    split
    · next hq => rw [hq, hl]; rfl
    · rfl

theorem alike_takeModule (b : AdapterBindings M) (p : String) : Alike b (b.takeModule p).2 := by
  unfold takeModule
  split
  · exact .refl b
  · next binding hl => exact alike_insert hl none rfl rfl

theorem alike_restoreModule (b : AdapterBindings M) (p : String) (m : M) :
    Alike b (b.restoreModule p m).2 := by
  unfold restoreModule
  split
  · exact .refl b
  · next binding hl =>
    split
    · exact .refl b
    · exact alike_insert hl (some m) rfl rfl

theorem Sound.registerModule (h : b.Sound) (p : String) (m : M) :
    (b.registerModule p m).2.Sound := by
  unfold AdapterBindings.registerModule
  split
  · exact h
  · next hnw =>
    split
    · exact h
    · next id bindingIds hal =>
      have hnn : b.modules.lookup p = none := Option.not_isSome_iff_eq_none.mp hnw
      obtain ⟨hd, hfr, hac⟩ := h.bindingIds.tryAllocate hal
      have hold {q : String} {n : ℕ} (hq : b.bindingId q = some n) :
          n ∈ b.bindingIds.activeIds := by
        obtain ⟨bn, hlk, rfl⟩ := bindingId_eq_some.mp hq
        exact h.active hlk
      have hid (q : String) : AdapterBindings.bindingId { b with
          bindingIds := bindingIds
          modules := b.modules.insert p ⟨id, some 1, some m⟩ } q =
            if q = p then some id else b.bindingId q := by
        unfold AdapterBindings.bindingId
        rw [Table.lookup_insert_eq]
        split <;> rfl
      constructor
      · exact hd
      · intro q bn hlk
        rw [Table.lookup_insert_eq] at hlk
        rw [hac]
        split at hlk
        · cases hlk
          exact Finset.mem_insert_self _ _
        · exact Finset.mem_insert_of_mem (h.active hlk)
      · intro q q' n hq hq'
        rw [hid] at hq hq'
        split at hq <;> split at hq'
        · next h₁ h₂ => rw [h₁, h₂]
        · cases hq
          exact absurd (hold hq') hfr
        · cases hq'
          exact absurd (hold hq) hfr
        · exact h.injective hq hq'
      · intro hn hmm
        obtain ⟨q, bn, hlk, hrs⟩ := h.owner hn hmm
        refine ⟨q, bn, ?_, hrs⟩
        rw [Table.lookup_insert_eq, if_neg, hlk]
        rintro rfl
        rw [hnn] at hlk
        cases hlk

end Sound

section Registration

variable {b b' : AdapterBindings M} {p : String} {bindingId : ℕ} {handles : List (OpaqueTypeId × ℕ)}

structure Checked (b : AdapterBindings M) (bindingId : ℕ) (p : String) (next : Option ℕ)
    (handles : List (OpaqueTypeId × ℕ)) (next' : Option ℕ) : Prop where
  belongs : ∀ x ∈ handles, x.1.belongsTo p = true
  fresh : ∀ x ∈ handles, bound bindingId x ∉ b.handles
  increasing : handles.Pairwise fun x y => x.2 < y.2
  above : ∀ x ∈ handles, ∃ m, next = some m ∧ m ≤ x.2
  below : ∀ m', next' = some m' → (∀ x ∈ handles, x.2 < m') ∧ ∃ m, next = some m ∧ m ≤ m'

theorem flags_checkHandle {bt : Batch} (x : OpaqueTypeId × ℕ)
    (h : (b.checkHandle bindingId p bt x).invalid = false)
    (h' : (b.checkHandle bindingId p bt x).exhausted = false) :
    bt.invalid = false ∧ bt.exhausted = false ∧ ∃ e, bt.next = some e ∧
      x.1.belongsTo p = true ∧ x.2 = e ∧ bound bindingId x ∉ b.handles ∧
      (b.checkHandle bindingId p bt x).next =
        if x.2 < u32Max then some (x.2 + 1) else none := by
  unfold checkHandle at h h' ⊢
  cases hn : bt.next with
  | none =>
    rw [hn] at h'
    cases h'
  | some e =>
    rw [hn] at h h'
    dsimp only at h h' ⊢
    split at h
    · cases h
    · next hf =>
      simp only [not_or, Bool.not_eq_false, ne_eq, not_not] at hf
      rw [if_neg (by simpa using hf)] at h' ⊢
      exact ⟨h, h', e, rfl, hf.1, hf.2.1, hf.2.2, rfl⟩

theorem checked_of_foldl {bt : Batch}
    (h : (handles.foldl (b.checkHandle bindingId p) bt).invalid = false)
    (h' : (handles.foldl (b.checkHandle bindingId p) bt).exhausted = false) :
    bt.invalid = false ∧ bt.exhausted = false ∧ b.Checked bindingId p bt.next handles
      (handles.foldl (b.checkHandle bindingId p) bt).next := by
  induction handles generalizing bt with
  | nil =>
    refine ⟨h, h', ⟨nofun, nofun, List.Pairwise.nil, nofun, fun m' hm' => ⟨nofun, m', hm', le_rfl⟩⟩⟩
  | cons x r ih =>
    obtain ⟨hiv, heh, hbl, hfr, hic, hab, hbe⟩ := ih h h'
    obtain ⟨hiv, heh, e, hnx, hx, hid, hnw, hst⟩ := flags_checkHandle x hiv heh
    have hla : ∀ y ∈ r, x.2 < y.2 := by
      intro y hy
      obtain ⟨m, hm, hle⟩ := hab y hy
      rw [hst, Option.ite_none_right_eq_some] at hm
      obtain ⟨-, ⟨⟩⟩ := hm
      omega
    refine ⟨hiv, heh, ⟨?_, ?_, ?_, ?_, ?_⟩⟩
    · exact List.forall_mem_cons.mpr ⟨hx, hbl⟩
    · exact List.forall_mem_cons.mpr ⟨hnw, hfr⟩
    · exact List.pairwise_cons.mpr ⟨hla, hic⟩
    · refine List.forall_mem_cons.mpr ⟨⟨e, hnx, hid.ge⟩, fun y hy => ?_⟩
      exact ⟨e, hnx, (hid ▸ hla y hy).le⟩
    · intro m' hm'
      obtain ⟨hlt, m, hm, hle⟩ := hbe m' hm'
      rw [hst, Option.ite_none_right_eq_some] at hm
      obtain ⟨-, ⟨⟩⟩ := hm
      refine ⟨List.forall_mem_cons.mpr ⟨by omega, hlt⟩, e, hnx, by omega⟩

variable [AdapterModuleBinding M]

theorem registerHandles_eq_ok (hrn : b.registerHandles bindingId handles = (.ok (), b')) :
    ∃ p bn n', b.modules.lookup p = some bn ∧ bn.id = bindingId ∧
      b.Checked bindingId p bn.nextHandleId handles n' ∧
      b' = { b with
        modules := b.modules.insert p { bn with nextHandleId := n' }
        handles := b.handles ∪ (handles.map (bound bindingId)).toFinset
        registered := b.registered ++ handles.map (bound bindingId) } := by
  unfold registerHandles at hrn
  split at hrn
  · cases hrn
  · next p hpr =>
    split at hrn
    · cases hrn
    · next bn hlk =>
      dsimp only at hrn
      split at hrn
      · next hfl =>
        unfold rejectBatch at hrn
        dsimp only at hrn
        split at hrn
        · cases hrn
        · cases hrn
        · split at hrn <;> cases hrn
      · next hfl =>
        simp only [Bool.or_eq_true, not_or, Bool.not_eq_true] at hfl
        obtain ⟨-, -, hch⟩ := checked_of_foldl hfl.2 hfl.1
        have hid := bindingId_of_proxyModuleFor hpr
        obtain ⟨bn', hlk', hid⟩ := bindingId_eq_some.mp hid
        cases hlk.symm.trans hlk'
        exact ⟨p, bn, _, hlk, hid, hch, (Prod.mk.inj hrn).2.symm⟩

theorem alike_rejectBatch {bn : AdapterBinding M} (hl : b.modules.lookup p = some bn) (bt : Batch) :
    Alike b (b.rejectBatch p bn bt).2 ∧ (b.rejectBatch p bn bt).2.handles = b.handles ∧
      (b.rejectBatch p bn bt).2.registered = b.registered ∧
      (b.rejectBatch p bn bt).2.released = b.released := by
  unfold rejectBatch
  dsimp only
  split
  · exact ⟨.refl b, rfl, rfl, rfl⟩
  · exact ⟨.refl b, rfl, rfl, rfl⟩
  · rcases compensate bn.id bt.accepted _ with ⟨_ | _, m⟩
    · exact ⟨alike_insert hl (some m) rfl rfl, rfl, rfl, rfl⟩
    · exact ⟨alike_insert hl (some m) rfl rfl, rfl, rfl, rfl⟩

theorem registerHandles_eq_error {e : AdapterBindingError}
    (hr : b.registerHandles bindingId handles = (.error e, b')) :
    Alike b b' ∧ b'.handles = b.handles ∧ b'.registered = b.registered ∧
      b'.released = b.released := by
  unfold registerHandles at hr
  split at hr
  · cases hr
    exact ⟨.refl _, rfl, rfl, rfl⟩
  · next p _ =>
    split at hr
    · cases hr
      exact ⟨.refl _, rfl, rfl, rfl⟩
    · next binding hl =>
      dsimp only at hr
      split at hr
      · have h := alike_rejectBatch hl (handles.foldl (b.checkHandle bindingId p)
          ⟨binding.nextHandleId, [], false, false⟩)
        rw [hr] at h
        exact h
      · cases hr

theorem Sound.registerHandles (h : b.Sound) (bindingId : ℕ) (handles : List (OpaqueTypeId × ℕ)) :
    (b.registerHandles bindingId handles).2.Sound := by
  rcases hrn : b.registerHandles bindingId handles with ⟨e | u, b'⟩
  · obtain ⟨ha, hhn, -, -⟩ := registerHandles_eq_error hrn
    exact h.of_alike ha hhn.subset
  · obtain ⟨p, bn, n', hlk, hid, hch, rfl⟩ := registerHandles_eq_ok hrn
    have hids (q : String) : AdapterBindings.bindingId { b with
        modules := b.modules.insert p { bn with nextHandleId := n' }
        handles := b.handles ∪ (handles.map (bound bindingId)).toFinset
        registered := b.registered ++ handles.map (bound bindingId) } q = b.bindingId q := by
      unfold AdapterBindings.bindingId
      rw [Table.lookup_insert_eq]
      split
      · next hq => rw [hq, hlk]; rfl
      · rfl
    have hon {q : String} {n : ℕ} (hq : b.bindingId q = some n) :
        ∃ bn', (b.modules.insert p { bn with nextHandleId := n' }).lookup q =
          some bn' ∧ bn'.id = n :=
      bindingId_eq_some.mp ((hids q).trans hq)
    constructor
    · exact h.bindingIds
    · intro q bn' hlk'
      have hq := (hids q).symm.trans (bindingId_eq_some.mpr ⟨bn', hlk', rfl⟩)
      obtain ⟨o, hl, hsm⟩ := bindingId_eq_some.mp hq
      exact hsm ▸ h.active hl
    · intro q q' n hq hq'
      rw [hids] at hq hq'
      exact h.injective hq hq'
    · intro hn hmm
      rcases Finset.mem_union.mp hmm with hmm | hmm
      · obtain ⟨q, o, hl, hid', hbl⟩ := h.owner hn hmm
        obtain ⟨bn', hlk', hid'⟩ := hon (bindingId_eq_some.mpr ⟨o, hl, hid'⟩)
        exact ⟨q, bn', hlk', hid', hbl⟩
      · obtain ⟨x, hx, rfl⟩ := List.mem_map.mp (List.mem_toFinset.mp hmm)
        obtain ⟨bn', hlk', hid'⟩ := hon (bindingId_eq_some.mpr ⟨bn, hlk, hid⟩)
        exact ⟨p, bn', hlk', hid', hch.belongs x hx⟩

end Registration

end AdapterBindings

end Galfus
