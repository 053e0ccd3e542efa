import Galfus.Adapter.AdapterHost
import Galfus.Adapter.Denotes

/-! # Conservation of foreign handles

Handles are registered, put on heaps, copied and dropped; drops, teardowns and the shutdown
release them. A handle is to be registered or released once, not released while an object is
it, and the quota is to be the number of registered handles. Each operation has the condition
under which it keeps to this.
-/

namespace Galfus.AdapterBindings

open List (length_cons mem_append mem_map mem_singleton mem_toFinset)

variable {M : Type} {b b' : AdapterBindings M} {h h' : AdapterHandleId}
  {r : Option (Except AdapterBindingReleaseError Unit) × AdapterBindings M}

def adapterOf (b : AdapterBindings M) (h : AdapterHandleId) : Option M :=
  ((b.proxyModuleFor h.bindingId).bind b.modules.lookup).bind (·.module)

/-- Whether the adapter of a handle is there and its callback releases the handle. -/
def releases [AdapterModuleBinding M] (b : AdapterBindings M) (h : AdapterHandleId) : Bool :=
  match b.adapterOf h with
  | none => false
  | some module =>
    match (AdapterModuleBinding.releaseHandle module h.typeId h.id).1 with
    | .ok _ => true
    | .error _ => false

/-- What holds of all bindings, whatever the callbacks do. -/
structure Kept (b : AdapterBindings M) : Prop where
  sound : b.Sound
  registered : ∀ h ∈ b.handles, h ∈ b.registered
  nodup : b.registered.Nodup
  active : ∀ h ∈ b.registered, h.bindingId ∈ b.bindingIds.activeIds
  given : ∀ h ∈ b.registered, ∀ p binding next, b.modules.lookup p = some binding →
    binding.id = h.bindingId → binding.nextHandleId = some next → h.id < next
  released : ∀ h ∈ b.released, h ∈ b.registered ∧ h ∉ b.handles
  once : b.released.Nodup

/-- Every registered handle is still registered, or it was released once. -/
def Conserved (b : AdapterBindings M) : Prop :=
  ∀ h ∈ b.registered, b.released.count h = if h ∈ b.handles then 0 else 1

theorem Kept.conserved_iff (hk : b.Kept) :
    b.Conserved ↔ ∀ h ∈ b.registered, h ∈ b.handles ∨ h ∈ b.released := by
  apply forall₂_congr
  intro h hrg
  by_cases hm : h ∈ b.handles
  · rw [if_pos hm]
    apply iff_of_true _ (.inl hm)
    exact List.count_eq_zero.mpr fun hr => (hk.released h hr).2 hm
  · rw [if_neg hm]
    constructor
    · intro hc
      exact .inr (List.count_pos_iff.mp (by omega))
    · rintro (hm' | hr)
      · exact absurd hm' hm
      · exact List.count_eq_one_of_mem hk.once hr

/-- How a release changes bindings: the handles and the log, and nothing else. -/
structure Releases (b b' : AdapterBindings M) (handles : Finset AdapterHandleId)
    (released : List AdapterHandleId) : Prop where
  alike : Alike b b'
  registered : b'.registered = b.registered
  handles : b'.handles = handles
  released : b'.released = released

theorem Kept.of_releases {handles : Finset AdapterHandleId} {rl : List AdapterHandleId}
    (hk : b.Kept) (hr : Releases b b' handles rl) (hs : handles ⊆ b.handles)
    (hrl : ∀ h ∈ rl, h ∈ b.registered ∧ h ∉ handles) (hn : rl.Nodup) :
    b'.Kept where
  sound := hk.sound.of_alike hr.alike (hr.handles ▸ hs)
  registered := by
    intro h hm
    rw [hr.registered]
    exact hk.registered h (hs (hr.handles ▸ hm))
  nodup := hr.registered ▸ hk.nodup
  active := by
    rw [hr.registered, hr.alike.bindingIds]
    exact hk.active
  given := by
    intro h hm p bn next hl hid hnx
    have hid' := (hr.alike.bindingId p).symm.trans (bindingId_eq_some.mpr ⟨bn, hl, hid⟩)
    obtain ⟨o, hd, hid'⟩ := bindingId_eq_some.mp hid'
    have hn' := hr.alike.nextHandleId p
    rw [hl, hd] at hn'
    exact hk.given h (hr.registered ▸ hm) p o next hd hid' (hn'.symm.trans hnx)
  released := by
    rw [hr.released, hr.registered, hr.handles]
    exact hrl
  once := hr.released ▸ hn

theorem frame_restoreModule (b : AdapterBindings M) (p : String) (m : M) :
    (b.restoreModule p m).2.handles = b.handles ∧
      (b.restoreModule p m).2.registered = b.registered ∧
      (b.restoreModule p m).2.released = b.released := by
  unfold restoreModule
  split
  · exact ⟨rfl, rfl, rfl⟩
  · split
    · exact ⟨rfl, rfl, rfl⟩
    · exact ⟨rfl, rfl, rfl⟩

theorem kept_empty : (empty : AdapterBindings M).Kept where
  sound := sound_empty
  registered := nofun
  nodup := List.nodup_nil
  active := nofun
  given := nofun
  released := nofun
  once := List.nodup_nil

theorem conserved_empty : (empty : AdapterBindings M).Conserved := nofun

def Same (b b' : AdapterBindings M) : Prop := Releases b b' b.handles b.released

theorem Same.refl (b : AdapterBindings M) : Same b b := ⟨.refl b, rfl, rfl, rfl⟩

theorem Kept.of_same (hk : b.Kept) (h : Same b b') : b'.Kept :=
  hk.of_releases h subset_rfl hk.released hk.once

theorem Conserved.of_same (hc : b.Conserved) (h : Same b b') : b'.Conserved := by
  unfold Conserved
  rw [h.registered, h.handles, h.released]
  exact hc

theorem same_takeModule (b : AdapterBindings M) (p : String) : Same b (b.takeModule p).2 := by
  have ha := alike_takeModule b p
  unfold takeModule at ha ⊢
  split
  · exact .refl b
  · next heq =>
    rw [heq] at ha
    exact ⟨ha, rfl, rfl, rfl⟩

theorem same_restoreModule (b : AdapterBindings M) (p : String) (m : M) :
    Same b (b.restoreModule p m).2 := by
  obtain ⟨hh, hr, hrl⟩ := frame_restoreModule b p m
  exact ⟨alike_restoreModule b p m, hr, hh, hrl⟩

theorem frame_registerModule (b : AdapterBindings M) (p : String) (m : M) :
    (b.registerModule p m).2.handles = b.handles ∧
      (b.registerModule p m).2.registered = b.registered ∧
      (b.registerModule p m).2.released = b.released := by
  unfold registerModule
  split
  · exact ⟨rfl, rfl, rfl⟩
  · split
    · exact ⟨rfl, rfl, rfl⟩
    · exact ⟨rfl, rfl, rfl⟩

theorem Kept.registerModule (hk : b.Kept) (p : String) (m : M) : (b.registerModule p m).2.Kept := by
  have hs := hk.sound.registerModule p m
  unfold AdapterBindings.registerModule at hs ⊢
  split
  · exact hk
  · next hnw =>
    rw [if_neg hnw] at hs
    split
    · exact hk
    · next id bindingIds ha =>
      rw [ha] at hs
      obtain ⟨-, hf, hac⟩ := hk.sound.bindingIds.tryAllocate ha
      refine ⟨hs, hk.registered, hk.nodup, ?_, ?_, hk.released, hk.once⟩
      · intro h hm
        rw [hac]
        exact Finset.mem_insert_of_mem (hk.active h hm)
      · intro h hm q bn next hl hid hn
        rw [Table.lookup_insert_eq] at hl
        split at hl
        · -- The new binding has an id that no handle was registered with.
          cases hl
          cases hid
          exact absurd (hk.active h hm) hf
        · exact hk.given h hm q bn next hl hid hn

theorem Conserved.registerModule (hc : b.Conserved) (p : String) (m : M) :
    (b.registerModule p m).2.Conserved := by
  obtain ⟨hh, hr, hrl⟩ := frame_registerModule b p m
  unfold Conserved
  rw [hr, hh, hrl]
  exact hc

variable [AdapterModuleBinding M]

inductive Outcome (b : AdapterBindings M) (h : AdapterHandleId) :
    Option (Except AdapterBindingReleaseError Unit) × AdapterBindings M → Prop
  | absent : h ∉ b.handles → Outcome b h (none, b)
  | lost {b' : AdapterBindings M} : h ∈ b.handles → b.releases h = false →
      Releases b b' (b.handles.erase h) b.released → Outcome b h (some (.ok ()), b')
  | released {b' : AdapterBindings M} : h ∈ b.handles → b.releases h = true →
      Releases b b' (b.handles.erase h) (b.released ++ [h]) → Outcome b h (some (.ok ()), b')
  | failed {b' : AdapterBindings M} {e : AdapterBindingReleaseError} : h ∈ b.handles →
      b.releases h = false → Releases b b' b.handles b.released →
      Outcome b h (some (.error e), b')

theorem Sound.outcome_releaseHandle (hs : b.Sound) : Outcome b h (b.releaseHandle h) := by
  unfold AdapterBindings.releaseHandle takeHandleForRelease
  by_cases hmm : h ∈ b.handles
  · obtain ⟨p, bn, hlk, hid, -⟩ := hs.owner h hmm
    have hpr : b.proxyModuleFor h.bindingId = some p :=
      hs.proxyModuleFor_iff.mpr (bindingId_eq_some.mpr ⟨bn, hlk, hid⟩)
    have had : b.adapterOf h = bn.module := by
      unfold adapterOf
      rw [hpr, Option.bind_some, hlk]
      rfl
    have htk : ∃ b₁, takeModule { b with handles := b.handles.erase h } p = (bn.module, b₁) ∧
        Releases b b₁ (b.handles.erase h) b.released := by
      unfold takeModule
      rw [hlk]
      exact ⟨_, rfl, alike_insert hlk none rfl rfl, rfl, rfl, rfl⟩
    obtain ⟨b₁, htk, hal, hrg, hhn, hlg⟩ := htk
    rw [hpr]
    dsimp only
    rw [if_pos hmm]
    dsimp only
    rw [htk]
    cases hmd : bn.module with
    | none =>
      apply Outcome.lost hmm
      · unfold releases
        rw [had, hmd]
      · exact ⟨hal, hrg, hhn, hlg⟩
    | some m =>
      have hrl : b.releases h =
          match (AdapterModuleBinding.releaseHandle m h.typeId h.id).1 with
          | .ok _ => true
          | .error _ => false := by
        unfold releases
        rw [had, hmd]
      dsimp only
      rcases hcl : AdapterModuleBinding.releaseHandle m h.typeId h.id with ⟨r, m'⟩
      rw [hcl] at hrl
      obtain ⟨hhn', hrg', hlg'⟩ := frame_restoreModule b₁ p m'
      obtain ⟨hd, hid', hnx⟩ := hal.trans (alike_restoreModule b₁ p m')
      cases r with
      | error e =>
        apply Outcome.failed hmm hrl
        refine ⟨⟨hd, hid', hnx⟩, hrg'.trans hrg, ?_, hlg'.trans hlg⟩
        exact (congrArg (insert h) (hhn'.trans hhn)).trans (Finset.insert_erase hmm)
      | ok =>
        apply Outcome.released hmm hrl
        exact ⟨⟨hd, hid', hnx⟩, hrg'.trans hrg, hhn'.trans hhn, congrArg (· ++ [h]) hlg⟩
  · split
    · next heq =>
      split at heq
      · cases heq
        exact Outcome.absent hmm
      · rw [if_neg hmm] at heq
        cases heq
        exact Outcome.absent hmm
    · next heq =>
      split at heq
      · cases heq
      · rw [if_neg hmm] at heq
        cases heq

theorem Kept.outcome (hk : b.Kept) (ho : Outcome b h r) : r.2.Kept := by
  cases ho with
  | absent => exact hk
  | lost hm _ hr =>
    refine hk.of_releases hr (Finset.erase_subset _ _) (fun x hx => ?_) hk.once
    exact ⟨(hk.released x hx).1, fun hm => (hk.released x hx).2 (Finset.mem_of_mem_erase hm)⟩
  | released hm _ hr =>
    refine hk.of_releases hr (Finset.erase_subset _ _) (fun x hx => ?_) ?_
    · rcases mem_append.mp hx with hx | hx
      · exact ⟨(hk.released x hx).1, fun hm => (hk.released x hx).2 (Finset.mem_of_mem_erase hm)⟩
      · obtain rfl := mem_singleton.mp hx
        exact ⟨hk.registered x hm, Finset.notMem_erase _ _⟩
    · apply List.nodup_append'.mpr ⟨hk.once, List.nodup_singleton _, _⟩
      intro x hx hx'
      obtain rfl := mem_singleton.mp hx'
      exact (hk.released x hx).2 hm
  | failed hm _ hr => exact hk.of_releases hr subset_rfl hk.released hk.once

/-- Release handles one after another, up to the first error or on after errors; with the
number that the quota counts. -/
def settle (stop : Bool) : List AdapterHandleId → AdapterBindings M → ℕ → AdapterBindings M × ℕ
  | [], b, used => (b, used)
  | h :: rest, b, used =>
    match b.releaseHandle h with
    | (none, b) => settle stop rest b used
    | (some (.ok ()), b) => settle stop rest b (used - 1)
    | (some (.error _), b) => if stop then (b, used - 1) else settle stop rest b (used - 1)

/-- Each release of a registered handle finds its adapter and succeeds. -/
def KeepsAll : List AdapterHandleId → AdapterBindings M → Prop
  | [], _ => True
  | h :: rest, b => (h ∈ b.handles → b.releases h = true) ∧ KeepsAll rest (b.releaseHandle h).2

/-- A registered handle is gone although no callback released it. -/
def Lost (b : AdapterBindings M) : Prop :=
  ∃ h ∈ b.registered, h ∉ b.handles ∧ h ∉ b.released

theorem Lost.outcome (hl : b.Lost) (ho : Outcome b h r) : r.2.Lost := by
  obtain ⟨x, hrg, hm, hrl⟩ := hl
  cases ho with
  | absent => exact ⟨x, hrg, hm, hrl⟩
  | lost _ _ hr =>
    refine ⟨x, hr.registered ▸ hrg, ?_, hr.released ▸ hrl⟩
    exact hr.handles ▸ fun hx => hm (Finset.mem_of_mem_erase hx)
  | released hh _ hr =>
    refine ⟨x, hr.registered ▸ hrg, ?_, ?_⟩
    · exact hr.handles ▸ fun hx => hm (Finset.mem_of_mem_erase hx)
    · rw [hr.released, mem_append, mem_singleton, not_or]
      exact ⟨hrl, fun hx => hm (hx ▸ hh)⟩
  | failed _ _ hr => exact ⟨x, hr.registered ▸ hrg, hr.handles ▸ hm, hr.released ▸ hrl⟩

theorem settle_induction (s : Bool) {Q : AdapterBindings M → Prop} (hs : List AdapterHandleId)
    (hQ : ∀ b, ∀ h ∈ hs, ∀ r, b.Kept → Q b → Outcome b h r → Q r.2) (u : ℕ) (hk : b.Kept)
    (h : Q b) : (settle s hs b u).1.Kept ∧ Q (settle s hs b u).1 := by
  induction hs generalizing b u with
  | nil => exact ⟨hk, h⟩
  | cons x rs ih =>
    have ho := hk.sound.outcome_releaseHandle (h := x)
    have hk' := hk.outcome ho
    have hq' := hQ b x List.mem_cons_self _ hk h ho
    have hQs (b) (h) (hm : h ∈ rs) := hQ b h (List.mem_cons_of_mem x hm)
    rw [settle]
    generalize b.releaseHandle x = r at hk' hq' ⊢
    obtain ⟨_ | _ | _, b'⟩ := r
    · exact ih hQs u hk' hq'
    · dsimp only
      split
      · exact ⟨hk', hq'⟩
      · exact ih hQs _ hk' hq'
    · exact ih hQs _ hk' hq'

/-- Only handles of the list are released. -/
theorem settle_released (s : Bool) (hs : List AdapterHandleId) (u : ℕ) (hk : b.Kept) :
    ∃ n, (settle s hs b u).1.released = b.released ++ n ∧ ∀ x ∈ n, x ∈ hs := by
  refine (settle_induction s (Q := fun b' => ∃ n, b'.released = b.released ++ n ∧
    ∀ x ∈ n, x ∈ hs) hs ?_ u hk ⟨[], (List.append_nil _).symm, nofun⟩).2
  rintro b' y hy r - ⟨n, hn, hm⟩ ho
  cases ho with
  | absent => exact ⟨n, hn, hm⟩
  | lost _ _ hr | failed _ _ hr => exact ⟨n, hr.released.trans hn, hm⟩
  | released _ _ hr =>
    refine ⟨n ++ [y], by rw [hr.released, hn, List.append_assoc], fun x hx => ?_⟩
    rcases mem_append.mp hx with hx | hx
    · exact hm x hx
    · exact mem_singleton.mp hx ▸ hy

theorem short_settle (hs : List AdapterHandleId) (u : ℕ) (hk : b.Kept)
    (hsh : u < b.handles.card) (hl : hs.length ≤ u) :
    (settle false hs b u).2 < (settle false hs b u).1.handles.card := by
  induction hs generalizing b u with
  | nil => exact hsh
  | cons x rs ih =>
    rw [length_cons] at hl
    have ho := hk.sound.outcome_releaseHandle (h := x)
    have hk' := hk.outcome ho
    rw [settle]
    generalize b.releaseHandle x = r at ho hk' ⊢
    cases ho with
    | absent => exact ih u hk' hsh (by omega)
    | lost hm _ hr | released hm _ hr =>
      refine ih (u - 1) hk' ?_ (by omega)
      have := Finset.card_erase_add_one hm
      rw [hr.handles]
      omega
    | failed hm _ hr =>
      refine ih (u - 1) hk' ?_ (by omega)
      rw [hr.handles]
      omega

/-- What is left of handles and quota after releases is as it should be just if every release
was. -/
theorem settle_keeps_iff {s : Bool} {hs : List AdapterHandleId} {u : ℕ} (hk : b.Kept)
    (hc : b.Conserved) (hus : u = b.handles.card) (hln : s = true ∨ hs.length ≤ u) :
    ((settle s hs b u).1.Conserved ∧ (settle s hs b u).2 = (settle s hs b u).1.handles.card) ↔
      KeepsAll hs b := by
  induction hs generalizing b u with
  | nil => exact iff_of_true ⟨hc, hus⟩ trivial
  | cons x rs ih =>
    have ho := hk.sound.outcome_releaseHandle (h := x)
    have hk' := hk.outcome ho
    have hln' (h : s = false) : rs.length + 1 ≤ u := by
      rcases hln with hst | hln
      · rw [h] at hst
        cases hst
      · exact hln
    rw [settle, KeepsAll]
    generalize b.releaseHandle x = r at ho hk' ⊢
    cases ho with
    | absent hmm =>
      rw [ih hk hc hus (hln.imp_right fun h => by rw [length_cons] at h; omega)]
      exact ⟨fun h => ⟨fun h' => absurd h' hmm, h⟩, fun h => h.2⟩
    | lost hmm hfl hr =>
      apply iff_of_false
      · rintro ⟨hcn, -⟩
        have hls : Lost _ := ⟨x, hr.registered ▸ hk.registered x hmm,
          hr.handles ▸ Finset.notMem_erase x _,
          hr.released ▸ fun hrl => (hk.released x hrl).2 hmm⟩
        obtain ⟨hk'', y, hrg, hmm', hrl⟩ := settle_induction s rs
          (fun _ _ _ _ _ hl ho => hl.outcome ho) (u - 1) hk' hls
        exact (hk''.conserved_iff.mp hcn y hrg).elim hmm' hrl
      · rintro ⟨hkp, -⟩
        exact Bool.false_ne_true (hfl.symm.trans (hkp hmm))
    | released hmm htr hr =>
      have hcr := Finset.card_erase_add_one hmm
      have hc' : Conserved _ := hk'.conserved_iff.mpr fun y hy => by
        rw [hr.handles, hr.released, mem_append, mem_singleton, Finset.mem_erase]
        have := hk.conserved_iff.mp hc y (hr.registered ▸ hy)
        tauto
      rw [ih hk' hc' (by rw [hr.handles]; omega)
        (hln.imp_right fun h => by rw [length_cons] at h; omega)]
      exact ⟨fun h => ⟨fun _ => htr, h⟩, fun h => h.2⟩
    | @failed b' e hmm hfl hr =>
      have hps : 0 < b.handles.card := Finset.card_pos.mpr ⟨x, hmm⟩
      apply iff_of_false
      · rintro ⟨-, hcr⟩
        cases s with
        | true =>
          have hcr : u - 1 = b'.handles.card := hcr
          rw [hr.handles] at hcr
          omega
        | false =>
          have hsh := short_settle rs (u - 1) hk'
            (by rw [hr.handles]; omega) (by have := hln' rfl; omega)
          exact absurd hcr hsh.ne
      · rintro ⟨hkp, -⟩
        exact Bool.false_ne_true (hfl.symm.trans (hkp hmm))

section Registrations

variable {bi : ℕ} {hs : List (OpaqueTypeId × ℕ)}

theorem same_registerHandles {e : AdapterBindingError}
    (hrn : b.registerHandles bi hs = (.error e, b')) : Same b b' := by
  obtain ⟨ha, hh, hr, hrl⟩ := registerHandles_eq_error hrn
  exact ⟨ha, hr, hh, hrl⟩

theorem Kept.registerHandles (hk : b.Kept) (hrn : b.registerHandles bi hs = (.ok (), b')) :
    b'.Kept ∧ (hs.map (bound bi)).Nodup ∧ (∀ h ∈ hs.map (bound bi), h ∉ b.registered) ∧
      b'.handles = b.handles ∪ (hs.map (bound bi)).toFinset ∧
      b'.registered = b.registered ++ hs.map (bound bi) ∧
      b'.released = b.released := by
  have hsn := hk.sound.registerHandles bi hs
  rw [hrn] at hsn
  obtain ⟨p, bn, n', hlk, hid, hch, rfl⟩ := registerHandles_eq_ok hrn
  have hnd : (hs.map (bound bi)).Nodup := by
    apply List.pairwise_map.mpr
    apply hch.increasing.imp
    intro x y hlt heq
    have := congrArg AdapterHandleId.id heq
    exact hlt.ne this
  have hfr : ∀ h ∈ hs.map (bound bi), h ∉ b.registered := by
    intro h hmm hrg
    obtain ⟨x, hx, rfl⟩ := mem_map.mp hmm
    obtain ⟨m, hm, hle⟩ := hch.above x hx
    have hlt := hk.given _ hrg p bn m hlk hid hm
    exact absurd hlt hle.not_gt
  refine ⟨⟨hsn, ?_, ?_, ?_, ?_, ?_, hk.once⟩, hnd, hfr, rfl, rfl, rfl⟩
  · intro h hmm
    rcases Finset.mem_union.mp hmm with hmm | hmm
    · exact List.mem_append_left _ (hk.registered h hmm)
    · exact List.mem_append_right _ (mem_toFinset.mp hmm)
  · apply List.nodup_append.mpr ⟨hk.nodup, hnd, _⟩
    rintro h hrg h' hnw rfl
    exact hfr h hnw hrg
  · intro h hmm
    rcases mem_append.mp hmm with hmm | hmm
    · exact hk.active h hmm
    · obtain ⟨x, hx, rfl⟩ := mem_map.mp hmm
      exact hid ▸ hk.sound.active hlk
  · intro h hmm q bn' next hlk' hid' hnx
    rw [Table.lookup_insert_eq] at hlk'
    split at hlk'
    · next hq =>
      cases hlk'
      obtain ⟨hlt, m, hm, hle⟩ := hch.below next hnx
      rcases mem_append.mp hmm with hmm | hmm
      · exact (hk.given h hmm p bn m hlk hid' hm).trans_le hle
      · obtain ⟨x, hx, rfl⟩ := mem_map.mp hmm
        exact hlt x hx
    · next hq =>
      rcases mem_append.mp hmm with hmm | hmm
      · exact hk.given h hmm q bn' next hlk' hid' hnx
      · obtain ⟨x, hx, rfl⟩ := mem_map.mp hmm
        apply absurd _ hq
        exact hk.sound.injective (bindingId_eq_some.mpr ⟨bn', hlk', hid'⟩)
          (bindingId_eq_some.mpr ⟨bn, hlk, hid⟩)
  · intro h hmm
    obtain ⟨hrg, hnt⟩ := hk.released h hmm
    refine ⟨List.mem_append_left _ hrg, ?_⟩
    rw [Finset.mem_union, mem_toFinset, not_or]
    exact ⟨hnt, fun hnw => hfr h hnw hrg⟩

theorem Conserved.registerHandles (hk : b.Kept) (hc : b.Conserved)
    (hrn : b.registerHandles bi hs = (.ok (), b')) :
    b'.Conserved ∧ b'.handles.card = b.handles.card + hs.length := by
  obtain ⟨hk', hn, hf, hh, hr, hrl⟩ := hk.registerHandles hrn
  constructor
  · rw [hk'.conserved_iff]
    intro h hm
    rw [hr, mem_append] at hm
    rw [hh, hrl, Finset.mem_union, mem_toFinset]
    rcases hm with hm | hm
    · rcases hk.conserved_iff.mp hc h hm with hm | hm
      · exact .inl (.inl hm)
      · exact .inr hm
    · exact .inl (.inr hm)
  · rw [hh, Finset.card_union_of_disjoint, List.toFinset_card_of_nodup hn, List.length_map]
    apply Finset.disjoint_left.mpr
    intro h hm hnw
    exact hf h (mem_toFinset.mp hnw) (hk.registered h hm)

end Registrations

end Galfus.AdapterBindings
