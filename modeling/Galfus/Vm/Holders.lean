import Galfus.Heap.BalancedAlloc
import Galfus.Vm.Execute

/-! # Holders of a thread

The registers of the frames and the globals of the modules hold objects. The counts of a
thread are exact if the anchors of each object are these holders of it, its edges are its
occurrences in objects, and no holder and no object holds a dead reference. A register
or a global that is overwritten keeps the counts exact if the new value was retained
before.
-/

namespace Galfus

/-- The objects that values refer to, each as often as it occurs. -/
def objectsIn (vs : List VmValue) : Multiset VmObjectRef :=
  (vs.filterMap VmValue.objectRef? : List VmObjectRef)

section ObjectsIn

variable {v o : VmValue} {vs ws : List VmValue} {r : VmObjectRef} {i : ℕ}

@[simp] theorem objectsIn_nil : objectsIn [] = 0 := rfl

theorem objectsIn_append : objectsIn (vs ++ ws) = objectsIn vs + objectsIn ws := by
  simp [objectsIn]

theorem objectsIn_cons : objectsIn (v :: vs) = objectsIn [v] + objectsIn vs := by
  rw [← objectsIn_append]
  rfl

@[simp] theorem objectsIn_object : objectsIn [.object r] = {r} := rfl

theorem mem_objectsIn : r ∈ objectsIn vs ↔ .object r ∈ vs := by
  simp [objectsIn]

theorem count_objectsIn : (objectsIn vs).count r = vs.count (.object r) := by
  induction vs with
  | nil => rfl
  | cons v vs ih =>
    rw [objectsIn_cons, Multiset.count_add, ih, List.count_cons, Nat.add_comm]
    cases v with
    | object x => simp [Multiset.count_singleton, eq_comm (a := r)]
    | _ => rfl

theorem objectsIn_singleton_eq_zero : objectsIn [v] = 0 ↔ ∀ r, v ≠ .object r := by
  rw [Multiset.eq_zero_iff_forall_notMem]
  simp [mem_objectsIn, eq_comm]

theorem objectsIn_perm (h : vs.Perm ws) : objectsIn vs = objectsIn ws :=
  Multiset.coe_eq_coe.mpr (h.filterMap _)

theorem objectsIn_set (h : vs[i]? = some o) (v : VmValue) : ∃ A,
    objectsIn vs = objectsIn [o] + A ∧ objectsIn (vs.set i v) = objectsIn [v] + A := by
  obtain ⟨hi, rfl⟩ := List.getElem?_eq_some_iff.mp h
  refine ⟨objectsIn (vs.eraseIdx i), ?_, ?_⟩
  · rw [← objectsIn_cons]
    exact objectsIn_perm (List.getElem_cons_eraseIdx_perm hi).symm
  · rw [← objectsIn_cons]
    exact objectsIn_perm (List.set_perm_cons_eraseIdx hi v)

theorem objectsIn_replicate (hv : objectsIn [v] = 0) (n : ℕ) :
    objectsIn (List.replicate n v) = 0 := by
  induction n with
  | zero => rfl
  | succ n ih => rw [List.replicate_succ, objectsIn_cons, hv, ih, add_zero]

end ObjectsIn

namespace PrivateHeap

variable {h h' : PrivateHeap} {v : VmValue} {A B : Multiset VmObjectRef} {ord : CollectOrder}

namespace Balanced

theorem releaseAnchorVal (hb : h.Balanced (objectsIn [v] + A) B) :
    (h.releaseAnchorVal v).Balanced A B := by
  cases v with
  | object r =>
    obtain ⟨h', hr, hb'⟩ := Balanced.releaseAnchor (r := r) (A := A) (by simpa using hb)
    rwa [PrivateHeap.releaseAnchorVal, hr]
  | _ => exact zero_add A ▸ (show h.Balanced (0 + A) B from hb)

theorem releaseEdgeVal (hb : h.Balanced A (objectsIn [v] + B)) :
    (h.releaseEdgeVal v).Balanced A B := by
  cases v with
  | object r =>
    obtain ⟨h', hr, hb'⟩ := Balanced.releaseEdge (r := r) (B := B) (by simpa using hb)
    rwa [PrivateHeap.releaseEdgeVal, hr]
  | _ => exact zero_add B ▸ (show h.Balanced A (0 + B) from hb)

/-- An anchor is retained unless the counter is at its limit. -/
theorem retainAnchorVal (hb : h.Balanced A B) (hv : ∀ r ∈ objectsIn [v], r ∈ A) :
    ∃ X, (h.retainAnchorVal v).Balanced (X + A) B ∧
      (X = objectsIn [v] ↔ ∀ r, v = .object r → h.anchorsAt r.index < u32Max) := by
  cases v with
  | object r =>
    obtain ⟨s, hr⟩ := alive_iff_resolve.mp (hb.alive r (.inl (hv r (by simp))))
    obtain ⟨h', hrn, hlt, hm⟩ := hb.retainAnchor hr
    have ha : h.anchorsAt r.index = s.anchors := anchorsAt_eq (resolve_eq_some_iff.mp hr).1
    rw [PrivateHeap.retainAnchorVal, hrn]
    rcases s.anchors_le.lt_or_eq with hs | hs
    · refine ⟨{r}, hlt hs, ?_⟩
      simp [ha, hs]
    · refine ⟨0, (zero_add A).symm ▸ hm hs, ?_⟩
      simp [ha, hs]
  | _ => exact ⟨0, (zero_add A).symm ▸ hb, iff_of_true rfl nofun⟩

theorem retainEdgeVal (hb : h.Balanced A B) (hv : ∀ r ∈ objectsIn [v], r ∈ A)
    (hlt : ∀ r ∈ objectsIn [v], h.occurrences r + B.count r < u32Max) :
    (h.retainEdgeVal v).Balanced A (objectsIn [v] + B) ∧
      ∀ r, (h.retainEdgeVal v).occurrences r = h.occurrences r := by
  cases v with
  | object r =>
    obtain ⟨h', hr, hb', a⟩ :=
      hb.retainEdge (hb.alive r (.inl (hv r (by simp)))) (hlt r (by simp))
    rw [PrivateHeap.retainEdgeVal, hr]
    refine ⟨hb', fun x => ?_⟩
    show h'.occurrences x = _
    simpa using (a.occurrences x).symm
  | _ => exact ⟨show h.Balanced A (0 + B) from (zero_add B).symm ▸ hb, fun _ => rfl⟩

end Balanced

/-- Edges to anchored objects do not make a collection harmful. -/
theorem Harmless.retainEdgeVal (hh : h.Harmless ord) (hb : h.Balanced A B)
    (hv : ∀ r ∈ objectsIn [v], r ∈ A) : (h.retainEdgeVal v).Harmless ord := by
  cases v with
  | object r =>
    have hm : r ∈ A := hv r (by simp)
    obtain ⟨s, hr⟩ := alive_iff_resolve.mp (hb.alive r (.inl hm))
    have hp : 0 < s.anchors := by
      rw [hb.anchors r s hr]
      exact Multiset.count_pos.mpr hm
    obtain ⟨h', hrn⟩ : ∃ h', h.retainEdge r = .ok h' := by simp [PrivateHeap.retainEdge, hr]
    have heq : h' = (h.setSlot r.index (s.incEdges.paint .black)).dropRoot r.index := by
      simpa [PrivateHeap.retainEdge, hr, eq_comm] using hrn
    rw [PrivateHeap.retainEdgeVal, hrn]
    rcases hh with hh | hh | hh
    · rw [heq]
      exact .inl hh
    · refine .inr (.inl ?_)
      rw [heq]
      show h.roots.erase r.index = ∅
      rw [hh, Finset.erase_empty]
    · exact .inr (.inr ((hh.buffered.retainEdge hr hp hrn).restores hh))
  | _ => exact hh

end PrivateHeap

namespace ThreadState

variable {t t' : ThreadState} {v o : VmValue} {reg : ℕ} {X : Multiset VmObjectRef}

/-- The values that the registers of the frames and the globals hold. -/
def heldValues (t : ThreadState) : List VmValue := t.liveRegisters ++ t.globals

/-- The counts of the heap are those of the references to its objects, and every
reference that is held means an object. -/
structure CountsExact (t : ThreadState) : Prop where
  freeListed : t.heap.FreeListed
  anchors : ∀ r s, t.heap.resolve r = some s → s.anchors = t.heldValues.count (.object r)
  edges : ∀ r s, t.heap.resolve r = some s → s.edges = t.heap.occurrences r
  alive : ∀ r, .object r ∈ t.heldValues ∨ 0 < t.heap.occurrences r → t.heap.Alive r

instance (t : ThreadState) : Decidable t.CountsExact :=
  decidable_of_iff (t.heap.FreeListed ∧ (∀ p ∈ t.heap.objects.zipIdx, p.1.object.isSome →
      p.1.anchors = t.heldValues.count (.object ⟨p.2, p.1.generation⟩) ∧
        p.1.edges = t.heap.occurrences ⟨p.2, p.1.generation⟩) ∧
      (∀ v ∈ t.heldValues, ∀ r ∈ v.objectRef?, t.heap.Alive r) ∧
      ∀ s ∈ t.heap.objects, ∀ r ∈ s.children, t.heap.Alive r) <| by
    constructor
    · rintro ⟨hf, hc, hv, hs⟩
      have hsl : ∀ r s, t.heap.resolve r = some s →
          s.anchors = t.heldValues.count (.object r) ∧ s.edges = t.heap.occurrences r := by
        intro r s hr
        obtain ⟨hs, hg, ho⟩ := PrivateHeap.resolve_eq_some_iff.mp hr
        have := hc (s, r.index) (List.mem_zipIdx_iff_getElem?.mpr hs) ho
        rwa [show (⟨r.index, s.generation⟩ : VmObjectRef) = r from VmObjectRef.ext rfl hg] at this
      refine ⟨hf, fun r s hr => (hsl r s hr).1, fun r s hr => (hsl r s hr).2, ?_⟩
      rintro r (hr | hr)
      · exact hv _ hr r rfl
      · obtain ⟨s, hmm, hr⟩ := PrivateHeap.occurrences_pos.mp hr
        exact hs s hmm r hr
    · rintro ⟨hf, ha, he, hl⟩
      refine ⟨hf, ?_, ?_, fun s hs r hr => hl r (Or.inr ?_)⟩
      · rintro ⟨s, i⟩ hp ho
        have hr : t.heap.resolve ⟨i, s.generation⟩ = some s :=
          PrivateHeap.resolve_eq_some_iff.mpr ⟨List.mem_zipIdx_iff_getElem?.mp hp, rfl, ho⟩
        exact ⟨ha _ s hr, he _ s hr⟩
      · intro v hv r hr
        obtain rfl := VmValue.objectRef?_eq_some.mp hr
        exact hl r (Or.inl hv)
      · exact PrivateHeap.occurrences_pos.mpr ⟨s, hs, hr⟩

theorem countsExact_iff : t.CountsExact ↔ t.heap.Balanced (objectsIn t.heldValues) 0 := by
  constructor
  · rintro ⟨hf, ha, he, hl⟩
    refine ⟨hf, fun r s hr => ?_, fun r s hr => ?_, fun r hr => hl r ?_⟩
    · rw [count_objectsIn]
      exact ha r s hr
    · simpa using he r s hr
    · simpa [mem_objectsIn] using hr
  · rintro ⟨hf, ha, he, hl⟩
    refine ⟨hf, fun r s hr => ?_, fun r s hr => ?_, fun r hr => hl r ?_⟩
    · rw [← count_objectsIn]
      exact ha r s hr
    · simpa using he r s hr
    · simpa [mem_objectsIn] using hr

/-- A holder takes a new value and the anchor of the old one is released. The counts are exact if
the anchors of the new value were retained before. -/
theorem countsExact_overwrite (hb : t.heap.Balanced (X + objectsIn t.heldValues) 0)
    (hh : t'.heap = t.heap.releaseAnchorVal o)
    (hhl : ∃ A, objectsIn t.heldValues = objectsIn [o] + A ∧
      objectsIn t'.heldValues = objectsIn [v] + A) :
    t'.CountsExact ↔ X = objectsIn [v] := by
  obtain ⟨A, hl, hn⟩ := hhl
  have hb' : t'.heap.Balanced (X + A) 0 := by
    rw [hh]
    apply PrivateHeap.Balanced.releaseAnchorVal
    rwa [add_left_comm, ← hl]
  rw [countsExact_iff, hn]
  constructor
  · intro hb''
    exact add_right_cancel (hb'.unique hb'').1
  · rintro rfl
    exact hb'

theorem readReg_eq_ok : readReg reg t = some (.ok v, t') ↔
    t.registers[t.currentRegisterBase + reg]? = some v ∧ t = t' := by
  unfold readReg
  simp only [Option.map_eq_some_iff, Prod.mk.injEq, Except.ok.injEq]
  constructor
  · rintro ⟨w, hw, rfl, rfl⟩
    exact ⟨hw, rfl⟩
  · rintro ⟨hw, rfl⟩
    exact ⟨v, hw, rfl, rfl⟩

def InWindow (t : ThreadState) (reg : ℕ) : Prop :=
  t.currentRegisterBase + reg < t.currentRegisterTop

instance (t : ThreadState) (reg : ℕ) : Decidable (t.InWindow reg) :=
  inferInstanceAs (Decidable (_ < _))

theorem InWindow.mem_heldValues (hw : t.InWindow reg)
    (hv : t.registers[t.currentRegisterBase + reg]? = some v) : v ∈ t.heldValues := by
  refine List.mem_append_left _ (List.mem_of_getElem? (i := t.currentRegisterBase + reg) ?_)
  rw [liveRegisters, List.getElem?_take_of_lt hw, hv]

theorem writeReg_countsExact {u : Unit} (hr : writeReg reg v t = some (.ok u, t'))
    (hw : t.InWindow reg) (hb : t.heap.Balanced (X + objectsIn t.heldValues) 0) :
    t'.CountsExact ↔ X = objectsIn [v] := by
  obtain ⟨o, hd, hr⟩ := Option.bind_eq_some_iff.mp hr
  cases hr
  refine countsExact_overwrite hb rfl ?_
  have hl : t.liveRegisters[t.currentRegisterBase + reg]? = some o := by
    rw [liveRegisters, List.getElem?_take_of_lt hw, hd]
  obtain ⟨A, hA, hA'⟩ := objectsIn_set hl v
  refine ⟨A + objectsIn t.globals, ?_, ?_⟩
  · rw [heldValues, objectsIn_append, hA, add_assoc]
  · rw [heldValues, objectsIn_append, ← add_assoc, ← hA', liveRegisters, liveRegisters,
      List.take_set]
    rfl

theorem objectsIn_setGlobals (m : ℕ) (vl : List VmValue) (ss : List (ℕ × List VmValue)) :
    ∃ A, objectsIn (ss.flatMap Prod.snd) = objectsIn ((ss.lookup m).getD []) + A ∧
      objectsIn ((setGlobals m vl ss).flatMap Prod.snd) = objectsIn vl + A := by
  induction ss with
  | nil => exact ⟨0, rfl, by simp [setGlobals]⟩
  | cons p ss ih =>
    obtain ⟨k, o⟩ := p
    by_cases hk : m = k
    · exact ⟨objectsIn (ss.flatMap Prod.snd), by simp [hk, objectsIn_append],
        by simp [setGlobals, hk, objectsIn_append]⟩
    · obtain ⟨A, hA, hA'⟩ := ih
      have hne : (m == k) = false := by simpa using hk
      refine ⟨objectsIn o + A, ?_, ?_⟩
      · rw [List.flatMap_cons, objectsIn_append, hA, List.lookup_cons, hne]
        exact add_left_comm _ _ _
      · rw [setGlobals, if_neg hk, List.flatMap_cons, objectsIn_append, hA']
        exact add_left_comm _ _ _

theorem mem_heldValues_of_getGlobals {m g : ℕ} (hv : (t.getGlobals m)[g]? = some v) :
    v ∈ t.heldValues := by
  refine List.mem_append_right _ ?_
  have hm := List.mem_of_getElem? hv
  unfold getGlobals at hm
  cases hl : t.moduleStates.lookup m with
  | none => simp [hl] at hm
  | some vl =>
    rw [hl] at hm
    obtain ⟨_, _, hs, -⟩ := List.lookup_eq_some_iff.mp hl
    exact List.mem_flatMap.mpr ⟨(m, vl), by simp [hs], hm⟩

theorem storeGlobal_heldValues (t : ThreadState) (m g : ℕ) (v : VmValue) {h : PrivateHeap} :
    let rs := t.getGlobals m ++ List.replicate (g + 1 - (t.getGlobals m).length) .null
    let t' := { t with moduleStates := setGlobals m (rs.set g v) t.moduleStates, heap := h }
    ∃ A, objectsIn t.heldValues = objectsIn [rs.getD g .null] + A ∧
      objectsIn t'.heldValues = objectsIn [v] + A := by
  intro rs t'
  have hlt : g < rs.length := by
    simp only [rs, List.length_append, List.length_replicate]
    omega
  have hold : rs[g]? = some (rs.getD g .null) := by simp [hlt]
  have hrs : objectsIn rs = objectsIn (t.getGlobals m) := by
    rw [objectsIn_append, objectsIn_replicate rfl, add_zero]
  obtain ⟨A, hA, hA'⟩ := objectsIn_set hold v
  obtain ⟨C, hC, hC'⟩ := objectsIn_setGlobals m (rs.set g v) t.moduleStates
  refine ⟨objectsIn t.liveRegisters + (A + C), ?_, ?_⟩
  · calc objectsIn t.heldValues = objectsIn t.liveRegisters + (objectsIn rs + C) := by
          rw [heldValues, objectsIn_append, hrs]
          exact congrArg _ hC
      _ = _ := by rw [hA, add_assoc, add_left_comm]
  · calc objectsIn t'.heldValues = objectsIn t.liveRegisters + (objectsIn (rs.set g v) + C) := by
          rw [heldValues, objectsIn_append]
          exact congrArg _ hC'
      _ = _ := by rw [hA', add_assoc, add_left_comm]

end ThreadState

end Galfus
