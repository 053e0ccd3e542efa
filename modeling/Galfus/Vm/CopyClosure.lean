import Galfus.Graph.Search
import Galfus.Heap.Reuse
import Galfus.Vm.Copy

/-! # The strong closure of a copy

The search of `Copy` always ends, and if it succeeds it has found exactly the
objects that are reachable through strong references, all of them alive.
-/

namespace Galfus

open Graph

namespace PrivateHeap

variable {h : PrivateHeap} {r x y : VmObjectRef} {o : HeapObject}

def liveRefs (h : PrivateHeap) : Finset VmObjectRef :=
  ((List.range h.objects.length).filterMap fun i =>
    (h.objects[i]?).map fun s => ⟨i, s.generation⟩).toFinset

theorem mem_liveRefs (hgt : h.getObject r = .ok o) : r ∈ h.liveRefs := by
  obtain ⟨s, hs, hg, -⟩ := getObject_eq_ok.mp hgt
  simp only [liveRefs, List.mem_toFinset, List.mem_filterMap, List.mem_range]
  exact ⟨r.index, (PrivateHeap.slot_lt hs), by simp [hs, hg]⟩

theorem card_liveRefs_le (h : PrivateHeap) : h.liveRefs.card ≤ h.objects.length := by
  refine (List.toFinset_card_le _).trans ((List.length_filterMap_le _ _).trans ?_)
  rw [List.length_range]

end PrivateHeap

namespace VirtualMachine

variable {vm : VirtualMachine} {h : PrivateHeap} {root r x : VmObjectRef} {f g : CopyFrontier}
  {c : Finset VmObjectRef} {p : List VmObjectRef} {n : ℕ}

section

variable (vm : VirtualMachine) (h : PrivateHeap)

/-- The objects that the copy of `r` clones directly. -/
def copyTargets (r : VmObjectRef) : List VmObjectRef :=
  match h.getObject r with
  | .ok obj =>
    match vm.strongSlots obj with
    | .ok values => values.filterMap VmValue.objectRef?
    | .error _ => []
  | .error _ => []

abbrev StrongReach : VmObjectRef → VmObjectRef → Prop :=
  Reaches (vm.copyTargets h)

/-- A reference to a live object whose layout, if it has one, is known. -/
def Copied (r : VmObjectRef) : Prop :=
  ∃ obj values, h.getObject r = .ok obj ∧ vm.strongSlots obj = .ok values

end

theorem enqueueCopyTargets_adds (vs : List VmValue)
    (hrn : vs.foldlM (enqueueCopyTarget h) f = .ok g) :
    Adds (vs.filterMap VmValue.objectRef?) f g ∧
      ∀ r ∈ vs.filterMap VmValue.objectRef?, r ∈ h.liveRefs := by
  induction vs generalizing f with
  | nil =>
    cases hrn
    exact ⟨.nil _, by simp⟩
  | cons v vs ih =>
    rw [List.foldlM_cons] at hrn
    cases hv : v.objectRef? with
    | none =>
      have hsk : enqueueCopyTarget h f v = .ok f := by
        cases v <;> first | rfl | cases hv
      rw [hsk] at hrn
      simpa [hv] using ih hrn
    | some r =>
      rw [VmValue.objectRef?_eq_some] at hv
      subst hv
      cases hgt : h.getObject r with
      | error e => simp [enqueueCopyTarget, hgt, bind, Except.bind] at hrn
      | ok o =>
        have hli : r ∈ h.liveRefs := PrivateHeap.mem_liveRefs hgt
        have had : ∃ f', enqueueCopyTarget h f (.object r) = .ok f' ∧ Adds [r] f f' := by
          unfold enqueueCopyTarget
          simp only [hgt, bind, Except.bind]
          split
          · exact ⟨f, rfl, .old ‹_›⟩
          · exact ⟨_, rfl, .new ‹_› (List.perm_append_singleton r f.2)⟩
        obtain ⟨f', hst, ha⟩ := had
        rw [hst] at hrn
        obtain ⟨hb, hlv⟩ := ih hrn
        exact ⟨ha.trans hb, by simpa [VmValue.objectRef?, hli] using hlv⟩

theorem visitCopyTarget_adds (hr : vm.visitCopyTarget h c r p = .ok g) :
    vm.Copied h r ∧ Adds (vm.copyTargets h r) (c, p) g ∧
      ∀ x ∈ vm.copyTargets h r, x ∈ h.liveRefs := by
  unfold visitCopyTarget at hr
  cases hg : h.getObject r with
  | error e => simp [hg, bind, Except.bind] at hr
  | ok ob =>
    cases hs : vm.strongSlots ob with
    | error e => simp [hg, hs, bind, Except.bind] at hr
    | ok vs =>
      simp only [hg, hs, bind, Except.bind] at hr
      have ht : vm.copyTargets h r = vs.filterMap VmValue.objectRef? := by
        simp [copyTargets, hg, hs]
      rw [ht]
      exact ⟨⟨ob, vs, hg, hs⟩, enqueueCopyTargets_adds vs hr⟩

theorem discoverLoop_searched (n : ℕ) (hs : Searched (vm.copyTargets h) {root} (vm.Copied h) f)
    (hr : vm.discoverLoop h n f = some (.ok c)) :
    Searched (vm.copyTargets h) {root} (vm.Copied h) (c, []) := by
  induction n generalizing f with
  | zero => cases hr
  | succ n ih =>
    obtain ⟨s, _ | ⟨r, p⟩⟩ := f
    · cases hr
      exact hs
    · simp only [discoverLoop] at hr
      cases hv : vm.visitCopyTarget h s r p with
      | error e => simp [hv] at hr
      | ok g =>
        simp only [hv] at hr
        obtain ⟨hV, ha, -⟩ := visitCopyTarget_adds hv
        exact ih (hs.visit hV ha) hr

/-- A search that succeeds has found the strong closure, all of it alive. -/
theorem mem_discoverStrongCopyClosure (hr : vm.discoverStrongCopyClosure h root = some (.ok c)) :
    (∀ x, x ∈ c ↔ vm.StrongReach h root x) ∧ ∀ x ∈ c, vm.Copied h x := by
  have hi : Searched (vm.copyTargets h) {root} (vm.Copied h)
      (({root}, [root]) : CopyFrontier) := .init (by simp) (by simp)
  obtain ⟨hm, hV⟩ := (discoverLoop_searched _ hi hr).done
  exact ⟨fun x => by simpa using hm x, hV⟩

end VirtualMachine

end Galfus
