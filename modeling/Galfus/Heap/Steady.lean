import Galfus.Heap.Release

/-! # Anchored objects while others are released

An object that was retained last is black and no possible root, and stays so while other
anchors are released, as long as it has an anchor left. So to retain it once more and to
release it again changes nothing.
-/

namespace Galfus.PrivateHeap

variable {h h' : PrivateHeap} {i : ℕ} {s t : HeapSlot} {o : HeapObject} {r c : VmObjectRef}

/-- If the object has an anchor, then it is black and no possible root. -/
def Steady (r : VmObjectRef) (h : PrivateHeap) : Prop :=
  ∀ s, h.resolve r = some s → 0 < s.anchors → s.color = .black ∧ r.index ∉ h.roots

namespace Steady

theorem setSlot (hP : Steady r h) (hs : h.objects[i]? = some s)
    (hgn : t.generation = s.generation) (ht : t.object.isSome = true → s.object.isSome = true ∧
      (0 < t.anchors → 0 < s.anchors ∧ t.color = s.color)) : Steady r (h.setSlot i t) := by
  intro t' ht' hp
  rw [resolve_eq_some_iff, getElem?_setSlot] at ht'
  obtain ⟨hgt, hg, ho⟩ := ht'
  split at hgt
  · next hi =>
    obtain ⟨rfl, -⟩ := hi
    obtain rfl := Option.some.inj hgt
    obtain ⟨ho', hc⟩ := ht ho
    obtain ⟨hp', hcl⟩ := hc hp
    obtain ⟨hb, hr⟩ := hP s (resolve_eq_some_iff.mpr ⟨hs, hgn ▸ hg, ho'⟩) hp'
    exact ⟨hcl.trans hb, hr⟩
  · exact hP t' (resolve_eq_some_iff.mpr ⟨hgt, hg, ho⟩) hp

theorem dropRoot (hP : Steady r h) (i : ℕ) : Steady r (h.dropRoot i) := by
  intro s hs hp
  obtain ⟨hb, hr⟩ := hP s hs hp
  exact ⟨hb, fun hm => hr (Finset.mem_of_mem_erase hm)⟩

theorem makePurple (hP : Steady r h) (hs : h.objects[i]? = some s) (ht : t.anchors = 0)
    (hgn : t.generation = s.generation) (hob : t.object = s.object) :
    Steady r (h.makePurple i t) := by
  intro t' ht' hp
  have hst : Steady r (h.setSlot i (t.paint .purple)) :=
    hP.setSlot hs hgn fun ho => ⟨hob ▸ ho, fun hp => absurd hp (by simp [HeapSlot.paint, ht])⟩
  obtain ⟨hb, hr⟩ := hst t' ht' hp
  refine ⟨hb, fun hm => ?_⟩
  rcases Finset.mem_insert.mp hm with rfl | hm
  · obtain ⟨hg, -⟩ := resolve_eq_some_iff.mp ht'
    have hlt := slot_lt hs
    rw [show (h.makePurple r.index t).objects =
        (h.setSlot r.index (t.paint .purple)).objects from rfl,
      getElem?_setSlot, if_pos ⟨rfl, hlt⟩] at hg
    obtain rfl := Option.some.inj hg
    simp [HeapSlot.paint, ht] at hp
  · exact hr hm

theorem discard (hP : Steady r h) (hs : h.objects[i]? = some s) : Steady r (h.discard i s o) :=
  fun _ ht hp => (hP.setSlot (t := s.vacate) hs rfl fun ho => by cases ho) _ ht hp

theorem releasing (r : VmObjectRef) :
    Releasing (·.anchors = 0) fun h h' => Steady r h → Steady r h' where
  refl _ hP := hP
  trans a b hP := b (a hP)
  dropRoot _ i hP := hP.dropRoot i
  lower hs hP := hP.setSlot hs rfl fun ho => ⟨ho, fun hp => ⟨hp, rfl⟩⟩
  purple hs hz hP := hP.makePurple hs hz rfl rfl
  blacken hs ho hP := hP.setSlot hs rfl fun hsm => by simp [HeapSlot.paint, ho] at hsm
  discard hs _ _ hP := hP.discard hs
  gone hz := hz

theorem releaseAnchor (hP : Steady r h) (c : VmObjectRef) :
    Steady r (h.orKeep (h.releaseAnchor c)) :=
  (releasing r).releaseAnchor (fun _ hs hP => hP.setSlot hs rfl fun ho =>
    ⟨ho, fun hp => ⟨lt_of_lt_of_le hp (Nat.sub_le _ _), rfl⟩⟩) hP

end Steady

theorem steady_retainAnchor (r : VmObjectRef) (h : PrivateHeap) :
    Steady r (h.orKeep (h.retainAnchor r)) := by
  unfold retainAnchor
  cases hr : h.resolve r with
  | none =>
    intro s hs
    rw [orKeep, hr] at hs
    cases hs
  | some s =>
    obtain ⟨hs, -, -⟩ := resolve_eq_some_iff.mp hr
    intro t ht _
    obtain ⟨hg, -, -⟩ := resolve_eq_some_iff.mp ht
    have hsl : (h.setSlot r.index (s.incAnchors.paint .black)).objects[r.index]? =
        some (s.incAnchors.paint .black) :=
      getElem?_setSlot_self (slot_lt hs)
    obtain rfl := Option.some.inj (hsl.symm.trans hg)
    exact ⟨rfl, Finset.notMem_erase _ _⟩

/-- To retain a steady object and to release it again changes nothing. -/
theorem releaseAnchor_retainAnchor (hP : Steady r h)
    (hcn : ∀ s, h.resolve r = some s → 0 < s.anchors ∧ s.anchors < u32Max) :
    let h' := h.orKeep (h.retainAnchor r)
    h'.orKeep (h'.releaseAnchor r) = h := by
  intro h'
  cases hr : h.resolve r with
  | none =>
    have hkp : h' = h := by
      simp only [h', retainAnchor, hr, orKeep]
    rw [hkp, releaseAnchor, hr]
    rfl
  | some s =>
    obtain ⟨hs, hgn, hob⟩ := resolve_eq_some_iff.mp hr
    have hlt := slot_lt hs
    obtain ⟨hps, hmx⟩ := hcn s hr
    obtain ⟨hbl, hrt⟩ := hP s hr hps
    have hh' : h' = (h.setSlot r.index (s.incAnchors.paint .black)).dropRoot r.index := by
      simp only [h', retainAnchor, hr, orKeep]
    have hr' : h'.resolve r = some (s.incAnchors.paint .black) := by
      rw [hh']
      exact resolve_eq_some_iff.mpr ⟨getElem?_setSlot_self hlt, hgn, hob⟩
    have hdc : (s.incAnchors.paint .black).decAnchors = s := by
      obtain ⟨g, a, e, c, o, ha, he⟩ := s
      simp only at hbl hmx
      simp [HeapSlot.paint, HeapSlot.incAnchors, HeapSlot.decAnchors, satSucc_of_lt hmx, hbl]
    have hst : h'.setSlot r.index s = h := by
      rw [hh', dropRoot, setSlot, setSlot, List.set_set]
      obtain ⟨os, _, rs, _⟩ := h
      have hsm : os.set r.index s = os := by
        obtain ⟨hi, rfl⟩ := List.getElem?_eq_some_iff.mp hs
        exact List.set_getElem_self hi
      simp only [hsm, Finset.erase_eq_of_notMem hrt]
    rw [releaseAnchor, hr']
    dsimp only
    rw [hdc, if_neg hps.ne', orKeep, hst]

end Galfus.PrivateHeap
