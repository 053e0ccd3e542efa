import Galfus.Heap.Quota

/-! # References across the reuse of slots

A slot that is given out again gets the next generation modulo `2 ^ 32`, so over
fewer than `2 ^ 32` allocations no reference comes to mean another object.
-/

namespace Galfus.PrivateHeap

variable {h h' h₁ : PrivateHeap} {k l : ℕ} {s : HeapSlot} {obj o : HeapObject} {c x : VmObjectRef}
  {P : HeapObject → Prop} {res : Except VmError VmObjectRef}

/-- Since the reference `x` was given out, its slot was reused at most `k` times, and
while it was not, the object in it satisfies `P`. -/
def Tracks (k : ℕ) (h : PrivateHeap) (x : VmObjectRef) (P : HeapObject → Prop) : Prop :=
  x.generation ≤ u32Max ∧ ∃ s, h.objects[x.index]? = some s ∧ ∃ j ≤ k,
    s.generation = (x.generation + j) % (u32Max + 1) ∧ (j = 0 → ∀ o, s.object = some o → P o)

namespace Tracks

theorem of_getObject (hx : x.generation ≤ u32Max) (hgt : h.getObject x = .ok o) (ho : P o) :
    Tracks 0 h x P := by
  obtain ⟨s, hs, hg, hob⟩ := getObject_eq_ok.mp hgt
  refine ⟨hx, s, hs, 0, le_rfl, ?_, fun _ o' ho' => ?_⟩
  · rw [Nat.add_zero, hg, Nat.mod_eq_of_lt (Nat.lt_succ_of_le hx)]
  · rw [hob] at ho'
    cases ho'
    exact ho

variable (ht : Tracks k h x P)
include ht

theorem mono (hkl : k ≤ l) : Tracks l h x P := by
  obtain ⟨hx, s, hs, j, hj, hr⟩ := ht
  exact ⟨hx, s, hs, j, hj.trans hkl, hr⟩

theorem frees (a : FreesTo h h') : Tracks k h' x P := by
  obtain ⟨hx, s, hs, j, hj, hg, hP⟩ := ht
  obtain ⟨fs, a⟩ := a
  obtain ⟨t, hts, htg⟩ := a.slot hs
  refine ⟨hx, t, hts, j, hj, htg.trans hg, fun hj0 o ho => hP hj0 o ?_⟩
  have hob := a.object x.index
  rw [objectAt_eq hts, objectAt_eq hs, ho] at hob
  split at hob
  · cases hob
  · exact hob.symm

omit ht in
/-- Fewer than `2 ^ 32` reuses do not bring a generation back. -/
theorem eq_zero {g j : ℕ} (hj : j ≤ u32Max) (h : g = (g + j) % (u32Max + 1)) : j = 0 := by
  unfold u32Max at *
  omega

theorem getObject (hk : k ≤ u32Max) (hgt : h.getObject x = .ok o) : P o := by
  obtain ⟨hx, s, hs, j, hj, hg, hP⟩ := ht
  obtain ⟨t, hts, htg, hto⟩ := getObject_eq_ok.mp hgt
  rw [hs] at hts
  cases hts
  exact hP (eq_zero (hj.trans hk) (htg.symm.trans hg)) o hto

/-- An object is placed under a reference that differs from those given out before. -/
theorem place (hrn : h.place obj = some (h', res)) :
    Tracks (k + 1) h' x P ∧ (k < u32Max → res ≠ .ok x) := by
  obtain ⟨hx, s, hs, j, hj, hg, hP⟩ := ht
  have hlt := slot_lt hs
  obtain ⟨i, r, t, g, -, hts, rfl, rfl, rfl⟩ | ⟨-, -, rfl, rfl⟩ | ⟨-, -, rfl, rfl⟩ :=
    place_cases hrn
  · by_cases hxi : i = x.index
    · subst hxi
      obtain rfl : s = t := by simpa [hs] using hts
      have hnx : (s.generation + 1) % (u32Max + 1) = (x.generation + (j + 1)) % (u32Max + 1) := by
        rw [hg, Nat.mod_add_mod, Nat.add_assoc]
      refine ⟨⟨hx, _, getElem?_setSlot_self hlt, j + 1, by omega, hnx, by omega⟩, ?_⟩
      intro hk hrs
      have hgn : (s.generation + 1) % (u32Max + 1) = x.generation :=
        congrArg VmObjectRef.generation (Except.ok.inj hrs)
      exact Nat.succ_ne_zero j (eq_zero (by omega) (hgn.symm.trans hnx))
    · refine ⟨⟨hx, s, (getElem?_setSlot_ne hxi).trans hs, j, by omega, hg, hP⟩, fun _ hrs => ?_⟩
      exact hxi (congrArg VmObjectRef.index (Except.ok.inj hrs))
  · exact ⟨⟨hx, s, hs, j, by omega, hg, hP⟩, fun _ => by simp⟩
  · refine ⟨⟨hx, s, by rw [List.getElem?_append_left hlt, hs], j, by omega, hg, hP⟩, ?_⟩
    intro _ hrs
    have hid : h.objects.length = x.index := congrArg VmObjectRef.index (Except.ok.inj hrs)
    omega

omit ht in
theorem placed (hrn : h.place obj = some (h', .ok c)) (hP : P obj) : Tracks 0 h' c P := by
  obtain ⟨i, r, t, g, -, hts, hg, hr, rfl⟩ | ⟨-, -, hr, -⟩ | ⟨-, -, hr, rfl⟩ :=
    place_cases hrn
  · cases hr
    have hgn : g ≤ u32Max := by
      rw [hg]
      exact Nat.le_of_lt_succ (Nat.mod_lt _ (Nat.succ_pos _))
    have hlt := slot_lt hts
    exact of_getObject hgn (getObject_eq_ok.mpr ⟨_, getElem?_setSlot_self hlt, rfl, rfl⟩) hP
  · cases hr
  · cases hr
    exact of_getObject (by decide : 1 ≤ u32Max)
      (getObject_eq_ok.mpr ⟨.fresh 1 obj, by simp, rfl, rfl⟩) hP

theorem setObject (hr : h.setObject c obj = .ok h') (hP : x = c → P obj) : Tracks k h' x P := by
  obtain ⟨hx, s, hs, j, hj, hg, hPs⟩ := ht
  obtain ⟨t, hrs, rfl⟩ := setObject_eq_ok.mp hr
  obtain ⟨hts, htg, -⟩ := resolve_eq_some_iff.mp hrs
  by_cases hxc : c.index = x.index
  · rw [hxc, hs] at hts
    cases hts
    have hlt : c.index < h.objects.length := hxc ▸ slot_lt hs
    refine ⟨hx, { s with object := some obj }, ?_, j, hj, hg, fun hj0 o ho => ?_⟩
    · rw [← hxc]
      exact getElem?_setSlot_self hlt
    have hxg : s.generation = x.generation := by
      rw [hg, hj0, Nat.add_zero, Nat.mod_eq_of_lt (Nat.lt_succ_of_le hx)]
    cases ho
    exact hP (VmObjectRef.ext hxc.symm (hxg.symm.trans htg))
  · exact ⟨hx, s, (getElem?_setSlot_ne hxc).trans hs, j, hj, hg, hPs⟩

end Tracks

end Galfus.PrivateHeap
