import Galfus.Heap.Balance

/-! # Balanced allocation

An allocation keeps the balance if the collection that may be due restores what it
discounts: no root is drained after one that reaches it, and every root is held up by
an anchored object or by one that no root reaches. Edges that an instruction retained
before its allocation do no harm, as the objects are anchored by registers.
-/

namespace Galfus.PrivateHeap

open Graph

variable {h h' h₁ h₂ : PrivateHeap} {i : ℕ} {s : HeapSlot} {o : HeapObject} {r : VmObjectRef}
  {A B : Multiset VmObjectRef} {ord : CollectOrder}

namespace Balanced

variable (hb : h.Balanced A B)
include hb

theorem inRange : h.InRange := by
  intro i c hc
  cases hs : h.objects[i]? with
  | none => simp [childrenAt, hs] at hc
  | some s =>
    rw [childrenAt_eq hs] at hc
    have hp := occurrences_pos.mpr ⟨s, List.mem_of_getElem? hs, hc⟩
    exact (hb.alive c (.inr (.inr hp))).2.lt

theorem edgesAt (hs : h.objects[i]? = some s) (ho : s.object.isSome) :
    h.edgesAt i = refs h.succ (Finset.range h.objects.length) i + B.count ⟨i, s.generation⟩ := by
  rw [edgesAt_eq hs, hb.edges ⟨i, s.generation⟩ s (resolve_eq_some_iff.mpr ⟨hs, rfl, ho⟩),
    occurrences_eq_refs hs]

theorem covered : h.Covered := by
  rintro i ⟨s, hs, ho⟩
  rw [hb.edgesAt hs ho]
  exact Nat.le_add_right _ _

theorem sameShape (a : SameShape h h') (he : ∀ u, h.Live u → h'.edgesAt u = h.edgesAt u) :
    h'.Balanced A B := by
  have hsl : ∀ r t, h'.resolve r = some t →
      ∃ s, h.resolve r = some s ∧ t.anchors = s.anchors ∧ t.edges = s.edges := by
    intro r t hr
    obtain ⟨ht, hg, ho⟩ := resolve_eq_some_iff.mp hr
    obtain ⟨s, hs, hst⟩ := a.slot' ht
    obtain ⟨hsg, hsa, hso⟩ := HeapSlot.shape_eq_iff.mp hst
    have hsm : s.object.isSome := hso ▸ ho
    refine ⟨s, resolve_eq_some_iff.mpr ⟨hs, hsg.trans hg, hsm⟩, hsa.symm, ?_⟩
    have := he r.index ⟨s, hs, hsm⟩
    rwa [edgesAt_eq ht, edgesAt_eq hs] at this
  constructor
  · exact hb.freeListed.freesTo ⟨_, .of_sameShape a⟩
  · intro r t hr
    obtain ⟨s, hs, hta, -⟩ := hsl r t hr
    exact hta.trans (hb.anchors r s hs)
  · intro r t hr
    obtain ⟨s, hs, -, hte⟩ := hsl r t hr
    rw [a.occurrences]
    exact hte.trans (hb.edges r s hs)
  · intro r hr
    rw [a.occurrences] at hr
    rw [Alive, a.current, a.live]
    exact hb.alive r hr

end Balanced

/-- A collection on this heap restores what it discounts. -/
structure Restores (ord : CollectOrder) (h : PrivateHeap) : Prop where
  buffered : h.Buffered
  apart : h.RootsApart ord.mark
  grounded : ∀ r ∈ h.roots, h.Grounded (h.reachedFrom (ord.mark.drain h.roots)) r

theorem Balanced.collectCycles (hb : h.Balanced A B) (hr : h.Restores ord) :
    ∃ h', h.collectCycles ord = some h' ∧ h'.Balanced A B := by
  obtain ⟨h', hrn, a, hg, -⟩ :=
    collectCycles_apart ord hb.inRange hr.buffered hb.covered hr.apart
  refine ⟨h', hrn, (hb.putRoots ∅).sameShape a fun u hu => ?_⟩
  exact (hg hr.grounded u hu).1

/-- `h₁` is `h` with more edges on some objects. -/
structure Gains (h h₁ : PrivateHeap) : Prop extends SameShape h h₁ where
  color : ∀ i, h₁.colorAt i = h.colorAt i
  edges : ∀ i, h.edgesAt i ≤ h₁.edgesAt i

theorem Gains.buffered (a : Gains h h₁) (hb : h.Buffered) : h₁.Buffered := by
  constructor
  · intro i hi
    rw [a.roots] at hi
    obtain ⟨s, hs, ho, hc, ha, he⟩ := hb.root i hi
    obtain ⟨t, ht, hts⟩ := a.slot hs
    obtain ⟨-, hta, hto⟩ := HeapSlot.shape_eq_iff.mp hts
    have hcl := a.color i
    have hed := a.edges i
    rw [colorAt_eq ht, colorAt_eq hs, hc] at hcl
    rw [edgesAt_eq ht, edgesAt_eq hs] at hed
    exact ⟨t, ht, hto ▸ ho, hcl, hta.trans ha, by omega⟩
  · intro i t ht ho hi
    rw [a.roots] at hi
    obtain ⟨s, hs, hst⟩ := a.slot' ht
    have hcl := a.color i
    rw [colorAt_eq ht, colorAt_eq hs] at hcl
    rw [hcl]
    exact hb.other i s hs ((HeapSlot.shape_eq_iff.mp hst).2.2 ▸ ho) hi

theorem Gains.restores (a : Gains h h₁) (hr : h.Restores ord) : h₁.Restores ord := by
  have hlt : ∀ r ∈ ord.mark.drain h.roots, r < h.objects.length :=
    fun r hr' => hr.buffered.lt ((ord.mark.mem_drain _ r).mp hr')
  have hrc : h₁.reachedFrom (ord.mark.drain h.roots) = h.reachedFrom (ord.mark.drain h.roots) := by
    ext u
    rw [mem_reachedFrom hlt, mem_reachedFrom fun r hr' => a.length ▸ hlt r hr', a.succ]
  refine ⟨a.buffered hr.buffered, ?_, fun r hrt => ?_⟩
  · rw [RootsApart, a.roots, a.succ]
    exact hr.apart
  · rw [a.roots] at hrt ⊢
    rw [hrc]
    obtain ⟨x, hx, hs, hxr⟩ := hr.grounded r hrt
    refine ⟨x, hx, ?_, a.succ ▸ hxr⟩
    rw [a.anchorsAt, a.succ]
    rcases hs with hs | hs
    · exact .inl hs
    · exact .inr (hs.trans_le (a.edges x))

theorem Buffered.retainEdge (hb : h.Buffered) (hr : h.resolve r = some s) (ha : 0 < s.anchors)
    (hrn : h.retainEdge r = .ok h') : Gains h h' := by
  obtain ⟨hs, -, ho⟩ := resolve_eq_some_iff.mp hr
  have hrt : r.index ∉ h.roots := by
    intro hm
    obtain ⟨t, ht, -, -, hta, -⟩ := hb.root r.index hm
    rw [hs] at ht
    cases ht
    omega
  have hbl := hb.other r.index s hs ho hrt
  have hlt := slot_lt hs
  have hh' : h' = h.setSlot r.index (s.incEdges.paint .black) := by
    simp only [PrivateHeap.retainEdge, hr, Except.ok.injEq] at hrn
    rw [← hrn]
    show { h.setSlot r.index _ with roots := h.roots.erase r.index } = _
    rw [Finset.erase_eq_of_notMem hrt]
    rfl
  subst hh'
  refine ⟨.setSlot hs rfl, fun i => ?_, fun i => ?_⟩
  · by_cases hi : r.index = i
    · subst hi
      rw [colorAt_eq (getElem?_setSlot_self hlt), colorAt_eq hs, hbl]
      rfl
    · simp [colorAt, getElem?_setSlot_ne hi]
  · by_cases hi : r.index = i
    · subst hi
      rw [edgesAt_eq (getElem?_setSlot_self hlt), edgesAt_eq hs]
      have := s.edges_le
      show s.edges ≤ satSucc s.edges
      unfold satSucc
      omega
    · simp [edgesAt, getElem?_setSlot_ne hi]

/-- The collection that an allocation may start does no harm: none is due, it has nothing
to do, or it restores what it discounts. -/
def Harmless (ord : CollectOrder) (h : PrivateHeap) : Prop :=
  h.allocationsSinceRelease + 1 < 500 ∨ h.roots = ∅ ∨ h.Restores ord

theorem Balanced.collectIfDue (hb : h.Balanced A B) (hh : h.Harmless ord) (q : ThreadQuota)
    (hrn : (h.book q (h.allocationsSinceRelease + 1)).collectIfDue ord = some h₁) :
    h₁.Balanced A B := by
  have hb₀ : (h.book q (h.allocationsSinceRelease + 1)).Balanced A B := hb.congr rfl rfl
  unfold PrivateHeap.collectIfDue at hrn
  split at hrn
  · rename_i hd
    obtain ⟨h₂, hc, hrs⟩ := Option.bind_eq_some_iff.mp hrn
    cases hrs
    refine .congr (h := h₂) ?_ rfl rfl
    rcases hh with hh | hh | hh
    · have : 500 ≤ h.allocationsSinceRelease + 1 := hd
      omega
    · have hs : h.book q (h.allocationsSinceRelease + 1) = h₂ := by
        simpa [PrivateHeap.collectCycles, book, hh] using hc
      exact hs ▸ hb₀
    · have hr : (h.book q (h.allocationsSinceRelease + 1)).Restores ord :=
        ⟨⟨hh.buffered.root, hh.buffered.other⟩, hh.apart, hh.grounded⟩
      obtain ⟨h₃, hc', hb₃⟩ := hb₀.collectCycles hr
      rw [hc] at hc'
      cases hc'
      exact hb₃
  · cases hrn
    exact hb₀

/-- An allocation whose collection does no harm. The object is anchored by its result. -/
theorem Balanced.alloc (hb : h.Balanced A (o.getChildren + B)) (hh : h.Harmless ord)
    (hr : h.alloc ord o = some (h', .ok r)) : h'.Balanced (r ::ₘ A) B := by
  obtain ⟨_, -, hrs, -⟩ | ⟨q, m, h₁, -, hd, -, hp⟩ := alloc_cases hr
  · cases hrs
  · exact (hb.collectIfDue hh q hd).place hp

end Galfus.PrivateHeap
