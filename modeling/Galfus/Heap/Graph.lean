import Galfus.Graph.TrialDeletion
import Galfus.Heap.Collector

/-! # The object graph of a heap

A slot refers to the slots that its children resolve to by generation. The
collector's passes change colours and edge counts only, so they keep the shape
of the heap and with it this graph.
-/

namespace Galfus

open Graph

namespace HeapSlot

/-- What a slot keeps while the collector recolours and recounts it. -/
def shape (s : HeapSlot) : ℕ × ℕ × Option HeapObject := (s.generation, s.anchors, s.object)

@[simp] theorem shape_paint (c : GcColor) (s : HeapSlot) : (s.paint c).shape = s.shape := rfl

@[simp] theorem shape_incEdges (s : HeapSlot) : s.incEdges.shape = s.shape := rfl

@[simp] theorem shape_decEdges (s : HeapSlot) : s.decEdges.shape = s.shape := rfl

theorem shape_eq_iff {s t : HeapSlot} : s.shape = t.shape ↔
    s.generation = t.generation ∧ s.anchors = t.anchors ∧ s.object = t.object := by
  simp [shape]

theorem children_eq_of_shape {s t : HeapSlot} (h : s.shape = t.shape) :
    s.children = t.children := by
  unfold children
  rw [(shape_eq_iff.mp h).2.2]

end HeapSlot

namespace PrivateHeap

variable {h h' h'' : PrivateHeap} {i j : ℕ} {s t : HeapSlot}

theorem slot_lt (hs : h.objects[i]? = some s) : i < h.objects.length :=
  (List.getElem?_eq_some_iff.mp hs).1

theorem exists_slot (hi : i < h.objects.length) : ∃ s, h.objects[i]? = some s :=
  ⟨_, List.getElem?_eq_getElem hi⟩

def childrenAt (h : PrivateHeap) (i : ℕ) : List VmObjectRef :=
  (h.objects[i]?).elim [] HeapSlot.children

/-- A reference whose slot still has its generation, whether or not it holds an object. -/
def Current (h : PrivateHeap) (c : VmObjectRef) : Prop :=
  (h.objects[c.index]?).map HeapSlot.generation = some c.generation

instance (h : PrivateHeap) : DecidablePred h.Current :=
  fun c => inferInstanceAs (Decidable ((h.objects[c.index]?).map _ = some c.generation))

theorem Current.eq_of_index {c d : VmObjectRef} (hc : h.Current c) (hd : h.Current d)
    (hi : d.index = c.index) : d = c :=
  VmObjectRef.ext hi (Option.some.inj (hd.symm.trans (by rw [hi]; exact hc)))

/-- The slots that the object in slot `i` refers to, with multiplicity. -/
def succ (h : PrivateHeap) (i : ℕ) : List ℕ :=
  ((h.childrenAt i).filter (h.Current ·)).map VmObjectRef.index

def Live (h : PrivateHeap) (i : ℕ) : Prop :=
  ∃ s, h.objects[i]? = some s ∧ s.object.isSome

def colorAt (h : PrivateHeap) (i : ℕ) : GcColor := (h.objects[i]?).elim .black HeapSlot.color

def edgesAt (h : PrivateHeap) (i : ℕ) : ℕ := (h.objects[i]?).elim 0 HeapSlot.edges

def anchorsAt (h : PrivateHeap) (i : ℕ) : ℕ := (h.objects[i]?).elim 0 HeapSlot.anchors

/-- The colours and edge counts, as the graph algorithms see them. -/
def marking (h : PrivateHeap) : Marking ℕ GcColor := ⟨h.colorAt, h.edgesAt⟩

/-- Every reference held by an object points into the table: references come from
`alloc`, and the table never shrinks. -/
def InRange (h : PrivateHeap) : Prop :=
  ∀ i, ∀ c ∈ h.childrenAt i, c.index < h.objects.length

section

variable (hs : h.objects[i]? = some s)
include hs

theorem colorAt_eq : h.colorAt i = s.color := by
  simp [colorAt, hs]

theorem edgesAt_eq : h.edgesAt i = s.edges := by
  simp [edgesAt, hs]

theorem anchorsAt_eq : h.anchorsAt i = s.anchors := by
  simp [anchorsAt, hs]

theorem childrenAt_eq : h.childrenAt i = s.children := by
  simp [childrenAt, hs]

theorem live_iff : h.Live i ↔ s.object.isSome := by
  simp [Live, hs]

end

theorem Live.lt (hl : h.Live i) : i < h.objects.length := by
  obtain ⟨s, hs, -⟩ := hl
  exact slot_lt hs

theorem mem_succ_iff : j ∈ h.succ i ↔ ∃ c ∈ h.childrenAt i, h.Current c ∧ c.index = j := by
  simp [succ, and_assoc]

theorem live_of_mem_succ (hj : j ∈ h.succ i) : h.Live i := by
  obtain ⟨c, hc, -⟩ := mem_succ_iff.mp hj
  cases hs : h.objects[i]? with
  | none => simp [childrenAt, hs] at hc
  | some s =>
    cases ho : s.object with
    | none => simp [childrenAt, hs, HeapSlot.children, ho] at hc
    | some o => exact ⟨s, hs, by simp [ho]⟩

theorem Current.lt {c : VmObjectRef} (hc : h.Current c) : c.index < h.objects.length := by
  unfold Current at hc
  cases hs : h.objects[c.index]? with
  | none => simp [hs] at hc
  | some s => exact slot_lt hs

theorem closed_range_succ (h : PrivateHeap) :
    Closed h.succ (Finset.range h.objects.length : Set ℕ) := by
  intro i _ j hj
  obtain ⟨c, -, hc, rfl⟩ := mem_succ_iff.mp hj
  simpa using hc.lt

theorem resolve_eq_some_iff {c : VmObjectRef} : h.resolve c = some s ↔
    h.objects[c.index]? = some s ∧ s.generation = c.generation ∧ s.object.isSome := by
  simp [resolve, Option.filter_eq_some_iff]

theorem resolve_eq_none_of_not_current {c : VmObjectRef} (hc : ¬ h.Current c) :
    h.resolve c = none := by
  cases hr : h.resolve c with
  | none => rfl
  | some s =>
    obtain ⟨hs, hg, -⟩ := resolve_eq_some_iff.mp hr
    exact absurd (by simp [Current, hs, hg]) hc

theorem getObject_eq_ok {x : VmObjectRef} {o : HeapObject} : h.getObject x = .ok o ↔
    ∃ s, h.objects[x.index]? = some s ∧ s.generation = x.generation ∧ s.object = some o := by
  unfold getObject
  cases hr : h.resolve x with
  | none =>
    simp only [Option.bind_none, reduceCtorEq, false_iff]
    rintro ⟨s, hs, hg, ho⟩
    simp [resolve_eq_some_iff.mpr ⟨hs, hg, by simp [ho]⟩] at hr
  | some s =>
    obtain ⟨hs, hg, ho⟩ := resolve_eq_some_iff.mp hr
    obtain ⟨o', ho⟩ := Option.isSome_iff_exists.mp ho
    simp [hs, hg, ho]

theorem setObject_eq_ok {x : VmObjectRef} {o : HeapObject} : h.setObject x o = .ok h' ↔
    ∃ s, h.resolve x = some s ∧ h' = h.setSlot x.index { s with object := some o } := by
  unfold setObject
  cases h.resolve x with
  | none => simp
  | some s => simp [eq_comm]

theorem getElem?_setSlot (h : PrivateHeap) (i j : ℕ) (s : HeapSlot) : (h.setSlot i s).objects[j]? =
      if i = j ∧ i < h.objects.length then some s else h.objects[j]? := by
  simp only [setSlot, List.getElem?_set]
  split
  · rename_i hij
    subst hij
    by_cases hi : i < h.objects.length
    · simp [hi]
    · simp [hi]
  · rename_i hij
    simp [hij]

@[simp] theorem length_setSlot (h : PrivateHeap) (i : ℕ) (s : HeapSlot) :
    (h.setSlot i s).objects.length = h.objects.length := by
  simp [setSlot]

theorem getElem?_setSlot_self (hi : i < h.objects.length) :
    (h.setSlot i s).objects[i]? = some s := by
  rw [getElem?_setSlot, if_pos ⟨rfl, hi⟩]

theorem getElem?_setSlot_ne (hij : i ≠ j) : (h.setSlot i s).objects[j]? = h.objects[j]? := by
  simp [getElem?_setSlot, hij]

/-- The heaps agree but for the colours and edge counts of their slots. -/
structure SameShape (h h' : PrivateHeap) : Prop where
  shape : h'.objects.map HeapSlot.shape = h.objects.map HeapSlot.shape
  rest : h' = { h with objects := h'.objects }

namespace SameShape

theorem refl (h : PrivateHeap) : SameShape h h := ⟨rfl, rfl⟩

theorem trans (a : SameShape h h') (b : SameShape h' h'') : SameShape h h'' where
  shape := b.shape.trans a.shape
  rest := by
    rw [b.rest, a.rest]

theorem setSlot (hs : h.objects[i]? = some s) (ht : t.shape = s.shape) :
    SameShape h (h.setSlot i t) where
  shape := by
    refine List.ext_getElem? fun j => ?_
    simp only [List.getElem?_map, getElem?_setSlot]
    split
    · rename_i hij
      obtain ⟨rfl, -⟩ := hij
      simp [hs, ht]
    · rfl
  rest := rfl

variable (a : SameShape h h')

include a

theorem length : h'.objects.length = h.objects.length := by
  simpa using congrArg List.length a.shape

theorem roots : h'.roots = h.roots := by rw [a.rest]

theorem map_shape (i : ℕ) :
    (h'.objects[i]?).map HeapSlot.shape = (h.objects[i]?).map HeapSlot.shape := by
  simpa using congrArg (fun l => l[i]?) a.shape

theorem slot (hs : h.objects[i]? = some s) : ∃ t, h'.objects[i]? = some t ∧ t.shape = s.shape := by
  have := a.map_shape i
  rw [hs] at this
  simpa using this

theorem slot' (hs : h'.objects[i]? = some s) : ∃ t, h.objects[i]? = some t ∧ t.shape = s.shape := by
  have := a.map_shape i
  rw [hs] at this
  simpa using this.symm

theorem childrenAt (i : ℕ) : h'.childrenAt i = h.childrenAt i := by
  cases hs : h.objects[i]? with
  | none =>
    have := a.map_shape i
    rw [hs] at this
    simp at this
    simp [PrivateHeap.childrenAt, hs, this]
  | some s =>
    obtain ⟨t, ht, he⟩ := a.slot hs
    rw [childrenAt_eq ht, childrenAt_eq hs, HeapSlot.children_eq_of_shape he]

theorem current (c : VmObjectRef) : h'.Current c ↔ h.Current c := by
  have hg : ∀ g : PrivateHeap, (g.objects[c.index]?).map HeapSlot.generation =
      ((g.objects[c.index]?).map HeapSlot.shape).map Prod.fst := by
    intro g
    simp only [Option.map_map]
    rfl
  unfold Current
  rw [hg, hg, a.map_shape]

theorem succ : h'.succ = h.succ := by
  funext i
  simp only [PrivateHeap.succ, a.childrenAt, a.current]

theorem live (i : ℕ) : h'.Live i ↔ h.Live i := by
  constructor
  · rintro ⟨s, hs, ho⟩
    obtain ⟨t, ht, he⟩ := a.slot' hs
    exact ⟨t, ht, by rw [(HeapSlot.shape_eq_iff.mp he).2.2]; exact ho⟩
  · rintro ⟨s, hs, ho⟩
    obtain ⟨t, ht, he⟩ := a.slot hs
    exact ⟨t, ht, by rw [(HeapSlot.shape_eq_iff.mp he).2.2]; exact ho⟩

theorem anchorsAt (i : ℕ) : h'.anchorsAt i = h.anchorsAt i := by
  cases hs : h.objects[i]? with
  | none =>
    have := a.map_shape i
    rw [hs] at this
    simp at this
    simp [PrivateHeap.anchorsAt, hs, this]
  | some s =>
    obtain ⟨t, ht, he⟩ := a.slot hs
    rw [anchorsAt_eq ht, anchorsAt_eq hs, (HeapSlot.shape_eq_iff.mp he).2.1]

theorem inRange (hr : h.InRange) : h'.InRange := by
  intro i c hc
  rw [a.childrenAt] at hc
  rw [a.length]
  exact hr i c hc

end SameShape

theorem marking_setSlot (hs : h.objects[i]? = some s) (t : HeapSlot) : (h.setSlot i t).marking =
      ⟨Function.update h.colorAt i t.color, Function.update h.edgesAt i t.edges⟩ := by
  have hi := slot_lt hs
  unfold marking
  rw [Marking.mk.injEq]
  constructor
  · ext j
    by_cases hij : j = i
    · subst hij
      simp [colorAt, getElem?_setSlot_self hi]
    · simp [colorAt, getElem?_setSlot_ne (Ne.symm hij), hij]
  · ext j
    by_cases hij : j = i
    · subst hij
      simp [edgesAt, getElem?_setSlot_self hi]
    · simp [edgesAt, getElem?_setSlot_ne (Ne.symm hij), hij]

theorem marking_paint (hs : h.objects[i]? = some s) (c : GcColor) :
    (h.setSlot i (s.paint c)).marking = h.marking.shade c i := by
  rw [marking_setSlot hs, show (s.paint c).edges = h.edgesAt i from (edgesAt_eq hs).symm,
    Function.update_eq_self]
  rfl

theorem marking_recount (hs : h.objects[i]? = some s) {τ : ℕ → ℕ} (hc : t.color = s.color)
    (he : t.edges = τ s.edges) : (h.setSlot i t).marking = h.marking.touch τ i := by
  rw [marking_setSlot hs, hc, he, ← colorAt_eq hs, ← edgesAt_eq hs, Function.update_eq_self]
  rfl

end PrivateHeap

end Galfus
