import Mathlib.Data.Finset.Card
import Galfus.Heap.Object
import Galfus.Recursion.Fuel

/-! # The private heap

Slots with generations, anchor counts (references from registers and globals),
edge counts (references from heap objects) and collector colours, with the
operations that look up, retain, release and free objects. Dropping the last
reference to an object frees it and releases the references it held.
-/

namespace Galfus

inductive GcColor where
  | black
  | gray
  | white
  | purple
  deriving DecidableEq, Repr

structure HeapSlot where
  generation : ℕ
  anchors : ℕ
  edges : ℕ
  color : GcColor
  object : Option HeapObject
  anchors_le : anchors ≤ u32Max
  edges_le : edges ≤ u32Max
  deriving DecidableEq

/-- `u32::saturating_add(1)`. -/
def satSucc (n : ℕ) : ℕ := min (n + 1) u32Max

theorem satSucc_le (n : ℕ) : satSucc n ≤ u32Max := min_le_right _ _

theorem satSucc_of_lt {n : ℕ} (h : n < u32Max) : satSucc n = n + 1 := by
  unfold satSucc; omega

namespace HeapSlot

def fresh (generation : ℕ) (obj : HeapObject) : HeapSlot :=
  ⟨generation, 1, 0, .black, some obj, by decide, by decide⟩

def paint (c : GcColor) (s : HeapSlot) : HeapSlot := { s with color := c }

def incAnchors (s : HeapSlot) : HeapSlot :=
  { s with anchors := satSucc s.anchors, anchors_le := satSucc_le _ }

def decAnchors (s : HeapSlot) : HeapSlot :=
  { s with anchors := s.anchors - 1, anchors_le := (Nat.sub_le _ _).trans s.anchors_le }

def incEdges (s : HeapSlot) : HeapSlot :=
  { s with edges := satSucc s.edges, edges_le := satSucc_le _ }

def decEdges (s : HeapSlot) : HeapSlot :=
  { s with edges := s.edges - 1, edges_le := (Nat.sub_le _ _).trans s.edges_le }

def vacate (s : HeapSlot) : HeapSlot := { s with object := none, color := .black }

def uncount (s : HeapSlot) : HeapSlot :=
  { s with anchors := 0, edges := 0, anchors_le := by decide, edges_le := by decide }

end HeapSlot

/-- A heap. `freeSlots` is the stack of the source with its top first. -/
structure PrivateHeap where
  objects : List HeapSlot
  freeSlots : List ℕ
  roots : Finset ℕ
  allocationsSinceRelease : ℕ
  pendingAdapterHandleDrops : List AdapterHandleId
  quota : ThreadQuota
  sizes : TypeSizes
  deriving DecidableEq

namespace PrivateHeap

def new (quota : ThreadQuota) (sizes : TypeSizes) : PrivateHeap :=
  ⟨[], [], ∅, 0, [], quota, sizes⟩

variable (h : PrivateHeap) (r : VmObjectRef)

def setSlot (i : ℕ) (s : HeapSlot) : PrivateHeap :=
  { h with objects := h.objects.set i s }

/-- The slot that a reference resolves to: same generation, object present. -/
def resolve : Option HeapSlot :=
  h.objects[r.index]?.filter fun s => s.generation = r.generation ∧ s.object.isSome

def getObject : Except VmError HeapObject :=
  match (h.resolve r).bind HeapSlot.object with
  | some obj => .ok obj
  | none => .error .invalidObjectReference

/-- `get_object_mut` followed by an overwrite of the object. -/
def setObject (obj : HeapObject) : Except VmError PrivateHeap :=
  match h.resolve r with
  | some s => .ok (h.setSlot r.index { s with object := some obj })
  | none => .error .invalidObjectReference

/-- Take the object out of slot `i`: give its bytes back, put the slot on the
free list and queue an adapter handle for its drop. -/
def discard (i : ℕ) (s : HeapSlot) (obj : HeapObject) : PrivateHeap :=
  { h.setSlot i s.vacate with
    quota := h.quota.releaseHeap 1 (obj.heapBytes h.sizes)
    freeSlots := i :: h.freeSlots
    pendingAdapterHandleDrops := h.pendingAdapterHandleDrops ++ obj.handle?.toList }

def dropRoot (i : ℕ) : PrivateHeap := { h with roots := h.roots.erase i }

def addRoot (i : ℕ) : PrivateHeap := { h with roots := insert i h.roots }

def freeObject : Except VmError PrivateHeap :=
  match h.resolve r with
  | none => .error .invalidObjectReference
  | some s =>
    match s.object with
    | none => .error .invalidObjectReference
    | some obj => .ok ((h.dropRoot r.index).discard r.index s.uncount obj)

def retainAnchor : Except VmError PrivateHeap :=
  match h.resolve r with
  | none => .error .invalidObjectReference
  | some s => .ok ((h.setSlot r.index (s.incAnchors.paint .black)).dropRoot r.index)

def retainEdge : Except VmError PrivateHeap :=
  match h.resolve r with
  | none => .error .invalidObjectReference
  | some s => .ok ((h.setSlot r.index (s.incEdges.paint .black)).dropRoot r.index)

/-- `let _ = ...`: an error leaves the heap as it was. -/
def orKeep : Except VmError PrivateHeap → PrivateHeap
  | .ok h' => h'
  | .error _ => h

/-- Buffer slot `i` as a possible root of a garbage cycle. -/
def makePurple (i : ℕ) (s : HeapSlot) : PrivateHeap :=
  (h.setSlot i (s.paint .purple)).addRoot i

/-- The body of `release_edge`, over the `release_internal` that it calls. -/
def releaseEdgeBody (internal : PrivateHeap → ℕ → PrivateHeap) (h : PrivateHeap) (r : VmObjectRef) :
    Except VmError PrivateHeap :=
  match h.resolve r with
  | none => .error .invalidObjectReference
  | some s =>
    let s := s.decEdges
    let h := h.setSlot r.index s
    if s.anchors = 0 ∧ s.edges = 0 then .ok (internal h r.index)
    else if s.anchors = 0 ∧ 0 < s.edges ∧ s.color ≠ .purple then .ok (h.makePurple r.index s)
    else .ok h

/-- The body of `release_internal`, over itself. -/
def releaseInternalBody (internal : PrivateHeap → ℕ → PrivateHeap) (h : PrivateHeap) (i : ℕ) :
    PrivateHeap :=
  match h.objects[i]? with
  | none => h
  | some s =>
    let h := h.dropRoot i
    match s.object with
    | none => h.setSlot i (s.paint .black)
    | some obj =>
      obj.getChildren.foldl (fun h c => h.orKeep (releaseEdgeBody internal h c)) (h.discard i s obj)

/-- The nesting is bounded by the number of objects, as each level frees one. -/
def releaseInternal : PrivateHeap → ℕ → PrivateHeap :=
  Fuel.runWith releaseInternalBody (fun h _ => h) fun h => h.objects.length + 1

def releaseEdge : Except VmError PrivateHeap :=
  releaseEdgeBody releaseInternal h r

def releaseAnchor : Except VmError PrivateHeap :=
  match h.resolve r with
  | none => .error .invalidObjectReference
  | some s =>
    let s := s.decAnchors
    let h := h.setSlot r.index s
    if s.anchors = 0 then
      if s.edges = 0 then .ok (h.releaseInternal r.index)
      else if s.color ≠ .purple then .ok (h.makePurple r.index s)
      else .ok h
    else .ok h

end PrivateHeap

end Galfus
