import Mathlib.Order.Lattice.Nat
import Galfus.Heap.Basic

/-! # The cycle collector and allocation

The collector buffers possible cycle roots and deletes references on trial:
`markRoots` discounts the references inside of what the roots reach, `scanRoots`
restores what is still referenced, and `collectRoots` sweeps the rest. Reading a
slot outside of the table panics in the source, which is `none` here.
-/

namespace Galfus

/-- The order in which a hash set hands out its elements. -/
structure DrainOrder (α : Type) where
  drain : Finset α → List α
  mem_drain : ∀ s a, a ∈ drain s ↔ a ∈ s
  nodup : ∀ s, (drain s).Nodup

def DrainOrder.ascending : DrainOrder ℕ where
  drain s := (List.range (s.sup id + 1)).filter (· ∈ s)
  mem_drain s i := by
    simp only [List.mem_filter, List.mem_range, decide_eq_true_eq, and_iff_right_iff_imp]
    exact fun hi => Nat.lt_succ_of_le (Finset.le_sup (f := id) hi)
  nodup _ := List.nodup_range.filter _

def DrainOrder.byIndex : DrainOrder VmObjectRef where
  drain s := ((List.range (s.sup VmObjectRef.index + 1) ×ˢ
    List.range (s.sup VmObjectRef.generation + 1)).map fun p => ⟨p.1, p.2⟩).filter (· ∈ s)
  mem_drain s r := by
    simp only [List.mem_filter, List.mem_map, decide_eq_true_eq, and_iff_right_iff_imp]
    intro hr
    have hi : r.index ≤ s.sup VmObjectRef.index := Finset.le_sup hr
    have hg : r.generation ≤ s.sup VmObjectRef.generation := Finset.le_sup hr
    exact ⟨(r.index, r.generation), List.pair_mem_product.mpr ⟨List.mem_range.mpr (by omega),
      List.mem_range.mpr (by omega)⟩, rfl⟩
  nodup s := by
    refine List.Nodup.filter _ ((List.nodup_range.product List.nodup_range).map ?_)
    rintro ⟨i, g⟩ ⟨i', g'⟩ heq
    cases heq
    rfl

structure CollectOrder where
  mark : DrainOrder ℕ
  scan : DrainOrder ℕ
  sweep : DrainOrder ℕ

def CollectOrder.ascending : CollectOrder := ⟨.ascending, .ascending, .ascending⟩

def HeapSlot.children (s : HeapSlot) : List VmObjectRef :=
  match s.object with
  | some obj => obj.getChildren
  | none => []

namespace PrivateHeap

def modifySlot (h : PrivateHeap) (i : ℕ) (f : HeapSlot → HeapSlot) : Option PrivateHeap := do
  let s ← h.objects[i]?
  some (h.setSlot i (f s))

/-- The loop over the children whose slot still has the generation they refer to. -/
def forEachChild (f : PrivateHeap → ℕ → Option PrivateHeap) (h : PrivateHeap)
    (children : List VmObjectRef) : Option PrivateHeap :=
  children.foldlM (fun h c => do
    let s ← h.objects[c.index]?
    if s.generation = c.generation then f h c.index else some h) h

def markGrayBody (markGray : PrivateHeap → ℕ → Option PrivateHeap) (h : PrivateHeap) (i : ℕ) :
    Option PrivateHeap := do
  let s ← h.objects[i]?
  if s.color = .gray then some h
  else
    (h.setSlot i (s.paint .gray)).forEachChild (fun h j => do
      let h ← h.modifySlot j .decEdges
      markGray h j) s.children

def markGray : PrivateHeap → ℕ → Option PrivateHeap :=
  Fuel.runWith markGrayBody (fun _ _ => none) fun h => h.objects.length + 2

def markRoot (h : PrivateHeap) (i : ℕ) : Option PrivateHeap := do
  let s ← h.objects[i]?
  if s.color = .purple ∧ s.anchors = 0 ∧ 0 < s.edges then
    let h ← h.markGray i
    some (h.addRoot i)
  else
    let h := h.setSlot i (s.paint .black)
    if s.anchors = 0 ∧ s.edges = 0 then some (h.releaseInternal i) else some h

def markRoots (ord : DrainOrder ℕ) (h : PrivateHeap) : Option PrivateHeap :=
  (ord.drain h.roots).foldlM markRoot { h with roots := ∅ }

def scanBlackBody (scanBlack : PrivateHeap → ℕ → Option PrivateHeap) (h : PrivateHeap) (i : ℕ) :
    Option PrivateHeap := do
  let s ← h.objects[i]?
  (h.setSlot i (s.paint .black)).forEachChild (fun h j => do
    let t ← h.objects[j]?
    let h := h.setSlot j t.incEdges
    if t.color = .black then some h else scanBlack h j) s.children

def scanBlack : PrivateHeap → ℕ → Option PrivateHeap :=
  Fuel.runWith scanBlackBody (fun _ _ => none) fun h => h.objects.length + 2

def scanBody (scan : PrivateHeap → ℕ → Option PrivateHeap) (h : PrivateHeap) (i : ℕ) :
    Option PrivateHeap := do
  let s ← h.objects[i]?
  if s.color = .gray then
    if 0 < s.anchors ∨ 0 < s.edges then h.scanBlack i
    else (h.setSlot i (s.paint .white)).forEachChild scan s.children
  else some h

def scan : PrivateHeap → ℕ → Option PrivateHeap :=
  Fuel.runWith scanBody (fun _ _ => none) fun h => h.objects.length + 2

def scanRoots (ord : DrainOrder ℕ) (h : PrivateHeap) : Option PrivateHeap :=
  (ord.drain h.roots).foldlM scan h

def collectWhiteBody (collectWhite : PrivateHeap → ℕ → Option PrivateHeap) (h : PrivateHeap)
    (i : ℕ) : Option PrivateHeap := do
  let s ← h.objects[i]?
  match s.color, s.object with
  | .white, some obj => (h.discard i s obj).forEachChild collectWhite obj.getChildren
  | _, _ => some h

def collectWhite : PrivateHeap → ℕ → Option PrivateHeap :=
  Fuel.runWith collectWhiteBody (fun _ _ => none) fun h => h.objects.length + 2

/-- One root of the sweep. Its colour is set to black before `collectWhite` looks at it. -/
def collectRoot (h : PrivateHeap) (i : ℕ) : Option PrivateHeap := do
  let h ← h.modifySlot i (.paint .black)
  h.collectWhite i

def collectRoots (ord : DrainOrder ℕ) (h : PrivateHeap) : Option PrivateHeap :=
  (ord.drain h.roots).foldlM collectRoot { h with roots := ∅ }

def collectCycles (ord : CollectOrder) (h : PrivateHeap) : Option PrivateHeap :=
  if h.roots = ∅ then some h
  else do
    let h ← h.markRoots ord.mark
    let h ← h.scanRoots ord.scan
    h.collectRoots ord.sweep

def collectIfDue (ord : CollectOrder) (h : PrivateHeap) : Option PrivateHeap :=
  if 500 ≤ h.allocationsSinceRelease then do
    let h ← h.collectCycles ord
    some { h with allocationsSinceRelease := 0 }
  else some h

def place (h : PrivateHeap) (obj : HeapObject) :
    Option (PrivateHeap × Except VmError VmObjectRef) :=
  match h.freeSlots with
  | i :: rest => do
    let s ← h.objects[i]?
    let generation := (s.generation + 1) % (u32Max + 1)
    some ({ h.setSlot i (.fresh generation obj) with freeSlots := rest }, .ok ⟨i, generation⟩)
  | [] =>
    if u32Max ≤ h.objects.length then some (h, .error .idCounterExhausted)
    else some ({ h with objects := h.objects ++ [.fresh 1 obj] }, .ok ⟨h.objects.length, 1⟩)

def alloc (ord : CollectOrder) (h : PrivateHeap) (obj : HeapObject) :
    Option (PrivateHeap × Except VmError VmObjectRef) :=
  match h.quota.tryReserveHeap 1 (obj.heapBytes h.sizes) with
  | .error failure => some (h, .error (.resourceLimitExceeded failure))
  | .ok quota => do
    let h := { h with quota, allocationsSinceRelease := h.allocationsSinceRelease + 1 }
    let h ← h.collectIfDue ord
    h.place obj

end PrivateHeap

end Galfus
