import Galfus.Exec.Basic
import Galfus.Heap.Collector
import Galfus.Vm.Machine

/-! # Deep copies

`Copy` clones the strong closure of a value: it discovers the closure, allocates a
placeholder for each object in it, and then fills the placeholders with the copied
values. Weak fields keep a reference only if its target was copied.
-/

namespace Galfus

def StructLayout.isWeak (layout : StructLayout) (index : ℕ) : Bool :=
  (layout.fields[index]?).any fun field => field.ownership = .weak

namespace VirtualMachine

variable (vm : VirtualMachine)

/-- The values of an object that its copy clones as well. -/
def strongSlots : HeapObject → Except VmError (List VmValue)
  | .struct moduleId layoutIdx fields => do
    let layout ← vm.structLayout moduleId layoutIdx
    .ok ((fields.data.zipIdx.filter fun p => !layout.isWeak p.2).map Prod.fst)
  | obj => .ok obj.slots

/-- The closure found so far, and the references that are still to be visited. -/
abbrev CopyFrontier := Finset VmObjectRef × List VmObjectRef

def enqueueCopyTarget (h : PrivateHeap) (front : CopyFrontier) (v : VmValue) :
    Except VmError CopyFrontier :=
  match v with
  | .object r => do
    let _ ← h.getObject r
    if r ∈ front.1 then .ok front else .ok (insert r front.1, front.2 ++ [r])
  | _ => .ok front

/-- One round of the search: visit the first pending reference. -/
def visitCopyTarget (h : PrivateHeap) (closure : Finset VmObjectRef) (r : VmObjectRef)
    (pending : List VmObjectRef) : Except VmError CopyFrontier := do
  let obj ← h.getObject r
  let targets ← vm.strongSlots obj
  targets.foldlM (enqueueCopyTarget h) (closure, pending)

/-- The search loop; it visits no reference twice, so the size of the table bounds it. -/
def discoverLoop (h : PrivateHeap) : ℕ → CopyFrontier → Option (Except VmError (Finset VmObjectRef))
  | 0, _ => none
  | _ + 1, (closure, []) => some (.ok closure)
  | n + 1, (closure, r :: pending) =>
    match vm.visitCopyTarget h closure r pending with
    | .error e => some (.error e)
    | .ok front => discoverLoop h n front

def discoverStrongCopyClosure (h : PrivateHeap) (root : VmObjectRef) :
    Option (Except VmError (Finset VmObjectRef)) :=
  vm.discoverLoop h (h.objects.length + 2) ({root}, [root])

/-- The object that stands for the copy of `obj` until it is filled. -/
def copyPlaceholder : HeapObject → Except VmError HeapObject
  | .struct moduleId layoutIdx fields => do
    let layout ← vm.structLayout moduleId layoutIdx
    if layout.fields.isEmpty then .error (.typeMismatch "copyable struct with fields")
    else .ok (.struct moduleId layoutIdx (.exact (List.replicate fields.data.length .null)))
  | .array moduleId elementTy _ => .ok (.array moduleId elementTy .empty)
  | .tuple _ => .ok (.tuple .empty)
  | .choice moduleId layoutIdx variantIdx _ => .ok (.choice moduleId layoutIdx variantIdx .null)
  | .adapterHandle handle => .ok (.adapterHandle handle)

end VirtualMachine

abbrev HeapExec := Exec VmError PrivateHeap

def PrivateHeap.allocM (ord : CollectOrder) (obj : HeapObject) : HeapExec VmObjectRef :=
  fun h => (h.alloc ord obj).map Prod.swap

abbrev CopyMap := List (VmObjectRef × VmObjectRef)

def CopyMap.get? (copied : CopyMap) (r : VmObjectRef) : Option VmObjectRef := List.lookup r copied

def copyStrongValue (copied : CopyMap) (v : VmValue) : Except VmError VmValue :=
  match v with
  | .object r =>
    match copied.get? r with
    | some c => .ok (.object c)
    | none => .error (.typeMismatch "object in copied strong closure")
  | _ => .ok v

def copyWeakValue (copied : CopyMap) (v : VmValue) : VmValue :=
  match v with
  | .object r => (copied.get? r).elim .null .object
  | _ => v

/-- Overwrite the placeholder `c` if `fill` accepts its shape. -/
def fillPlaceholder (c : VmObjectRef) (fill : HeapObject → Option HeapObject) (expected : String) :
    HeapExec PUnit := do
  let h ← Exec.get
  let current ← Exec.lift (h.getObject c)
  match fill current with
  | some obj => do
    let h' ← Exec.lift (h.setObject c obj)
    Exec.modify fun _ => h'
  | none => Exec.throw (.typeMismatch expected)

namespace VirtualMachine

variable (vm : VirtualMachine)

/-- Allocate a placeholder for each object, with the drain orders of the collections met. -/
def allocateCopyPlaceholders (ords : ℕ → CollectOrder) : List VmObjectRef → HeapExec CopyMap
  | [] => pure []
  | r :: rs => do
    let h ← Exec.get
    let obj ← Exec.lift (h.getObject r)
    let placeholder ← Exec.lift (vm.copyPlaceholder obj)
    let c ← PrivateHeap.allocM (ords 0) placeholder
    let rest ← allocateCopyPlaceholders (fun n => ords (n + 1)) rs
    pure ((r, c) :: rest)

def copyField (copied : CopyMap) (layout : StructLayout) (p : VmValue × ℕ) :
    Except VmError VmValue :=
  if layout.isWeak p.2 then .ok (copyWeakValue copied p.1) else copyStrongValue copied p.1

def fillCopy (copied : CopyMap) (r : VmObjectRef) : HeapExec PUnit := do
  let c ← Exec.lift ((copied.get? r).elim (.error (.typeMismatch "copied object")) .ok)
  let h ← Exec.get
  let obj ← Exec.lift (h.getObject r)
  match obj with
  | .struct moduleId layoutIdx fields => do
    let layout ← Exec.lift (vm.structLayout moduleId layoutIdx)
    let values ← Exec.lift (fields.data.zipIdx.mapM (copyField copied layout))
    fillPlaceholder c (fun
      | .struct m l _ => some (.struct m l (.grown vm.growth values))
      | _ => none) "Struct object"
  | .array _ _ elements => do
    let values ← Exec.lift (elements.data.mapM (copyStrongValue copied))
    fillPlaceholder c (fun
      | .array m e _ => some (.array m e (.grown vm.growth values))
      | _ => none) "Array object"
  | .tuple elements => do
    let values ← Exec.lift (elements.data.mapM (copyStrongValue copied))
    fillPlaceholder c (fun
      | .tuple _ => some (.tuple (.grown vm.growth values))
      | _ => none) "Tuple object"
  | .choice _ _ _ payload => do
    let value ← Exec.lift (copyStrongValue copied payload)
    fillPlaceholder c (fun
      | .choice m l k _ => some (.choice m l k value)
      | _ => none) "Choice object"
  | .adapterHandle _ => pure ()

def fillCopyPlaceholders (copied : CopyMap) (closure : List VmObjectRef) : HeapExec PUnit :=
  closure.forM (vm.fillCopy copied)

/-- `order` is the order in which the closure's hash set is iterated. -/
def deepCopyValue (order : DrainOrder VmObjectRef) (ords : ℕ → CollectOrder) (v : VmValue) :
    HeapExec VmValue :=
  match v with
  | .object r => do
    let h ← Exec.get
    let found ← Exec.unwrap (vm.discoverStrongCopyClosure h r)
    let closure ← Exec.lift found
    let copied ← vm.allocateCopyPlaceholders ords (order.drain closure)
    vm.fillCopyPlaceholders copied (order.drain closure)
    match copied.get? r with
    | some c => pure (.object c)
    | none => Exec.throw (.typeMismatch "copied root object")
  | _ => pure v

end VirtualMachine

end Galfus
