import Galfus.Vm.Types

/-! # Instruction handlers

The handlers of the instructions that move, create and access objects. Registers and
globals take anchors, and the slots of objects take edges; `AllocLocal`, `NewArray`,
`NewTuple` and `NewChoice` get the anchor of the register from the allocation.
-/

namespace Galfus

/-- Where the answer of the host goes, and the module and the type that it has. -/
structure Continuation where
  dest : Option ℕ
  expectedResult : Option (ℕ × ℕ)
  deriving DecidableEq

namespace Continuation

def new (dest : Option ℕ) : Continuation := ⟨dest, none⟩

def forProvider (dest moduleId returnType : ℕ) : Continuation :=
  ⟨some dest, some (moduleId, returnType)⟩

def forFutureHandle (dest : ℕ) : Continuation := new (some dest)

end Continuation

/-- What a thread asks of the host. -/
inductive VmEffect where
  | futureWait (futureId moduleId returnType : ℕ)
  | createFuture (moduleId targetModuleId funcIdx : ℕ) (args : List VmValue) (argTypes : List ℕ)
      (returnType : ℕ)
  | createAwaitFuture (moduleId : ℕ) (operation : String) (args : List VmValue)
      (argTypes : List ℕ) (returnType : ℕ)
  | internalThreadCall (moduleId : ℕ) (operation : String) (args : List VmValue)
      (argTypes : List ℕ) (returnType : ℕ)
  | createIndirectFuture (moduleId : ℕ) (func : VmValue) (args : List VmValue)
      (argTypes : List ℕ) (returnType : ℕ)
  | futuresDropped (futureIds : List ℕ)
  | adapterHandleDropped (handle : AdapterHandleId)
  | futureWaitAll (futureIds : List ℕ) (moduleId returnType : ℕ)
  | futureWaitRace (futureIds : List ℕ) (moduleId returnType : ℕ)
  deriving DecidableEq

/-- What an instruction asks its scheduler to do. -/
inductive VmStep where
  | continue
  | ret (value : VmValue) (moduleId returnType : ℕ)
  | suspend (effect : VmEffect) (continuation : Continuation)
  deriving DecidableEq

/-- The orders of the hash sets that an instruction iterates: a copied closure, and the roots in the
collections of allocations. -/
structure HashOrders where
  closure : DrainOrder VmObjectRef
  collect : ℕ → CollectOrder

def HashOrders.byIndex : HashOrders := ⟨.byIndex, fun _ => .ascending⟩

namespace VirtualMachine

open ThreadState

variable (vm : VirtualMachine) (orders : HashOrders)

def allocToReg (dest : ℕ) (obj : HeapObject) : ThreadExec VmStep := do
  let r ← allocObject (orders.collect 0) obj
  writeReg dest (.object r)
  pure .continue

def executeAllocLocal (dest typeIdx : ℕ) : ThreadExec VmStep := do
  let image ← vm.currentImage
  let ty ← Exec.lift (typeAt image typeIdx)
  match ty with
  | .struct layoutIdx =>
    match image.structLayouts[layoutIdx]? with
    | none => Exec.throw (.typeOutOfBounds typeIdx)
    | some layout => do
      let moduleId ← currentModule
      allocToReg orders dest
        (.struct moduleId layoutIdx (.exact (List.replicate layout.fields.length .null)))
  | _ => Exec.throw (.typeMismatch "Struct type")

def deref (v : VmValue) : ThreadExec (VmObjectRef × HeapObject) :=
  match v with
  | .object r => do
    let t ← Exec.get
    let obj ← Exec.lift (t.heap.getObject r)
    pure (r, obj)
  | _ => Exec.throw (.typeMismatch "Object reference")

def fieldOf (field : ℕ) : HeapObject → Except VmError VmValue
  | .struct _ _ slots | .tuple slots =>
    match slots.data[field]? with
    | some v => .ok v
    | none => .error (.fieldOutOfBounds field)
  | .choice _ _ _ payload => .ok payload
  | _ => .error (.typeMismatch "Struct or Choice object")

def executeLoadField (dest obj field : ℕ) : ThreadExec VmStep := do
  let objVal ← readReg obj
  let (_, heapObj) ← deref objVal
  let v ← Exec.lift (fieldOf field heapObj)
  writeReg dest v
  pure .continue

/-- Put a value in a slot of an object and release the edge of the one that it held. -/
def replaceSlot (r : VmObjectRef) (obj : HeapObject) (i : ℕ) (v old : VmValue) :
    ThreadExec VmStep := do
  let t ← Exec.get
  let h ← Exec.lift (t.heap.setObject r (obj.store i v))
  onHeap fun _ => h.releaseEdgeVal old
  pure .continue

def executeStoreField (obj field val : ℕ) : ThreadExec VmStep := do
  let objVal ← readReg obj
  let v ← readReg val
  onHeap fun h => h.retainEdgeVal v
  let (r, heapObj) ← deref objVal
  match heapObj with
  | .struct _ _ fields =>
    match fields.data[field]? with
    | some old => replaceSlot r heapObj field v old
    | none => Exec.stop
  | _ => Exec.throw (.typeMismatch "Struct object")

def executeNewArray (dest typeIdx lenReg : ℕ) : ThreadExec VmStep := do
  let image ← vm.currentImage
  let ty ← Exec.lift (typeAt image typeIdx)
  match ty with
  | .array elementTy => do
    let lenVal ← readReg lenReg
    let len ← Exec.lift (toArrayLength lenVal)
    let zero ← vm.zeroValueForType elementTy
    let moduleId ← currentModule
    allocToReg orders dest (.array moduleId elementTy (.exact (List.replicate len zero)))
  | _ => Exec.throw (.typeMismatch "Array type")

def elementsOf : HeapObject → Except VmError (List VmValue)
  | .array _ _ elements | .tuple elements => .ok elements.data
  | _ => .error (.typeMismatch "Array or Tuple object")

def executeLoadIndex (dest arr idx : ℕ) : ThreadExec VmStep := do
  let arrVal ← readReg arr
  let idxVal ← readReg idx
  let rawIndex ← Exec.lift (toRawArrayIndex idxVal)
  let (_, heapObj) ← deref arrVal
  let elements ← Exec.lift (elementsOf heapObj)
  writeReg dest ((resolveRawArrayIndex rawIndex elements.length).elim .null
    fun i => elements.getD i .null)
  pure .continue

def executeStoreIndex (arr idx val : ℕ) : ThreadExec VmStep := do
  let arrVal ← readReg arr
  let idxVal ← readReg idx
  let rawIndex ← Exec.lift (toRawArrayIndex idxVal)
  let v ← readReg val
  onHeap fun h => h.retainEdgeVal v
  let (r, heapObj) ← deref arrVal
  let elements ← Exec.lift (elementsOf heapObj)
  match resolveRawArrayIndex rawIndex elements.length with
  | none => Exec.throw (.indexOutOfBounds rawIndex elements.length)
  | some i => do
    let stored ← match heapObj with
      | .array _ elementTy _ => vm.executeCast v elementTy
      | _ => pure v
    let old ← Exec.unwrap elements[i]?
    replaceSlot r heapObj i stored old

def gatherElements : List ℕ → ThreadExec (List VmValue) := gather PrivateHeap.retainEdgeVal

/-- The registers from `start` on; register numbers are sixteen bits wide. -/
def regRange (start count : ℕ) : List ℕ := (List.range count).map fun i => (start + i) % 2 ^ 16

def executeNewTuple (dest typeIdx start count : ℕ) : ThreadExec VmStep := do
  let image ← vm.currentImage
  let ty ← Exec.lift (typeAt image typeIdx)
  match ty with
  | .tuple tys =>
    if count = tys.length then do
      let elements ← gatherElements (regRange start count)
      allocToReg orders dest (.tuple (.grown vm.growth elements))
    else Exec.throw (.typeMismatch ("Tuple size " ++ toString tys.length))
  | _ => Exec.throw (.typeMismatch "Tuple type")

def executeNewChoice (dest typeIdx variantIdx payload : ℕ) : ThreadExec VmStep := do
  let image ← vm.currentImage
  let ty ← Exec.lift (typeAt image typeIdx)
  match ty with
  | .choice layoutIdx => do
    let v ← readReg payload
    onHeap fun h => h.retainEdgeVal v
    let moduleId ← currentModule
    allocToReg orders dest (.choice moduleId layoutIdx variantIdx v)
  | _ => Exec.throw (.typeMismatch "Choice type")

def executeCastTo (dest src typeIdx : ℕ) : ThreadExec VmStep := do
  let v ← readReg src
  let res ← vm.executeCast v typeIdx
  writeReg dest res
  pure .continue

def executeCopy (dest src : ℕ) : ThreadExec VmStep := do
  let v ← readReg src
  let copied ← Exec.zoom heap (fun t h => { t with heap := h })
    (vm.deepCopyValue orders.closure orders.collect v)
  writeReg dest copied
  pure .continue

def executeInstanceof (dest src typeIdx : ℕ) : ThreadExec VmStep := do
  let v ← readReg src
  let t ← Exec.get
  let isInstance ← match t.callStack with
    | [] => pure false
    | frame :: _ =>
      match vm.modules frame.moduleId with
      | none => pure false
      | some image =>
        Exec.unwrap (vm.checkValueType t.heap frame.moduleId image vm.stackDepth v typeIdx)
  writeReg dest (.bool isInstance)
  pure .continue

def executeMove (dest src : ℕ) : ThreadExec VmStep := do
  let v ← readReg src
  onHeap fun h => h.retainAnchorVal v
  writeReg dest v
  pure .continue

/-- The access to a global beyond those that its module declares panics. -/
def checkGlobal (moduleId globalIdx : ℕ) : ThreadExec Unit := do
  let m ← Exec.lift (vm.getModule moduleId)
  if m.globalCount ≤ globalIdx then Exec.stop else pure ()

def executeLoadGlobal (dest moduleId globalIdx : ℕ) : ThreadExec VmStep := do
  vm.checkGlobal moduleId globalIdx
  let t ← Exec.get
  let v := (t.getGlobals moduleId).getD globalIdx .null
  onHeap fun h => h.retainAnchorVal v
  writeReg dest v
  pure .continue

def executeStoreGlobal (moduleId globalIdx src : ℕ) : ThreadExec VmStep := do
  vm.checkGlobal moduleId globalIdx
  let v ← readReg src
  onHeap fun h => h.retainAnchorVal v
  let t ← Exec.get
  let globals := t.getGlobals moduleId
  let resized := globals ++ List.replicate (globalIdx + 1 - globals.length) .null
  Exec.modify fun t => { t with
    moduleStates := setGlobals moduleId (resized.set globalIdx v) t.moduleStates
    heap := t.heap.releaseAnchorVal (resized.getD globalIdx .null) }
  pure .continue

def executeFallback (dest src fallback : ℕ) : ThreadExec VmStep := do
  let srcVal ← readReg src
  let fallbackVal ← readReg fallback
  writeReg dest (if srcVal = .null then fallbackVal else srcVal)
  pure .continue

def executeDrop (reg : ℕ) : ThreadExec VmStep := do
  let v ← readReg reg
  let ids ← futureHandlesInValue vm.stackDepth v
  writeReg reg .null
  let t ← Exec.get
  let dropped ← Exec.unwrap (ids.filterM fun id =>
    (t.containsFutureHandle vm.stackDepth id).map (!·))
  if dropped = [] then pure .continue
  else pure (.suspend (.futuresDropped dropped) (.new none))

/-- The handlers of `execute_object_instruction`, and of `Move`, `LoadNull`, `LoadGlobal`,
`StoreGlobal`, `Fallback` and `Drop`. -/
def executeInstruction : Instruction → ThreadExec VmStep
  | .allocLocal dest typeIdx => vm.executeAllocLocal orders dest typeIdx
  | .loadField dest obj field => executeLoadField dest obj field
  | .storeField obj field val => executeStoreField obj field val
  | .newArray dest typeIdx lenReg => vm.executeNewArray orders dest typeIdx lenReg
  | .loadIndex dest arr idx => executeLoadIndex dest arr idx
  | .storeIndex arr idx val => vm.executeStoreIndex arr idx val
  | .newTuple dest typeIdx start count => vm.executeNewTuple orders dest typeIdx start count
  | .newChoice dest typeIdx variantIdx payload =>
    vm.executeNewChoice orders dest typeIdx variantIdx payload
  | .cast dest src typeIdx => vm.executeCastTo dest src typeIdx
  | .copy dest src => vm.executeCopy orders dest src
  | .instanceof dest src typeIdx => vm.executeInstanceof dest src typeIdx
  | .move dest src => executeMove dest src
  | .loadGlobal dest moduleId globalIdx => vm.executeLoadGlobal dest moduleId globalIdx
  | .storeGlobal moduleId globalIdx src => vm.executeStoreGlobal moduleId globalIdx src
  | .loadNull dest => do
    writeReg dest .null
    pure .continue
  | .fallback dest src fallback => executeFallback dest src fallback
  | .drop reg => vm.executeDrop reg
  | _ => Exec.stop

end VirtualMachine

end Galfus
