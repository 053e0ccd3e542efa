import Galfus.Vm.Control

/-! # Constants and system instructions

Constants, futures, array lengths, copies of arrays and the built-in mathematics.
-/

namespace Galfus

def VirtualMachine.toFloat64 (vm : VirtualMachine) : VmValue → Except VmError (BitVec 64)
  | .float64 x => .ok x
  | .float32 x => .ok (vm.floats.promote x)
  | v =>
    match VirtualMachine.intValue? v with
    | some i => .ok (vm.floats.ofIntF64 i)
    | none => .error (.typeMismatch "number")

namespace VirtualMachine

open ThreadState

variable (vm : VirtualMachine) (orders : HashOrders)

/-- `uint8_type_idx`: the element type of the arrays of text constants. -/
def uint8TypeIdx : ThreadExec ℕ := do
  let moduleId ← currentModule
  match (vm.modules moduleId).bind (·.types.findIdx? (· = .uint8)) with
  | some idx => pure (idx % 2 ^ 16)
  | none => Exec.throw .invalidModule

def byteArray (bytes : List (BitVec 8)) : ThreadExec VmValue := do
  let elementTy ← vm.uint8TypeIdx
  let moduleId ← currentModule
  let r ← allocObject (orders.collect 0) (.array moduleId elementTy (.exact (bytes.map .uint8)))
  pure (.object r)

def constantValue : Constant → ThreadExec VmValue
  | .bool b => pure (.bool b)
  | .int8 x => pure (.int8 x)
  | .int16 x => pure (.int16 x)
  | .int32 x => pure (.int32 x)
  | .int64 x => pure (.int64 x)
  | .uint8 x => pure (.uint8 x)
  | .uint16 x => pure (.uint16 x)
  | .uint32 x => pure (.uint32 x)
  | .uint64 x => pure (.uint64 x)
  | .float32 x => pure (.float32 (normalizeF32 x))
  | .float64 x => pure (.float64 (normalizeF64 x))
  | .string s => vm.byteArray orders (s.toUTF8.data.toList.map UInt8.toBitVec)
  | .bytes b => vm.byteArray orders b
  | .function funcIdx => do
    let moduleId ← currentModule
    pure (.function moduleId funcIdx)

def executeLoadConst (dest constIdx : ℕ) : ThreadExec VmStep := do
  let image ← vm.currentImage
  match image.constants[constIdx]? with
  | none => Exec.throw (.constantOutOfBounds constIdx)
  | some c => do
    let v ← vm.constantValue orders c
    writeReg dest v
    pure .continue

def futureOf : VmValue → Except VmError ℕ
  | .future id => .ok id
  | _ => .error (.typeMismatch "Future<T>")

def executeAwaitFuture (dest futureReg returnType : ℕ) : ThreadExec VmStep := do
  let v ← readReg futureReg
  let futureId ← Exec.lift (futureOf v)
  let moduleId ← currentModule
  pure (.suspend (.futureWait futureId moduleId returnType) (.forProvider dest moduleId returnType))

def readFutures : List ℕ → ThreadExec (List ℕ)
  | [] => pure []
  | reg :: regs => do
    let v ← readReg reg
    let futureId ← Exec.lift (futureOf v)
    let futureIds ← readFutures regs
    pure (futureId :: futureIds)

/-- `AwaitAll` and `AwaitRace`. -/
def executeAwaitMany (effect : List ℕ → ℕ → ℕ → VmEffect)
    (dest futuresStart count returnType : ℕ) : ThreadExec VmStep := do
  let futureIds ← readFutures (regRange futuresStart count)
  let moduleId ← currentModule
  pure (.suspend (effect futureIds moduleId returnType) (.forProvider dest moduleId returnType))

def executeLen (dest src : ℕ) : ThreadExec VmStep := do
  let v ← readReg src
  let (_, heapObj) ← deref v
  let elements ← Exec.lift (elementsOf heapObj)
  writeReg dest (.int32 (.ofNat 32 elements.length))
  pure .continue

def toStartIndex (v : VmValue) : Except VmError ℕ :=
  match intValue? v with
  | some i => if 0 ≤ i then .ok i.toNat else .error (.typeMismatch "positive index")
  | none => .error (.typeMismatch "positive index")

/-- The elements of the source of `CopyArray`. -/
def copiedElements : HeapObject → Except VmError (List VmValue)
  | .array _ _ elements | .tuple elements => .ok elements.data
  | _ => .error (.typeMismatch "Array or Tuple")

/-- Elements that do not fit panic. -/
def executeCopyArray (dest destStart src : ℕ) : ThreadExec VmStep := do
  let destVal ← readReg dest
  let startVal ← readReg destStart
  let srcVal ← readReg src
  let start ← Exec.lift (toStartIndex startVal)
  match destVal, srcVal with
  | .object destRef, .object srcRef => do
    let t ← Exec.get
    let srcObj ← Exec.lift (t.heap.getObject srcRef)
    let copied ← Exec.lift (copiedElements srcObj)
    let destObj ← Exec.lift (t.heap.getObject destRef)
    match destObj with
    | .array _ _ elements =>
      if elements.data.length < start + copied.length then Exec.stop
      else do
        let h ← Exec.lift (t.heap.setObject destRef
          ((copied.zipIdx start).foldl (fun obj p => obj.store p.2 p.1) destObj))
        onHeap fun _ => h
        pure .continue
    | _ => Exec.throw (.typeMismatch "Array object")
  | _, _ => Exec.throw (.typeMismatch "Object references for source and destination")

def mathArgument (argsStart argCount index : ℕ) : ThreadExec (BitVec 64) :=
  if argCount ≤ index then Exec.throw (.typeMismatch "math argument")
  else do
    let v ← readReg ((argsStart + index) % 2 ^ 16)
    Exec.lift (vm.toFloat64 v)

def isNanF64 (x : BitVec 64) : Bool := 0x7FF0000000000000#64 < x &&& 0x7FFFFFFFFFFFFFFF#64

def isInfiniteF64 (x : BitVec 64) : Bool := x &&& 0x7FFFFFFFFFFFFFFF#64 = 0x7FF0000000000000#64

def executeCallInternalMath (dest operation argsStart argCount : ℕ) : ThreadExec VmStep := do
  let v ←
    if 10 < operation then Exec.throw (.typeMismatch "internal math operation")
    else do
      let x ← vm.mathArgument argsStart argCount 0
      match operation with
      | 0 => pure (.bool (isNanF64 x))
      | 1 => pure (.bool (!isNanF64 x && !isInfiniteF64 x))
      | 2 => pure (.bool (isInfiniteF64 x))
      | 4 => do
        let y ← vm.mathArgument argsStart argCount 1
        pure (.float64 (normalizeF64 (vm.floats.hypotF64 x y)))
      | op => pure (.float64 (normalizeF64 (vm.floats.mathF64 op x)))
  writeReg dest v
  pure .continue

def executeCreateFuture (dest func argsStart argCount : ℕ) (argTypes : List ℕ)
    (returnType : ℕ) : ThreadExec VmStep := do
  let args ← gatherArgs (regRange argsStart argCount)
  let moduleId ← currentModule
  let (targetModule, targetFunc) ← vm.resolveFunction moduleId func
  pure (.suspend (.createFuture moduleId targetModule targetFunc args argTypes returnType)
    (.forFutureHandle dest))

/-- `CreateAwaitFuture` and `CallInternalThread`. -/
def executeHostOperation (effect : ℕ → List VmValue → VmEffect)
    (dest argsStart argCount returnType : ℕ) : ThreadExec VmStep := do
  let args ← gatherArgs (regRange argsStart argCount)
  let moduleId ← currentModule
  pure (.suspend (effect moduleId args) (.forProvider dest moduleId returnType))

def executeCreateIndirectFuture (dest funcReg argsStart argCount : ℕ) (argTypes : List ℕ)
    (returnType : ℕ) : ThreadExec VmStep := do
  let func ← readReg funcReg
  let args ← gatherArgs (regRange argsStart argCount)
  let moduleId ← currentModule
  pure (.suspend (.createIndirectFuture moduleId func args argTypes returnType)
    (.forFutureHandle dest))

def executeSystemInstruction : Instruction → ThreadExec VmStep
  | .drop reg => vm.executeDrop reg
  | .awaitFuture dest futureReg returnType => executeAwaitFuture dest futureReg returnType
  | .createFuture dest func argsStart argCount argTypes returnType =>
    vm.executeCreateFuture dest func argsStart argCount argTypes returnType
  | .createAwaitFuture dest operation argsStart argCount argTypes returnType =>
    executeHostOperation (fun m args => .createAwaitFuture m operation args argTypes returnType)
      dest argsStart argCount returnType
  | .callInternalThread dest operation argsStart argCount argTypes returnType =>
    executeHostOperation (fun m args => .internalThreadCall m operation args argTypes returnType)
      dest argsStart argCount returnType
  | .createIndirectFuture dest funcReg argsStart argCount argTypes returnType =>
    executeCreateIndirectFuture dest funcReg argsStart argCount argTypes returnType
  | .awaitAll dest futuresStart count returnType =>
    executeAwaitMany .futureWaitAll dest futuresStart count returnType
  | .awaitRace dest futuresStart count returnType =>
    executeAwaitMany .futureWaitRace dest futuresStart count returnType
  | .len dest src => executeLen dest src
  | .copyArray dest destStart src => executeCopyArray dest destStart src
  | .callInternalMath dest operation argsStart argCount =>
    vm.executeCallInternalMath dest operation argsStart argCount
  | _ => Exec.stop

end VirtualMachine

end Galfus
