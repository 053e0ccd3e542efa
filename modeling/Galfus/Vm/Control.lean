import Galfus.Vm.Frames
import Galfus.Vm.Operators

/-! # Control instructions

Jumps, calls, method lookup by name, returns and panics.
-/

namespace Galfus

def findText (pat : List Char) : List Char → Option ℕ
  | [] => if pat = [] then some 0 else none
  | c :: s => if pat.isPrefixOf (c :: s) then some 0 else (findText pat s).map (· + 1)

/-- A qualified name without the type arguments of its layout. -/
def cleanName (name : List Char) : List Char :=
  match findText ['<'] name, findText ['>', ':', ':'] name with
  | some start, some stop => name.take start ++ [':', ':'] ++ name.drop (stop + 3)
  | _, _ => name

/-- `check_name`: whether a function is the method that a name stands for. -/
def checkName (name target : String) (isQualified : Bool) : Bool :=
  if isQualified then
    cleanName name.toList = target.toList ||
      (target.toList ++ ['#']).isPrefixOf (cleanName name.toList)
  else name = target || ([':', ':'] ++ target.toList).isSuffixOf name.toList

/-- The target of a jump as a `usize`, where `pc` is already the next instruction. -/
def jumpTarget (pc : ℕ) (offset : ℤ) : ℕ :=
  let target := (pc : ℤ) + offset
  (if target < 0 then target + 2 ^ 64 else target).toNat

namespace ThreadState

def setPc (pc : ℕ) (t : ThreadState) : ThreadState :=
  { t with callStack := t.callStack.modifyHead fun frame => { frame with pc := pc } }

def jump (offset : ℤ) : ThreadExec VmStep := do
  let t ← Exec.get
  match t.callStack with
  | [] => Exec.throw .emptyCallStack
  | frame :: _ => do
    Exec.modify (setPc (jumpTarget frame.pc offset))
    pure .continue

def gatherArgs : List ℕ → ThreadExec (List VmValue) := gather PrivateHeap.retainAnchorVal

end ThreadState

namespace VirtualMachine

open ThreadState

variable (vm : VirtualMachine)

def jumpIf (cond : ℕ) (taken : Bool) (offset : ℤ) : ThreadExec VmStep := do
  let v ← readReg cond
  match v with
  | .bool b => if b = taken then jump offset else pure .continue
  | _ => Exec.throw (.typeMismatch "boolean conditional")

def jumpNull (val : ℕ) (offset : ℤ) : ThreadExec VmStep := do
  let v ← readReg val
  if v = .null then jump offset else pure .continue

/-- The array and the position of an iterator over an array. -/
def arrayIterator (v : VmValue) :
    ThreadExec (Option (VmObjectRef × HeapObject × VmObjectRef × BitVec 32)) :=
  match v with
  | .object r => do
    let t ← Exec.get
    let obj ← Exec.lift (t.heap.getObject r)
    match obj with
    | .struct moduleId layoutIdx fields => do
      let image ← Exec.lift (vm.getModule moduleId)
      if (image.structLayouts[layoutIdx]?).map StructLayout.name = some "ArrayIterator" then
        match fields.data[0]?, fields.data[1]? with
        | some (VmValue.object arrayRef), some (VmValue.int32 current) =>
          pure (some (r, obj, arrayRef, current))
        | some (VmValue.object _), _ => Exec.throw (.typeMismatch "ArrayIterator index field")
        | _, _ => Exec.throw (.typeMismatch "ArrayIterator array field")
      else pure none
    | _ => pure none
  | _ => pure none

/-- The methods of array iterators, which no module defines. -/
def executeArrayIteratorMethod (obj : ℕ) (methodName : String) : ThreadExec (Option VmValue) := do
  let v ← readReg obj
  let iterator ← vm.arrayIterator v
  match iterator with
  | none => pure none
  | some (r, heapObj, arrayRef, current) =>
    if methodName = "iter" then do
      let t ← Exec.get
      let h ← Exec.lift (t.heap.setObject r (heapObj.store 1 (.int32 0)))
      onHeap fun _ => h
      pure (some (.object r))
    else if methodName = "next" then do
      let t ← Exec.get
      let array ← Exec.lift (t.heap.getObject arrayRef)
      match array with
      | .array _ _ elements =>
        -- a negative position is a large `usize`
        match if current.toInt < 0 then none else elements.data[current.toNat]? with
        | none => pure (some .null)
        | some element => do
          let h ← Exec.lift (t.heap.setObject r (heapObj.store 1 (.int32 (current + 1))))
          onHeap fun _ => h
          pure (some element)
      | _ => Exec.throw (.typeMismatch "ArrayIterator backing array")
    else pure none

/-- The module and the name of the layout of a receiver. -/
def receiverLayout (v : VmValue) : ThreadExec (Option (ℕ × String)) :=
  match v with
  | .object r => do
    let t ← Exec.get
    let obj ← Exec.lift (t.heap.getObject r)
    match obj with
    | .struct moduleId layoutIdx _ => do
      let image ← Exec.lift (vm.getModule moduleId)
      pure ((image.structLayouts[layoutIdx]?).map fun layout => (moduleId, layout.name))
    | _ => pure none
  | _ => pure none

/-- The first imported function with the name of the method. -/
def importedMethod (qualified : Option String) (method : String) :
    List ResolvedImport → Except VmError (Option (ℕ × ℕ))
  | [] => .ok none
  | ⟨moduleId, .function idx⟩ :: rest => do
    let target ← vm.getFunction moduleId idx
    if checkName target.name (qualified.getD method) qualified.isSome then
      .ok (some (moduleId, idx))
    else importedMethod qualified method rest
  | ⟨_, .global _⟩ :: rest => importedMethod qualified method rest

/-- The function of a method name: by the qualified and then by the plain name in the module itself,
then among its imports. -/
def resolveMethod (moduleId : ℕ) (qualified : Option String) (method : String) :
    Except VmError (ℕ × ℕ) := do
  let image ← vm.getModule moduleId
  let byName := fun name isQualified => image.functions.findIdx? (checkName ·.name name isQualified)
  match (qualified.bind (byName · true)).or (byName method false) with
  | some idx => .ok (moduleId, idx % 2 ^ 16)
  | none => do
    let imported ← match vm.resolveImports moduleId with
      | some imports => vm.importedMethod qualified method imports
      | none => .ok none
    match imported with
    | some target => .ok target
    | none => .error (.typeMismatch ("function named '" ++ qualified.getD method ++ "'"))

def methodName (nameConst : ℕ) : ThreadExec String := do
  let image ← vm.currentImage
  match image.constants[nameConst]? with
  | none => Exec.throw (.constantOutOfBounds nameConst)
  | some (.string name) => pure name
  | some _ => Exec.throw (.typeMismatch "string constant for method name")

def callMethodNamed (name : String) (objVal : VmValue) (dest obj argsStart argCount : ℕ)
    (argTypes : List ℕ) (returnType : Option ℕ) : ThreadExec VmStep := do
  let layout ← vm.receiverLayout objVal
  let moduleId ← currentModule
  let (targetModule, targetFunc) ← Exec.lift (vm.resolveMethod
    ((layout.map Prod.fst).getD moduleId) (layout.map fun l => l.2 ++ "::" ++ name) name)
  match returnType with
  | some returnType => do
    let args ← gatherArgs (argRegs argsStart argCount (some obj))
    pure (.suspend (.createFuture moduleId targetModule targetFunc args argTypes returnType)
      (.forFutureHandle dest))
  | none => vm.enterFunction dest targetModule targetFunc argsStart argCount (some obj)

def executeCallMethod (dest obj nameConst argsStart argCount : ℕ) (argTypes : List ℕ)
    (returnType : Option ℕ) : ThreadExec VmStep := do
  let name ← vm.methodName nameConst
  let iterated ← vm.executeArrayIteratorMethod obj name
  match iterated with
  | some v => do
    writeReg dest v
    pure .continue
  | none => do
    let objVal ← readReg obj
    if name = "compare" ∧ objVal.isObject = false then do
      let arg ← readReg ((argsStart + 1) % 2 ^ 16)
      writeReg dest (.bool (vm.valueEq objVal arg))
      pure .continue
    else vm.callMethodNamed name objVal dest obj argsStart argCount argTypes returnType

def executeCallDynamic (dest funcReg argsStart argCount : ℕ) : ThreadExec VmStep := do
  let v ← readReg funcReg
  match v with
  | .function moduleId funcIdx => do
    let (targetModule, targetFunc) ← vm.resolveFunction moduleId funcIdx
    vm.enterFunction dest targetModule targetFunc argsStart argCount none
  | _ => Exec.throw (.typeMismatch "function value")

def executePanic (constIdx : ℕ) : ThreadExec VmStep := do
  let image ← vm.currentImage
  match image.constants[constIdx]? with
  | none => Exec.throw (.constantOutOfBounds constIdx)
  | some (.string message) => Exec.throw (.panic message)
  | some (.bytes b) => Exec.throw (.panic (vm.lossyText b))
  | some c => Exec.throw (.panic (vm.debugConstant c))

def executeControlInstruction : Instruction → ThreadExec VmStep
  | .jump offset => jump offset
  | .jumpTrue cond offset => jumpIf cond true offset
  | .jumpFalse cond offset => jumpIf cond false offset
  | .jumpNull val offset => jumpNull val offset
  | .call dest func argsStart argCount => vm.executeCall dest func argsStart argCount
  | .tailCall func argsStart argCount => vm.executeTailCall func argsStart argCount
  | .callMethod dest obj nameConst argsStart argCount argTypes returnType =>
    vm.executeCallMethod dest obj nameConst argsStart argCount argTypes returnType
  | .callDynamic dest funcReg argsStart argCount =>
    vm.executeCallDynamic dest funcReg argsStart argCount
  | .ret src => vm.executeRet src
  | .retNull => vm.executeReturn .null
  | .panic constIdx => vm.executePanic constIdx
  | _ => Exec.stop

end VirtualMachine

end Galfus
