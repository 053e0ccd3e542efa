import Mathlib.Algebra.Group.Nat.Defs
import Galfus.Bytecode.Basic

/-! # Validation of bytecode modules

The checks that `validate_bytecode_module` makes before a module is run. It goes through
all instructions and collects all errors. Register numbers are sixteen bits wide and wrap
around where the source adds them.
-/

namespace Galfus

inductive BytecodeValidationError where
  | futureArgumentTypeCountMismatch (funcName : String) (instrIdx expectedCount foundCount : ℕ)
  | invalidConstantIndex (funcName : String) (instrIdx index : ℕ)
  | invalidTypeIndex (funcName : String) (instrIdx index : ℕ)
  | invalidFunctionIndex (funcName : String) (instrIdx index : ℕ)
  | invalidRegister (funcName : String) (instrIdx reg maxAllowed : ℕ)
  | invalidJumpOffset (funcName : String) (instrIdx : ℕ) (targetIdx : ℤ) (instrCount : ℕ)
  | typeMismatchAlloc (funcName : String) (instrIdx : ℕ) (expected : String) (found : ℕ)
  | layoutOutOfBounds (funcName : String) (instrIdx : ℕ) (expected : String) (layoutIdx : ℕ)
  | choiceVariantOutOfBounds (funcName : String) (instrIdx variantIdx variantCount : ℕ)
  | tupleCountMismatch (funcName : String) (instrIdx expectedCount foundCount : ℕ)
  | fieldOutOfBounds (funcName : String) (instrIdx fieldIdx : ℕ)
  | exportFunctionOutOfBounds (symbolName : String) (funcIdx : ℕ)
  | exportGlobalOutOfBounds (symbolName : String) (globalIdx globalCount : ℕ)
  | initFunctionOutOfBounds (funcIdx : ℕ)
  deriving DecidableEq, Repr

namespace Validation

def require (ok : Prop) [Decidable ok] (e : BytecodeValidationError) :
    List BytecodeValidationError :=
  if ok then [] else [e]

@[simp] theorem require_eq_nil {ok : Prop} [Decidable ok] {e : BytecodeValidationError} :
    require ok e = [] ↔ ok := by
  simp [require]

def maxRegs (func : BytecodeFunction) : ℕ := func.registerCount % 2 ^ 16

def maxFieldCount (image : BytecodeModule) : Option ℕ :=
  (image.structLayouts.map (·.fields.length) ++ image.types.filterMap fun
    | .tuple elements => some elements.length
    | _ => none).max?

section Checks

variable (image : BytecodeModule) (func : BytecodeFunction) (instrIdx : ℕ)

def checkReg (reg : ℕ) : List BytecodeValidationError :=
  require (reg < maxRegs func) (.invalidRegister func.name instrIdx reg (maxRegs func))

def checkConst (idx : ℕ) : List BytecodeValidationError :=
  require (idx < image.constants.length) (.invalidConstantIndex func.name instrIdx idx)

def checkType (idx : ℕ) : List BytecodeValidationError :=
  require (idx < image.types.length) (.invalidTypeIndex func.name instrIdx idx)

def checkFunc (idx : ℕ) : List BytecodeValidationError :=
  require (idx < image.functions.length + image.imports.length)
    (.invalidFunctionIndex func.name instrIdx idx)

def checkJump (offset : ℤ) : List BytecodeValidationError :=
  let target := (instrIdx : ℤ) + 1 + offset
  require (0 ≤ target ∧ target < func.instructions.length)
    (.invalidJumpOffset func.name instrIdx target func.instructions.length)

/-- The first and the last of registers that follow each other. -/
def checkRange (start count : ℕ) : List BytecodeValidationError :=
  if 0 < count then
    let endReg := start + count - 1
    checkReg func instrIdx start ++ require (endReg < maxRegs func)
      (.invalidRegister func.name instrIdx (endReg % 2 ^ 16) (maxRegs func))
  else []

/-- Only the last of registers that follow each other. -/
def checkLast (start count : ℕ) : List BytecodeValidationError :=
  if 0 < count then checkReg func instrIdx ((start + count - 1) % 2 ^ 16) else []

def checkField (field : ℕ) : List BytecodeValidationError :=
  require (∀ max ∈ maxFieldCount image, field < max) (.fieldOutOfBounds func.name instrIdx field)

def checkArgTypes (argCount : ℕ) (argTypes : List ℕ) : List BytecodeValidationError :=
  require (argTypes.length = argCount)
      (.futureArgumentTypeCountMismatch func.name instrIdx argCount argTypes.length) ++
    argTypes.flatMap (checkType image func instrIdx)

def checkStructType (typeIdx : ℕ) : List BytecodeValidationError :=
  match image.types[typeIdx]? with
  | none => []
  | some (.struct layoutIdx) => require (layoutIdx < image.structLayouts.length)
      (.layoutOutOfBounds func.name instrIdx "StructLayout" layoutIdx)
  | some _ => [.typeMismatchAlloc func.name instrIdx "Struct" typeIdx]

def checkTupleType (typeIdx count : ℕ) : List BytecodeValidationError :=
  match image.types[typeIdx]? with
  | none => []
  | some (.tuple elements) => require (elements.length = count)
      (.tupleCountMismatch func.name instrIdx elements.length count)
  | some _ => [.typeMismatchAlloc func.name instrIdx "Tuple" typeIdx]

def checkChoiceType (typeIdx variantIdx : ℕ) : List BytecodeValidationError :=
  match image.types[typeIdx]? with
  | none => []
  | some (.choice layoutIdx) =>
    match image.choiceLayouts[layoutIdx]? with
    | none => [.layoutOutOfBounds func.name instrIdx "ChoiceLayout" layoutIdx]
    | some layout => require (variantIdx < layout.variants.length)
        (.choiceVariantOutOfBounds func.name instrIdx variantIdx layout.variants.length)
  | some _ => [.typeMismatchAlloc func.name instrIdx "Choice" typeIdx]

/-- The errors of one instruction. Tail calls and the specialised instructions are not
looked at. -/
def checkInstruction (i : Instruction) : List BytecodeValidationError :=
  let reg := checkReg func instrIdx
  let type := checkType image func instrIdx
  match i with
  | .loadConst dest constIdx => reg dest ++ checkConst image func instrIdx constIdx
  | .move dest src => reg dest ++ reg src
  | .loadGlobal dest _ _ => reg dest
  | .storeGlobal _ _ src => reg src
  | .loadNull dest => reg dest
  | .binary _ dest lhs rhs => reg dest ++ reg lhs ++ reg rhs
  | .unary _ dest src => reg dest ++ reg src
  | .fallback dest src other => reg dest ++ reg src ++ reg other
  | .binaryImmediate dest lhs _ _ => reg dest ++ reg lhs
  | .jump offset => checkJump func instrIdx offset
  | .jumpTrue cond offset | .jumpFalse cond offset => reg cond ++ checkJump func instrIdx offset
  | .jumpNull val offset => reg val ++ checkJump func instrIdx offset
  | .call dest callee argsStart argCount =>
    reg dest ++ checkFunc image func instrIdx callee ++ checkRange func instrIdx argsStart argCount
  | .callMethod dest obj nameConst argsStart argCount _ _ =>
    reg dest ++ reg obj ++ checkConst image func instrIdx nameConst ++
      if 1 < argCount then reg ((argsStart + argCount - 2) % 2 ^ 16) else []
  | .callDynamic dest funcReg argsStart argCount =>
    reg dest ++ reg funcReg ++ checkRange func instrIdx argsStart argCount
  | .ret src => reg src
  | .retNull => []
  | .panic constIdx => checkConst image func instrIdx constIdx
  | .allocLocal dest typeIdx =>
    reg dest ++ type typeIdx ++ checkStructType image func instrIdx typeIdx
  | .loadField dest obj field => reg dest ++ reg obj ++ checkField image func instrIdx field
  | .storeField obj field val => reg obj ++ reg val ++ checkField image func instrIdx field
  | .newArray dest typeIdx lenReg => reg dest ++ type typeIdx ++ reg lenReg
  | .loadIndex dest arr idx => reg dest ++ reg arr ++ reg idx
  | .storeIndex arr idx val => reg arr ++ reg idx ++ reg val
  | .newTuple dest typeIdx start count =>
    reg dest ++ type typeIdx ++ checkRange func instrIdx start count ++
      checkTupleType image func instrIdx typeIdx count
  | .newChoice dest typeIdx variantIdx payload =>
    reg dest ++ type typeIdx ++ reg payload ++
      checkChoiceType image func instrIdx typeIdx variantIdx
  | .cast dest src typeIdx | .instanceof dest src typeIdx => reg dest ++ reg src ++ type typeIdx
  | .copy dest src => reg dest ++ reg src
  | .drop r => reg r
  | .awaitFuture dest futureId returnType => reg dest ++ reg futureId ++ type returnType
  | .createFuture dest callee argsStart argCount argTypes returnType =>
    reg dest ++ checkFunc image func instrIdx callee ++
      checkArgTypes image func instrIdx argCount argTypes ++ type returnType ++
        checkLast func instrIdx argsStart argCount
  | .createAwaitFuture dest _ argsStart argCount argTypes returnType
  | .callInternalThread dest _ argsStart argCount argTypes returnType =>
    reg dest ++ checkArgTypes image func instrIdx argCount argTypes ++ type returnType ++
      checkLast func instrIdx argsStart argCount
  | .createIndirectFuture dest funcReg argsStart argCount argTypes returnType =>
    reg dest ++ reg funcReg ++ checkArgTypes image func instrIdx argCount argTypes ++
      type returnType ++ checkLast func instrIdx argsStart argCount
  | .awaitAll dest futuresStart count returnType | .awaitRace dest futuresStart count returnType =>
    reg dest ++ type returnType ++ checkLast func instrIdx futuresStart count
  | .len dest src => reg dest ++ reg src
  | .copyArray dest destStart src => reg dest ++ reg destStart ++ reg src
  | .callInternalMath dest operation argsStart argCount =>
    reg dest ++ require (operation ≤ 10) (.invalidConstantIndex func.name instrIdx operation) ++
      checkLast func instrIdx argsStart argCount
  | .tailCall _ _ _ | .typedBinary _ _ _ _ _ => []

end Checks

def checkInit (image : BytecodeModule) : List BytecodeValidationError :=
  match image.initFuncIdx with
  | none => []
  | some idx => require (idx < image.functions.length) (.initFunctionOutOfBounds idx)

def checkExport (image : BytecodeModule) (slot : ExportSlot) : List BytecodeValidationError :=
  match slot.kind with
  | .function idx => require (idx < image.functions.length)
      (.exportFunctionOutOfBounds slot.symbolName idx)
  | .global idx => require (idx < image.globalCount)
      (.exportGlobalOutOfBounds slot.symbolName idx image.globalCount)

def checkFunction (image : BytecodeModule) (func : BytecodeFunction) :
    List BytecodeValidationError :=
  func.instructions.zipIdx.flatMap fun p => checkInstruction image func p.2 p.1

end Validation

open Validation in
def validateBytecodeModule (image : BytecodeModule) : Except (List BytecodeValidationError) Unit :=
  match checkInit image ++ image.exports.flatMap (checkExport image) ++
      image.functions.flatMap (checkFunction image) with
  | [] => .ok ()
  | errors => .error errors

def BytecodeModule.Accepted (image : BytecodeModule) : Prop :=
  validateBytecodeModule image = .ok ()

instance (image : BytecodeModule) : Decidable image.Accepted :=
  inferInstanceAs (Decidable (validateBytecodeModule image = .ok ()))

open Validation in
theorem BytecodeModule.Accepted.checkInstruction {image : BytecodeModule} (h : image.Accepted)
    {func : BytecodeFunction} (hfn : func ∈ image.functions) {ix : ℕ} {i : Instruction}
    (hi : func.instructions[ix]? = some i) : checkInstruction image func ix i = [] := by
  have hn : checkInit image ++ image.exports.flatMap (checkExport image) ++
      image.functions.flatMap (checkFunction image) = [] := by
    unfold BytecodeModule.Accepted validateBytecodeModule at h
    split at h
    · assumption
    · cases h
  have hf := List.flatMap_eq_nil_iff.mp (List.append_eq_nil_iff.mp hn).2 func hfn
  exact List.flatMap_eq_nil_iff.mp hf (i, ix) (List.mem_zipIdx_iff_getElem?.mpr hi)

end Galfus
