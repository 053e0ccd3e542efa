import Galfus.Heap.Object

/-! # Bytecode

The instruction set, the type and layout tables, and bytecode modules. Families of
instructions that differ in their operation only share one constructor.
-/

namespace Galfus

inductive BinaryOp where
  | add | sub | mul | div | rem | pow | shl | shr | and | or | xor
  | eq | ne | lt | le | gt | ge
  deriving DecidableEq, Repr

/-- The operations that exist for each specialised number kind. -/
inductive TypedOp where
  | add | sub | mul | div | rem | eq | ne | lt | le | gt | ge
  deriving DecidableEq, Repr

inductive NumKind where
  | i32 | i64 | f32 | f64
  deriving DecidableEq, Repr

inductive UnaryOp where
  | neg | not | bitNot
  deriving DecidableEq, Repr

inductive ImmediateBinaryOp where
  | add | subtract | multiply | divide | remainder | equal | notEqual | less | lessEqual
  | greater | greaterEqual | shiftLeft | shiftRight | bitwiseAnd | bitwiseOr | bitwiseXor
  deriving DecidableEq, Repr

inductive ImmediateValue where
  | i32 (x : BitVec 32)
  | i64 (x : BitVec 64)
  | u32 (x : BitVec 32)
  | u64 (x : BitVec 64)
  | f32 (bits : BitVec 32)
  | f64 (bits : BitVec 64)
  deriving DecidableEq, Repr

inductive Instruction where
  | loadConst (dest constIdx : ℕ)
  | move (dest src : ℕ)
  | loadGlobal (dest moduleId globalIdx : ℕ)
  | storeGlobal (moduleId globalIdx src : ℕ)
  | loadNull (dest : ℕ)
  | binary (op : BinaryOp) (dest lhs rhs : ℕ)
  | typedBinary (kind : NumKind) (op : TypedOp) (dest lhs rhs : ℕ)
  | unary (op : UnaryOp) (dest src : ℕ)
  | binaryImmediate (dest lhs : ℕ) (operation : ImmediateBinaryOp) (rhs : ImmediateValue)
  | fallback (dest src fallback : ℕ)
  | jump (offset : ℤ)
  | jumpTrue (cond : ℕ) (offset : ℤ)
  | jumpFalse (cond : ℕ) (offset : ℤ)
  | jumpNull (val : ℕ) (offset : ℤ)
  | call (dest func argsStart argCount : ℕ)
  | tailCall (func argsStart argCount : ℕ)
  | callMethod (dest obj nameConst argsStart argCount : ℕ) (argTypes : List ℕ)
      (returnType : Option ℕ)
  | callDynamic (dest funcReg argsStart argCount : ℕ)
  | ret (src : ℕ)
  | retNull
  | panic (constIdx : ℕ)
  | allocLocal (dest typeIdx : ℕ)
  | loadField (dest obj field : ℕ)
  | storeField (obj field val : ℕ)
  | newArray (dest typeIdx lenReg : ℕ)
  | loadIndex (dest arr idx : ℕ)
  | storeIndex (arr idx val : ℕ)
  | newTuple (dest typeIdx start count : ℕ)
  | newChoice (dest typeIdx variantIdx payload : ℕ)
  | cast (dest src typeIdx : ℕ)
  | copy (dest src : ℕ)
  | instanceof (dest src typeIdx : ℕ)
  | drop (reg : ℕ)
  | awaitFuture (dest futureId returnType : ℕ)
  | createFuture (dest func argsStart argCount : ℕ) (argTypes : List ℕ) (returnType : ℕ)
  | createAwaitFuture (dest : ℕ) (operation : String) (argsStart argCount : ℕ)
      (argTypes : List ℕ) (returnType : ℕ)
  | callInternalThread (dest : ℕ) (operation : String) (argsStart argCount : ℕ)
      (argTypes : List ℕ) (returnType : ℕ)
  | createIndirectFuture (dest funcReg argsStart argCount : ℕ) (argTypes : List ℕ) (returnType : ℕ)
  | awaitAll (dest futuresStart count returnType : ℕ)
  | awaitRace (dest futuresStart count returnType : ℕ)
  | len (dest src : ℕ)
  | copyArray (dest destStart src : ℕ)
  | callInternalMath (dest operation argsStart argCount : ℕ)
  deriving DecidableEq, Repr

inductive Constant where
  | bool (b : Bool)
  | int8 (x : BitVec 8)
  | int16 (x : BitVec 16)
  | int32 (x : BitVec 32)
  | int64 (x : BitVec 64)
  | uint8 (x : BitVec 8)
  | uint16 (x : BitVec 16)
  | uint32 (x : BitVec 32)
  | uint64 (x : BitVec 64)
  | float32 (bits : BitVec 32)
  | float64 (bits : BitVec 64)
  | string (s : String)
  | bytes (b : List (BitVec 8))
  | function (funcIdx : ℕ)
  deriving DecidableEq, Repr

inductive BytecodeType where
  | null | bool
  | int8 | int16 | int32 | int64
  | uint8 | uint16 | uint32 | uint64
  | float32 | float64
  | adapterHandle (id : OpaqueTypeId)
  | struct (layoutIdx : ℕ)
  | array (elementTy : ℕ)
  | nullable (inner : ℕ)
  | tuple (elements : List ℕ)
  | choice (layoutIdx : ℕ)
  | constraint (name : String)
  | function (params : List ℕ) (ret : ℕ)
  | choiceVariant (layoutIdx variantIdx : ℕ)
  | any
  deriving DecidableEq, Repr

inductive OwnershipKind where
  | strong | weak | value
  deriving DecidableEq, Repr

structure FieldLayout where
  name : String
  ty : ℕ
  offset : ℕ
  ownership : OwnershipKind
  deriving DecidableEq, Repr

structure StructLayout where
  name : String
  fields : List FieldLayout
  constraints : List String
  deriving DecidableEq, Repr

structure ChoiceVariantLayout where
  name : String
  payloadTy : Option ℕ
  deriving DecidableEq, Repr

structure ChoiceLayout where
  name : String
  variants : List ChoiceVariantLayout
  deriving DecidableEq, Repr

inductive ImportKind where
  | function | global
  deriving DecidableEq, Repr

structure ImportSlot where
  moduleName : String
  symbolName : String
  ty : ℕ
  kind : ImportKind
  deriving DecidableEq, Repr

inductive ExportKind where
  | function (funcIdx : ℕ)
  | global (globalIdx : ℕ)
  deriving DecidableEq, Repr

structure ExportSlot where
  symbolName : String
  kind : ExportKind
  deriving DecidableEq, Repr

structure AdapterProxyMetadata where
  proxyModule : String
  symbol : String
  deriving DecidableEq, Repr

structure BytecodeFunction where
  name : String
  paramCount : ℕ
  localCount : ℕ
  tempCount : ℕ
  returnTy : ℕ
  adapterProxyMetadata : Option AdapterProxyMetadata
  instructions : List Instruction
  deriving DecidableEq, Repr

def BytecodeFunction.registerCount (f : BytecodeFunction) : ℕ :=
  f.paramCount + f.localCount + f.tempCount

structure BytecodeModule where
  name : String
  globalCount : ℕ
  constants : List Constant
  functions : List BytecodeFunction
  types : List BytecodeType
  structLayouts : List StructLayout
  choiceLayouts : List ChoiceLayout
  imports : List ImportSlot
  exports : List ExportSlot
  initFuncIdx : Option ℕ
  deriving DecidableEq, Repr

end Galfus
