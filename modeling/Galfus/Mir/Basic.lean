import Mathlib.Tactic.Common

/-! # The middle representation

Functions of basic blocks with block parameters, before they become bytecode, and the
operands that their instructions read. Source positions and type substitutions are left
out.
-/

namespace Galfus.Mir

abbrev LocalId := ℕ
abbrev BlockId := ℕ
abbrev FunctionId := ℕ
abbrev TypeId := ℕ
abbrev SymbolId := ℕ

inductive Constant where
  | null
  | bool (b : Bool)
  | int8 (x : BitVec 8)
  | int16 (x : BitVec 16)
  | int32 (x : BitVec 32)
  | int64 (x : BitVec 64)
  | uint8 (x : BitVec 8)
  | uint16 (x : BitVec 16)
  | uint32 (x : BitVec 32)
  | uint64 (x : BitVec 64)
  | float32 (bits : BitVec 32)
  | float64 (bits : BitVec 64)
  | string (s : String)
  | function (id : FunctionId)
  deriving DecidableEq, Repr

/-- `Operand`; `Local` is a keyword here. -/
inductive Operand where
  | constant (c : Constant)
  | constRef (index : ℕ)
  | loc (id : LocalId)
  deriving DecidableEq, Repr

inductive MirUnaryOp where
  | negate | not | bitwiseNot
  deriving DecidableEq, Repr

inductive MirBinaryOp where
  | add | subtract | multiply | divide | remainder | power
  | shiftLeft | shiftRight | bitwiseAnd | bitwiseOr | bitwiseXor
  | equal | notEqual | less | lessEqual | greater | greaterEqual
  | logicalAnd | logicalOr | nullFallback
  deriving DecidableEq, Repr

inductive ArrayLiteralElement where
  | single (op : Operand)
  | spread (op : Operand)
  deriving DecidableEq, Repr

inductive RValue where
  | use (op : Operand)
  | unaryOp (op : MirUnaryOp) (x : Operand)
  | binaryOp (op : MirBinaryOp) (lhs rhs : Operand)
  | cast (x : Operand) (ty : TypeId)
  | copy (x : Operand)
  | newStruct (ty : TypeId) (fields : List Operand)
  | newArray (ty : TypeId) (elements : List Operand)
  | newArrayDynamic (ty : TypeId) (elements : List ArrayLiteralElement)
  | newArrayZeroed (arrayType elementType : TypeId) (size : ℕ)
  | newArrayZeroedDynamic (arrayType elementType : TypeId) (length : Operand)
  | newTuple (ty : TypeId) (elements : List Operand)
  | memberAccess (x : Operand) (field : String)
  | arrayIndex (arr idx : Operand)
  | choice (ty : TypeId) (variant : String) (payload : Option Operand)
  | choiceVariantIs (x : Operand) (variant : SymbolId)
  | importedChoiceVariantIs (x : Operand) (choice variant : String)
  | instanceof (x : Operand) (ty : TypeId)
  | loadGlobal (name : String)
  | len (x : Operand)
  | createFuture (func : FunctionId) (args : List Operand) (isExternal : Bool)
  | createIndirectFuture (func : Operand) (args : List Operand)
  deriving DecidableEq, Repr

inductive Instruction where
  | assign (dest : LocalId) (rvalue : RValue)
  | drop (id : LocalId)
  | storeGlobal (name : String) (val : Operand)
  | storeIndex (arr idx val : Operand)
  | storeField (obj : Operand) (fieldName : String) (val : Operand)
  | call (func : FunctionId) (args : List Operand) (dest : LocalId) (isExternal : Bool)
  | indirectCall (func : Operand) (args : List Operand) (dest : LocalId)
  | constraintCall (methodName : String) (obj : Operand) (args : List Operand) (dest : LocalId)
      (returnType : TypeId)
  | await (future : Operand) (dest : LocalId) (dropFuture : Bool)
  | awaitAll (futures : List Operand) (dest : LocalId)
  | awaitRace (futures : List Operand) (dest : LocalId)
  deriving DecidableEq, Repr

inductive Terminator where
  | ret (value : Option Operand)
  | jump (target : BlockId) (args : List Operand)
  | branch (cond : Operand) (trueBlock : BlockId) (trueArgs : List Operand)
      (falseBlock : BlockId) (falseArgs : List Operand)
  | tailCall (func : FunctionId) (args : List Operand) (isExternal : Bool)
  | panic (message : String)
  deriving DecidableEq, Repr

structure LocalDecl where
  id : LocalId
  ty : TypeId
  isOwned : Bool
  deriving DecidableEq, Repr

structure BasicBlock where
  id : BlockId
  parameters : List LocalDecl
  instructions : List Instruction
  terminator : Terminator
  deriving DecidableEq, Repr

structure MirFunction where
  id : FunctionId
  name : String
  returnType : TypeId
  parameterTypes : List TypeId
  locals : List LocalDecl
  blocks : List BasicBlock
  isAsync : Bool
  deriving DecidableEq, Repr

def Operand.local? : Operand → Option LocalId
  | .loc id => some id
  | _ => none

def ArrayLiteralElement.operand : ArrayLiteralElement → Operand
  | .single op | .spread op => op

namespace RValue

/-- `for_each_rvalue_operand`. -/
def operands : RValue → List Operand
  | use x | unaryOp _ x | cast x _ | copy x | memberAccess x _ | choiceVariantIs x _
  | importedChoiceVariantIs x _ _ | instanceof x _ | len x => [x]
  | binaryOp _ lhs rhs | arrayIndex lhs rhs => [lhs, rhs]
  | newStruct _ fields | newArray _ fields | newTuple _ fields => fields
  | newArrayDynamic _ elements => elements.map ArrayLiteralElement.operand
  | newArrayZeroedDynamic _ _ length => [length]
  | choice _ _ payload => payload.toList
  | createFuture _ args _ => args
  | createIndirectFuture func args => func :: args
  | newArrayZeroed _ _ _ | loadGlobal _ => []

end RValue

namespace Instruction

/-- `for_each_instruction_operand`. -/
def operands : Instruction → List Operand
  | assign _ rvalue => rvalue.operands
  | storeGlobal _ val => [val]
  | storeIndex arr idx val => [arr, idx, val]
  | storeField obj _ val => [obj, val]
  | call _ args _ _ | awaitAll args _ | awaitRace args _ => args
  | indirectCall func args _ => func :: args
  | constraintCall _ obj args _ _ => obj :: args
  | await future _ _ => [future]
  | drop _ => []

/-- `instruction_destination`. -/
def destination? : Instruction → Option LocalId
  | assign dest _ | call _ _ dest _ | indirectCall _ _ dest | constraintCall _ _ _ dest _
  | await _ dest _ | awaitAll _ dest | awaitRace _ dest => some dest
  | drop _ | storeGlobal _ _ | storeIndex _ _ _ | storeField _ _ _ => none

end Instruction

namespace Terminator

/-- `successor_blocks`. -/
def successors : Terminator → List (BlockId × List Operand)
  | jump target args => [(target, args)]
  | branch _ trueBlock trueArgs falseBlock falseArgs =>
    [(trueBlock, trueArgs), (falseBlock, falseArgs)]
  | ret _ | panic _ | tailCall _ _ _ => []

end Terminator

end Galfus.Mir
