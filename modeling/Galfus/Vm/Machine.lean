import Galfus.Bytecode.Basic

/-! # The virtual machine

What a virtual machine has apart from the state of its threads: the modules that
it can run, and what the host fixes.
-/

namespace Galfus

/-- `normalize_f32`: one NaN, and no negative zero. -/
def normalizeF32 (x : BitVec 32) : BitVec 32 :=
  if 0x7F800000#32 < x &&& 0x7FFFFFFF#32 then 0x7FC00000#32
  else if x = 0x80000000#32 then 0#32
  else x

def normalizeF64 (x : BitVec 64) : BitVec 64 :=
  if 0x7FF0000000000000#64 < x &&& 0x7FFFFFFFFFFFFFFF#64 then 0x7FF8000000000000#64
  else if x = 0x8000000000000000#64 then 0#64
  else x

inductive FloatArith where
  | add | sub | mul | div | rem | pow
  deriving DecidableEq, Repr

/-- The floating-point operations of the host, on bit patterns. `truncF32 x lo hi` converts to an
integer between `lo` and `hi`. -/
structure FloatOps where
  ofIntF32 : ℤ → BitVec 32
  ofIntF64 : ℤ → BitVec 64
  truncF32 : BitVec 32 → ℤ → ℤ → ℤ
  truncF64 : BitVec 64 → ℤ → ℤ → ℤ
  promote : BitVec 32 → BitVec 64
  demote : BitVec 64 → BitVec 32
  arithF32 : FloatArith → BitVec 32 → BitVec 32 → BitVec 32
  arithF64 : FloatArith → BitVec 64 → BitVec 64 → BitVec 64
  compareF32 : BitVec 32 → BitVec 32 → Option Ordering
  compareF64 : BitVec 64 → BitVec 64 → Option Ordering
  mathF64 : ℕ → BitVec 64 → BitVec 64
  hypotF64 : BitVec 64 → BitVec 64 → BitVec 64
  deriving Inhabited

inductive ResolvedImportKind where
  | function (funcIdx : ℕ)
  | global (globalIdx : ℕ)
  deriving DecidableEq, Repr

/-- The module and the item that an import slot stands for. -/
structure ResolvedImport where
  moduleId : ℕ
  kind : ResolvedImportKind
  deriving DecidableEq, Repr

/-- A virtual machine: its modules with their resolved imports, and what depends on the host. -/
structure VirtualMachine where
  modules : ℕ → Option BytecodeModule
  growth : VecGrowth
  floats : FloatOps
  stackDepth : ℕ
  debugType : BytecodeType → String
  debugConstant : Constant → String
  lossyText : List (BitVec 8) → String
  resolveImports : ℕ → Option (List ResolvedImport)

namespace VirtualMachine

variable (vm : VirtualMachine)

def getModule (moduleId : ℕ) : Except VmError BytecodeModule :=
  match vm.modules moduleId with
  | some m => .ok m
  | none => .error (.moduleNotFound moduleId)

def structLayout (moduleId layoutIdx : ℕ) : Except VmError StructLayout := do
  let m ← vm.getModule moduleId
  match m.structLayouts[layoutIdx]? with
  | some layout => .ok layout
  | none => .error (.typeMismatch "valid struct layout")

/-- A machine without modules whose buffers start with four elements and double. -/
def bare : VirtualMachine :=
  ⟨fun _ => none, .doubling, default, 64, default, default, default, fun _ => none⟩

end VirtualMachine

end Galfus
