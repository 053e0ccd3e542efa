import Galfus.Word.Basic
import Galfus.Vm.Execute

/-! # Operators

The values of the arithmetic, bitwise and comparison operators. Each integer operator has up
to three encodings: an instruction for operands of any type, one for operands of a known
type, and one with an immediate operand. The budgeted interpreter evaluates some of the
first kind, and all of the second, in its own loop.
-/

namespace Galfus

/-- A value, an error of the virtual machine, or a panic of the host. -/
abbrev Outcome := Option (Except VmError VmValue)

namespace VmValue

def onInteger {α : Type} (f : ∀ {w : ℕ}, Bool → (BitVec w → VmValue) → BitVec w → α) (other : α) :
    VmValue → α
  | .int8 x => f true .int8 x
  | .int16 x => f true .int16 x
  | .int32 x => f true .int32 x
  | .int64 x => f true .int64 x
  | .uint8 x => f false .uint8 x
  | .uint16 x => f false .uint16 x
  | .uint32 x => f false .uint32 x
  | .uint64 x => f false .uint64 x
  | _ => other

def onIntegers {α : Type} (f : ∀ {w : ℕ}, Bool → (BitVec w → VmValue) → BitVec w → BitVec w → α)
    (other : VmValue → VmValue → α) : VmValue → VmValue → α
  | .int8 l, .int8 r => f true .int8 l r
  | .int16 l, .int16 r => f true .int16 l r
  | .int32 l, .int32 r => f true .int32 l r
  | .int64 l, .int64 r => f true .int64 l r
  | .uint8 l, .uint8 r => f false .uint8 l r
  | .uint16 l, .uint16 r => f false .uint16 l r
  | .uint32 l, .uint32 r => f false .uint32 l r
  | .uint64 l, .uint64 r => f false .uint64 l r
  | l, r => other l r

end VmValue

/-- The typed operator that an operator on floats with an immediate operand stands for. -/
def ImmediateBinaryOp.typed? : ImmediateBinaryOp → Option TypedOp
  | .add => some .add
  | .subtract => some .sub
  | .multiply => some .mul
  | .divide => some .div
  | .remainder => some .rem
  | .equal => some .eq
  | .notEqual => some .ne
  | .less => some .lt
  | .lessEqual => some .le
  | .greater => some .gt
  | .greaterEqual => some .ge
  | _ => none

/-- The operators that `execute_with_budget` evaluates in its loop. -/
def BinaryOp.isHot : BinaryOp → Bool
  | .add | .sub | .lt | .le | .eq | .ne => true
  | _ => false

namespace VirtualMachine

open VmValue ThreadState

variable (vm : VirtualMachine)

/-- The equality of values; that of floats is the one of the host. -/
def valueEq : VmValue → VmValue → Bool
  | .float32 l, .float32 r => vm.floats.compareF32 l r = some .eq
  | .float64 l, .float64 r => vm.floats.compareF64 l r = some .eq
  | l, r => l = r

/-- Two floats of one width, or an error. -/
def onFloats (op : FloatArith) (expected : String) : VmValue → VmValue → Outcome
  | .float32 l, .float32 r => some (.ok (.float32 (normalizeF32 (vm.floats.arithF32 op l r))))
  | .float64 l, .float64 r => some (.ok (.float64 (normalizeF64 (vm.floats.arithF64 op l r))))
  | _, _ => some (.error (.typeMismatch expected))

/-- `impl_binary_op`, given the operation on integers and on floats. -/
def arithmetic (int : ∀ {w : ℕ}, BitVec w → BitVec w → BitVec w) (float : FloatArith) :
    VmValue → VmValue → Outcome :=
  onIntegers (fun _ mk l r => some (.ok (mk (int l r))))
    (vm.onFloats float "matching numeric types")

/-- A division of integers, given the quotient of nonzero divisors. -/
def divideInts (quotient : ∀ {w : ℕ}, Bool → BitVec w → BitVec w → Option (BitVec w)) {w : ℕ}
    (signed : Bool) (mk : BitVec w → VmValue) (l r : BitVec w) : Outcome :=
  if r = 0 then some (.error .divisionByZero) else (quotient signed l r).map fun q => .ok (mk q)

def division : VmValue → VmValue → Outcome :=
  onIntegers (divideInts Word.div?) (vm.onFloats .div "matching numeric types")

/-- Remainders of floats are not supported. -/
def remainder : VmValue → VmValue → Outcome :=
  onIntegers (divideInts Word.rem?) fun _ _ =>
    some (.error (.typeMismatch "matching integer types"))

def powValues : VmValue → VmValue → Outcome :=
  onIntegers (fun signed mk l r => some (.ok (mk (l ^ Word.asU32 signed r))))
    (vm.onFloats .pow "matching numeric types")

def toShiftAmount (v : VmValue) : Except VmError ℕ :=
  v.onInteger (fun signed _ x => .ok (Word.asU32 signed x))
    (.error (.typeMismatch "integer shift amount"))

/-- A shift; the amount may be an integer of any type. -/
def shift (f : ∀ {w : ℕ}, Bool → BitVec w → ℕ → BitVec w) (lhs rhs : VmValue) : Outcome :=
  match toShiftAmount rhs with
  | .error e => some (.error e)
  | .ok n => lhs.onInteger (fun signed mk l => some (.ok (mk (f signed l n))))
      (some (.error (.typeMismatch "integer type for shift")))

/-- `impl_bitwise_op`, given the operation on integers and on truth values. -/
def bitwise (int : ∀ {w : ℕ}, BitVec w → BitVec w → BitVec w) (bool : Bool → Bool → Bool) :
    VmValue → VmValue → Outcome :=
  onIntegers (fun _ mk l r => some (.ok (mk (int l r)))) fun
    | .bool l, .bool r => some (.ok (.bool (bool l r)))
    | _, _ => some (.error (.typeMismatch "matching integer or boolean types"))

/-- The order of two values; floats may be unordered. -/
def compareValues : VmValue → VmValue → Except VmError (Option Ordering) :=
  onIntegers (fun signed _ l r => .ok (some (Word.cmp signed l r))) fun
    | .bool l, .bool r => .ok (some (compare l r))
    | .float32 l, .float32 r => .ok (vm.floats.compareF32 l r)
    | .float64 l, .float64 r => .ok (vm.floats.compareF64 l r)
    | _, _ => .error (.typeMismatch "matching comparable types")

def comparison (test : Ordering → Bool) (lhs rhs : VmValue) : Outcome :=
  some ((vm.compareValues lhs rhs).map fun o => .bool (o.any test))

/-- The binary operators of `execute_operator_instruction`. -/
def binaryValue : BinaryOp → VmValue → VmValue → Outcome
  | .add => vm.arithmetic (· + ·) .add
  | .sub => vm.arithmetic (· - ·) .sub
  | .mul => vm.arithmetic (· * ·) .mul
  | .div => vm.division
  | .rem => remainder
  | .pow => vm.powValues
  | .shl => shift fun _ l n => Word.wrappingShl l n
  | .shr => shift Word.wrappingShr
  | .and => bitwise (· &&& ·) (· && ·)
  | .or => bitwise (· ||| ·) (· || ·)
  | .xor => bitwise (· ^^^ ·) (· ^^ ·)
  | .eq => fun l r => some (.ok (.bool (vm.valueEq l r)))
  | .ne => fun l r => some (.ok (.bool (!vm.valueEq l r)))
  | .lt => vm.comparison Ordering.isLT
  | .le => vm.comparison Ordering.isLE
  | .gt => vm.comparison Ordering.isGT
  | .ge => vm.comparison Ordering.isGE

/-- The binary operators of `execute_with_budget`. Only `Lt` and `Le` differ, as they compare some
integers in place. -/
def hotBinaryValue : BinaryOp → VmValue → VmValue → Outcome
  | .lt => fun
    | .int32 l, .int32 r => some (.ok (.bool (Word.lt true l r)))
    | .int64 l, .int64 r => some (.ok (.bool (Word.lt true l r)))
    | .uint32 l, .uint32 r => some (.ok (.bool (Word.lt false l r)))
    | .uint64 l, .uint64 r => some (.ok (.bool (Word.lt false l r)))
    | l, r => vm.comparison Ordering.isLT l r
  | .le => fun
    | .int32 l, .int32 r => some (.ok (.bool (Word.le true l r)))
    | .int64 l, .int64 r => some (.ok (.bool (Word.le true l r)))
    | l, r => vm.comparison Ordering.isLE l r
  | op => vm.binaryValue op

/-- The operators on integers of a known type. -/
def typedInts (op : TypedOp) {w : ℕ} (mk : BitVec w → VmValue) (l r : BitVec w) : Outcome :=
  match op with
  | .add => some (.ok (mk (l + r)))
  | .sub => some (.ok (mk (l - r)))
  | .mul => some (.ok (mk (l * r)))
  | .div => divideInts (fun signed l r => some (Word.wrappingDiv signed l r)) true mk l r
  | .rem => divideInts (fun signed l r => some (Word.wrappingRem signed l r)) true mk l r
  | .eq => some (.ok (.bool (l = r)))
  | .ne => some (.ok (.bool (l ≠ r)))
  | .lt => some (.ok (.bool (Word.lt true l r)))
  | .le => some (.ok (.bool (Word.le true l r)))
  | .gt => some (.ok (.bool (Word.lt true r l)))
  | .ge => some (.ok (.bool (Word.le true r l)))

/-- The operators on floats of a known width, given their arithmetic and order. -/
def typedFloats (op : TypedOp) {w : ℕ} (mk : BitVec w → VmValue)
    (arith : FloatArith → BitVec w → BitVec w → BitVec w)
    (cmp : BitVec w → BitVec w → Option Ordering) (l r : BitVec w) : VmValue :=
  match op with
  | .add => mk (arith .add l r)
  | .sub => mk (arith .sub l r)
  | .mul => mk (arith .mul l r)
  | .div => mk (arith .div l r)
  | .rem => mk (arith .rem l r)
  | .eq => .bool (cmp l r = some .eq)
  | .ne => .bool (cmp l r ≠ some .eq)
  | .lt => .bool ((cmp l r).any Ordering.isLT)
  | .le => .bool ((cmp l r).any Ordering.isLE)
  | .gt => .bool ((cmp l r).any Ordering.isGT)
  | .ge => .bool ((cmp l r).any Ordering.isGE)

/-- The operators for operands of a known type. Operands of other types are undefined
behaviour. -/
def typedBinaryValue (kind : NumKind) (op : TypedOp) (lhs rhs : VmValue) : Outcome :=
  match kind, lhs, rhs with
  | .i32, .int32 l, .int32 r => typedInts op .int32 l r
  | .i64, .int64 l, .int64 r => typedInts op .int64 l r
  | .f32, .float32 l, .float32 r => some (.ok (typedFloats op (.float32 ∘ normalizeF32)
      vm.floats.arithF32 vm.floats.compareF32 l r))
  | .f64, .float64 l, .float64 r => some (.ok (typedFloats op (.float64 ∘ normalizeF64)
      vm.floats.arithF64 vm.floats.compareF64 l r))
  | _, _, _ => none

/-- The operators with an immediate operand, on integers. -/
def immediateInts (op : ImmediateBinaryOp) {w : ℕ} (signed : Bool) (mk : BitVec w → VmValue)
    (l r : BitVec w) : Outcome :=
  match op with
  | .add => some (.ok (mk (l + r)))
  | .subtract => some (.ok (mk (l - r)))
  | .multiply => some (.ok (mk (l * r)))
  | .divide => divideInts Word.div? signed mk l r
  | .remainder => divideInts Word.rem? signed mk l r
  | .equal => some (.ok (.bool (l = r)))
  | .notEqual => some (.ok (.bool (l ≠ r)))
  | .less => some (.ok (.bool (Word.lt signed l r)))
  | .lessEqual => some (.ok (.bool (Word.le signed l r)))
  | .greater => some (.ok (.bool (Word.lt signed r l)))
  | .greaterEqual => some (.ok (.bool (Word.le signed r l)))
  | .shiftLeft => some (.ok (mk (Word.wrappingShl l (Word.asU32 signed r))))
  | .shiftRight => some (.ok (mk (Word.wrappingShr signed l (Word.asU32 signed r))))
  | .bitwiseAnd => some (.ok (mk (l &&& r)))
  | .bitwiseOr => some (.ok (mk (l ||| r)))
  | .bitwiseXor => some (.ok (mk (l ^^^ r)))

def immediateBinaryValue (lhs : VmValue) (rhs : ImmediateValue) (op : ImmediateBinaryOp) :
    Outcome :=
  match lhs, rhs with
  | .int32 l, .i32 r => immediateInts op true .int32 l r
  | .int64 l, .i64 r => immediateInts op true .int64 l r
  | .uint32 l, .u32 r => immediateInts op false .uint32 l r
  | .uint64 l, .u64 r => immediateInts op false .uint64 l r
  | .float32 _, .f32 r =>
    match op.typed? with
    | some op => vm.typedBinaryValue .f32 op lhs (.float32 r)
    | none => some (.error (.typeMismatch "numeric operation"))
  | .float64 _, .f64 r =>
    match op.typed? with
    | some op => vm.typedBinaryValue .f64 op lhs (.float64 r)
    | none => some (.error (.typeMismatch "numeric operation"))
  | _, _ => some (.error (.typeMismatch "matching immediate type"))

def unaryValue : UnaryOp → VmValue → Outcome
  | .neg, .int8 x => some (.ok (.int8 (-x)))
  | .neg, .int16 x => some (.ok (.int16 (-x)))
  | .neg, .int32 x => some (.ok (.int32 (-x)))
  | .neg, .int64 x => some (.ok (.int64 (-x)))
  | .neg, .float32 x => some (.ok (.float32 (normalizeF32 (x ^^^ 0x80000000#32))))
  | .neg, .float64 x => some (.ok (.float64 (normalizeF64 (x ^^^ 0x8000000000000000#64))))
  | .neg, _ => some (.error (.typeMismatch "signed numeric type"))
  | .not, .bool b => some (.ok (.bool !b))
  | .not, _ => some (.error (.typeMismatch "boolean type"))
  | .bitNot, v => v.onInteger (fun _ mk x => some (.ok (mk (~~~x))))
      (some (.error (.typeMismatch "integer type")))

def executeOperatorInstruction : Instruction → ThreadExec VmStep
  | .binaryImmediate dest lhs op rhs => do
    let l ← readReg lhs
    let v ← Exec.attempt (vm.immediateBinaryValue l rhs op)
    writeReg dest v
    pure .continue
  | .binary op dest lhs rhs => do
    let l ← readReg lhs
    let r ← readReg rhs
    let v ← Exec.attempt (vm.binaryValue op l r)
    writeReg dest v
    pure .continue
  | .unary op dest src => do
    let x ← readReg src
    let v ← Exec.attempt (unaryValue op x)
    writeReg dest v
    pure .continue
  | .fallback dest src fallback => executeFallback dest src fallback
  | _ => Exec.stop

/-- The operators that `execute_with_budget` evaluates in its loop, in the frame at `base`. -/
def executeHotOperator (base : ℕ) : Instruction → ThreadExec Unit
  | .binaryImmediate dest lhs op rhs => do
    let l ← readRegAt base lhs
    let v ← Exec.attempt (vm.immediateBinaryValue l rhs op)
    writePrimRegAt base dest v
  | .typedBinary kind op dest lhs rhs => do
    let l ← readRegAt base lhs
    let r ← readRegAt base rhs
    let v ← Exec.attempt (vm.typedBinaryValue kind op l r)
    writePrimRegAt base dest v
  | .binary op dest lhs rhs => do
    let l ← readRegAt base lhs
    let r ← readRegAt base rhs
    let v ← Exec.attempt (vm.hotBinaryValue op l r)
    writePrimRegAt base dest v
  | _ => Exec.stop

end VirtualMachine

end Galfus
