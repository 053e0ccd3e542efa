import Galfus.Vm.Operators

/-! # Encodings of integer operators

All instructions for an integer operator write the same value or raise the same error, in
both interpreters, unless the least signed integer is divided by minus one: there the
instructions for operands of any type and those with an immediate operand panic.
-/

namespace Galfus

inductive IntType where
  | int8 | int16 | int32 | int64 | uint8 | uint16 | uint32 | uint64
  deriving DecidableEq, Repr

namespace IntType

def width : IntType → ℕ
  | int8 | uint8 => 8
  | int16 | uint16 => 16
  | int32 | uint32 => 32
  | int64 | uint64 => 64

def signed : IntType → Bool
  | int8 | int16 | int32 | int64 => true
  | _ => false

def value : (ty : IntType) → BitVec ty.width → VmValue
  | int8 => .int8
  | int16 => .int16
  | int32 => .int32
  | int64 => .int64
  | uint8 => .uint8
  | uint16 => .uint16
  | uint32 => .uint32
  | uint64 => .uint64

def numKind? : IntType → Option NumKind
  | int32 => some .i32
  | int64 => some .i64
  | _ => none

/-- The types with immediate operands. -/
def immediate? : (ty : IntType) → BitVec ty.width → Option ImmediateValue
  | int32 => fun x => some (.i32 x)
  | int64 => fun x => some (.i64 x)
  | uint32 => fun x => some (.u32 x)
  | uint64 => fun x => some (.u64 x)
  | _ => fun _ => none

theorem width_pos (ty : IntType) : 0 < ty.width := by cases ty <;> decide

end IntType

namespace BinaryOp

def typed? : BinaryOp → Option TypedOp
  | .add => some .add
  | .sub => some .sub
  | .mul => some .mul
  | .div => some .div
  | .rem => some .rem
  | .eq => some .eq
  | .ne => some .ne
  | .lt => some .lt
  | .le => some .le
  | .gt => some .gt
  | .ge => some .ge
  | _ => none

/-- `immediate_binary_operation`. -/
def immediate? : BinaryOp → Option ImmediateBinaryOp
  | .add => some .add
  | .sub => some .subtract
  | .mul => some .multiply
  | .div => some .divide
  | .rem => some .remainder
  | .pow => none
  | .shl => some .shiftLeft
  | .shr => some .shiftRight
  | .and => some .bitwiseAnd
  | .or => some .bitwiseOr
  | .xor => some .bitwiseXor
  | .eq => some .equal
  | .ne => some .notEqual
  | .lt => some .less
  | .le => some .lessEqual
  | .gt => some .greater
  | .ge => some .greaterEqual

def divides : BinaryOp → Bool
  | .div | .rem => true
  | _ => false

theorem divides_iff (op : BinaryOp) : op.divides = true ↔ op = .div ∨ op = .rem := by
  cases op <;> simp [divides]

/-- What an operator does with integers of one type. -/
def onInts (op : BinaryOp) {w : ℕ} (signed : Bool) (mk : BitVec w → VmValue) (l r : BitVec w) :
    Except VmError VmValue :=
  match op with
  | .add => .ok (mk (l + r))
  | .sub => .ok (mk (l - r))
  | .mul => .ok (mk (l * r))
  | .div => if r = 0 then .error .divisionByZero else .ok (mk (Word.wrappingDiv signed l r))
  | .rem => if r = 0 then .error .divisionByZero else .ok (mk (Word.wrappingRem signed l r))
  | .pow => .ok (mk (l ^ Word.asU32 signed r))
  | .shl => .ok (mk (Word.wrappingShl l (Word.asU32 signed r)))
  | .shr => .ok (mk (Word.wrappingShr signed l (Word.asU32 signed r)))
  | .and => .ok (mk (l &&& r))
  | .or => .ok (mk (l ||| r))
  | .xor => .ok (mk (l ^^^ r))
  | .eq => .ok (.bool (l = r))
  | .ne => .ok (.bool (l ≠ r))
  | .lt => .ok (.bool (Word.lt signed l r))
  | .le => .ok (.bool (Word.le signed l r))
  | .gt => .ok (.bool (Word.lt signed r l))
  | .ge => .ok (.bool (Word.le signed r l))

end BinaryOp

namespace VirtualMachine

open VmValue ThreadState

variable {vm : VirtualMachine} {ty : IntType} {op : BinaryOp} {l r : BitVec ty.width}

theorem onIntegers_value {α : Type}
    (f : ∀ {w : ℕ}, Bool → (BitVec w → VmValue) → BitVec w → BitVec w → α)
    (o : VmValue → VmValue → α) :
    onIntegers f o (ty.value l) (ty.value r) = f ty.signed ty.value l r := by
  cases ty <;> rfl

theorem valueEq_value : vm.valueEq (ty.value l) (ty.value r) = decide (l = r) := by
  have hi : ty.value l = ty.value r ↔ l = r := by
    cases ty <;> exact ⟨fun h => by injection h, fun h => by rw [h]⟩
  have heq : vm.valueEq (ty.value l) (ty.value r) = decide (ty.value l = ty.value r) := by
    cases ty <;> rfl
  rw [heq, decide_eq_decide]
  exact hi

/-- A division whose quotient does not fit. -/
def Panics (op : BinaryOp) (signed : Bool) {w : ℕ} (l r : BitVec w) : Prop :=
  op.divides = true ∧ Word.Overflows signed l r

instance (op : BinaryOp) (signed : Bool) {w : ℕ} (l r : BitVec w) :
    Decidable (Panics op signed l r) :=
  inferInstanceAs (Decidable (_ ∧ _))

theorem divideInts_value {w : ℕ} (hw : 0 < w) (s : Bool) (mk : BitVec w → VmValue)
    (l r : BitVec w) :
    divideInts Word.div? s mk l r = (if Panics .div s l r then none
      else some (BinaryOp.div.onInts s mk l r)) ∧
    divideInts Word.rem? s mk l r = if Panics .rem s l r then none
      else some (BinaryOp.rem.onInts s mk l r) := by
  by_cases h : Word.Overflows s l r
  · simp [divideInts, Panics, BinaryOp.divides, h, h.ne_zero hw]
  · simp only [divideInts, Panics, h, and_false, if_false, BinaryOp.onInts]
    split <;> simp [h]

theorem binaryValue_value (vm : VirtualMachine) (op : BinaryOp) (l r : BitVec ty.width) :
    vm.binaryValue op (ty.value l) (ty.value r) =
      if Panics op ty.signed l r then none else some (op.onInts ty.signed ty.value l r) := by
  cases op with
  | div => exact (onIntegers_value ..).trans (divideInts_value ty.width_pos ..).1
  | rem => exact (onIntegers_value ..).trans (divideInts_value ty.width_pos ..).2
  | eq | ne => simp [binaryValue, valueEq_value, BinaryOp.onInts, Panics, BinaryOp.divides]
  | lt | le | gt | ge =>
    simp only [binaryValue, comparison, compareValues, onIntegers_value]
    simp [Except.map, BinaryOp.onInts, Panics, BinaryOp.divides]
  | _ => cases ty <;> rfl

theorem hotBinaryValue_eq (vm : VirtualMachine) (op : BinaryOp) (l r : VmValue) :
    vm.hotBinaryValue op l r = vm.binaryValue op l r := by
  cases op with
  | lt =>
    simp only [hotBinaryValue]
    split <;> first
      | rfl
      | exact congrArg (fun b => some (Except.ok (VmValue.bool b))) (Word.isLT_cmp ..).symm
  | le =>
    simp only [hotBinaryValue]
    split <;> first
      | rfl
      | exact congrArg (fun b => some (Except.ok (VmValue.bool b))) (Word.isLE_cmp ..).symm
  | _ => rfl

theorem typedBinaryValue_value {k : NumKind} {tp : TypedOp} (hk : ty.numKind? = some k)
    (ht : op.typed? = some tp) (l r : BitVec ty.width) :
    vm.typedBinaryValue k tp (ty.value l) (ty.value r) =
      some (op.onInts ty.signed ty.value l r) := by
  have hi : vm.typedBinaryValue k tp (ty.value l) (ty.value r) = typedInts tp ty.value l r := by
    cases ty <;> cases hk <;> rfl
  have hs : ty.signed = true := by
    cases ty <;> first | rfl | cases hk
  rw [hi, hs]
  cases op <;> cases ht <;> first | rfl | exact (apply_ite some ..).symm

theorem immediateBinaryValue_value {im : ImmediateValue} {ip : ImmediateBinaryOp}
    (him : ty.immediate? r = some im) (hip : op.immediate? = some ip) (l : BitVec ty.width) :
    vm.immediateBinaryValue (ty.value l) im ip =
      if Panics op ty.signed l r then none else some (op.onInts ty.signed ty.value l r) := by
  have hi : vm.immediateBinaryValue (ty.value l) im ip =
      immediateInts ip ty.signed ty.value l r := by
    cases ty <;> cases him <;> rfl
  rw [hi]
  cases op <;> cases hip <;> first
    | exact (divideInts_value ty.width_pos ..).1
    | exact (divideInts_value ty.width_pos ..).2
    | rfl

/-- The ways in which the two interpreters evaluate an operator in the frame at `base`. -/
def evaluations (vm : VirtualMachine) (base : ℕ) (i : Instruction) : List (ThreadExec Unit) :=
  let cold : ThreadExec Unit := do
    let _ ← vm.executeOperatorInstruction i
  match i with
  | .binary op _ _ _ => cold :: if op.isHot then [vm.executeHotOperator base i] else []
  | .binaryImmediate _ _ _ _ => [cold, vm.executeHotOperator base i]
  | .typedBinary _ _ _ _ _ => [vm.executeHotOperator base i]
  | _ => []

/-- The instructions for an operator with integer operands. The second operand is in a
register or, in the last one, immediate. -/
def encodings (ty : IntType) (op : BinaryOp) (dest lhs rhs : ℕ) (r : BitVec ty.width) :
    List Instruction :=
  .binary op dest lhs rhs ::
    ((do return .typedBinary (← ty.numKind?) (← op.typed?) dest lhs rhs : Option _).toList ++
      (do return .binaryImmediate dest lhs (← op.immediate?) (← ty.immediate? r) : Option _).toList)

def storeOutcome (base dest : ℕ) (out : Outcome) : ThreadExec Unit := do
  let v ← Exec.attempt out
  writePrimRegAt base dest v

theorem writeReg_eq_writePrimRegAt {v : VmValue} (hv : v.isObject = false) (dest : ℕ)
    (t : ThreadState) : writeReg dest v t = writePrimRegAt t.currentRegisterBase dest v t := by
  simp [writeReg, writePrimRegAt, hv]

theorem onInts_isObject {v : VmValue} (h : op.onInts ty.signed ty.value l r = .ok v) :
    v.isObject = false := by
  have hi : ∀ x : BitVec ty.width, (ty.value x).isObject = false := by
    intro x
    cases ty <;> rfl
  cases op with
  | div | rem =>
    simp only [BinaryOp.onInts] at h
    split at h <;> cases h
    exact hi _
  | eq | ne | lt | le | gt | ge =>
    cases h
    rfl
  | _ =>
    cases h
    exact hi _

section Run

variable {t : ThreadState} {dest lhs rhs : ℕ} {o : Outcome} {x : ThreadExec Unit} {i : Instruction}

theorem readReg_apply {rg : ℕ} {v : VmValue}
    (h : t.registers[t.currentRegisterBase + rg]? = some v) :
    readReg rg t = some (.ok v, t) := by
  simp [readReg, h]

theorem readRegAt_apply {rg : ℕ} {v : VmValue}
    (h : t.registers[t.currentRegisterBase + rg]? = some v) :
    readRegAt t.currentRegisterBase rg t = some (.ok v, t) := by
  simp [readRegAt, h]

/-- The handlers write a value that is no object as the loop does. -/
theorem attempt_writeReg_bind (ho : ∀ v, o = some (.ok v) → v.isObject = false) (dest : ℕ) :
    (do let v ← Exec.attempt o; writeReg dest v; pure .continue : ThreadExec VmStep) t =
      (storeOutcome t.currentRegisterBase dest o >>= fun _ => pure .continue :
        ThreadExec VmStep) t := by
  rcases o with _ | (e | v)
  · rfl
  · rfl
  · show (writeReg dest v >>= _ : ThreadExec VmStep) t =
      (writePrimRegAt _ dest v >>= _ : ThreadExec VmStep) t
    rw [Exec.bind_apply, Exec.bind_apply, writeReg_eq_writePrimRegAt (ho v rfl)]

theorem attempt_writeReg (ho : ∀ v, o = some (.ok v) → v.isObject = false) :
    (do let _ ← (do let v ← Exec.attempt o; writeReg dest v; pure .continue : ThreadExec VmStep) :
      ThreadExec Unit) t = storeOutcome t.currentRegisterBase dest o t := by
  rw [Exec.bind_apply, attempt_writeReg_bind ho, Exec.bind_apply]
  rcases storeOutcome t.currentRegisterBase dest o t with _ | ⟨e | u, t'⟩ <;> rfl

theorem mem_evaluations_binary {vl vr : VmValue}
    (hl : t.registers[t.currentRegisterBase + lhs]? = some vl)
    (hr : t.registers[t.currentRegisterBase + rhs]? = some vr)
    (hp : ∀ v, vm.binaryValue op vl vr = some (.ok v) → v.isObject = false)
    (hx : x ∈ vm.evaluations t.currentRegisterBase (.binary op dest lhs rhs)) :
    x t = storeOutcome t.currentRegisterBase dest (vm.binaryValue op vl vr) t := by
  rcases List.mem_cons.mp hx with rfl | hx
  · rw [← attempt_writeReg hp]
    simp [executeOperatorInstruction, Exec.bind_apply, readReg_apply hl, readReg_apply hr]
  · split at hx
    · obtain rfl := List.mem_singleton.mp hx
      rw [← hotBinaryValue_eq]
      simp [executeHotOperator, storeOutcome, Exec.bind_apply, readRegAt_apply hl,
        readRegAt_apply hr]
    · cases hx

theorem mem_evaluations_typedBinary {k : NumKind} {tp : TypedOp} {vl vr : VmValue}
    (hl : t.registers[t.currentRegisterBase + lhs]? = some vl)
    (hr : t.registers[t.currentRegisterBase + rhs]? = some vr)
    (hx : x ∈ vm.evaluations t.currentRegisterBase (.typedBinary k tp dest lhs rhs)) :
    x t = storeOutcome t.currentRegisterBase dest (vm.typedBinaryValue k tp vl vr) t := by
  obtain rfl := List.mem_singleton.mp hx
  simp [executeHotOperator, storeOutcome, Exec.bind_apply, readRegAt_apply hl, readRegAt_apply hr]

theorem mem_evaluations_binaryImmediate {ip : ImmediateBinaryOp} {im : ImmediateValue}
    {vl : VmValue} (hl : t.registers[t.currentRegisterBase + lhs]? = some vl)
    (hp : ∀ v, vm.immediateBinaryValue vl im ip = some (.ok v) → v.isObject = false)
    (hx : x ∈ vm.evaluations t.currentRegisterBase (.binaryImmediate dest lhs ip im)) :
    x t = storeOutcome t.currentRegisterBase dest (vm.immediateBinaryValue vl im ip) t := by
  rcases List.mem_cons.mp hx with rfl | hx
  · rw [← attempt_writeReg hp]
    simp [executeOperatorInstruction, Exec.bind_apply, readReg_apply hl]
  · obtain rfl := List.mem_singleton.mp hx
    simp [executeHotOperator, storeOutcome, Exec.bind_apply, readRegAt_apply hl]

/-- Without a panic, all evaluations of all encodings store the same outcome. -/
theorem mem_evaluations_encodings
    (hl : t.registers[t.currentRegisterBase + lhs]? = some (ty.value l))
    (hr : t.registers[t.currentRegisterBase + rhs]? = some (ty.value r))
    (hft : ¬ Panics op ty.signed l r) (hi : i ∈ encodings ty op dest lhs rhs r)
    (hx : x ∈ vm.evaluations t.currentRegisterBase i) : x t =
      storeOutcome t.currentRegisterBase dest (some (op.onInts ty.signed ty.value l r)) t := by
  have hpr : ∀ v, some (op.onInts ty.signed ty.value l r) = some (.ok v) → v.isObject = false :=
    fun v hv => onInts_isObject (Option.some.inj hv)
  have hbn : vm.binaryValue op (ty.value l) (ty.value r) =
      some (op.onInts ty.signed ty.value l r) := by
    rw [binaryValue_value, if_neg hft]
  rcases List.mem_cons.mp hi with rfl | hi
  · rw [← hbn] at hpr ⊢
    exact mem_evaluations_binary hl hr hpr hx
  rcases List.mem_append.mp hi with hi | hi
  · simp only [Option.mem_toList, Option.bind_eq_bind, Option.bind_eq_some_iff, Option.pure_def,
      Option.some.injEq] at hi
    obtain ⟨k, hkn, tp, htp, rfl⟩ := hi
    rw [← typedBinaryValue_value hkn htp]
    exact mem_evaluations_typedBinary hl hr hx
  · simp only [Option.mem_toList, Option.bind_eq_bind, Option.bind_eq_some_iff, Option.pure_def,
      Option.some.injEq] at hi
    obtain ⟨ip, hip, im, him, rfl⟩ := hi
    have hvl : vm.immediateBinaryValue (ty.value l) im ip =
        some (op.onInts ty.signed ty.value l r) := by
      rw [immediateBinaryValue_value him hip, if_neg hft]
    rw [← hvl] at hpr ⊢
    exact mem_evaluations_binaryImmediate hl hpr hx

theorem exists_mem_evaluations_panics
    (hl : t.registers[t.currentRegisterBase + lhs]? = some (ty.value l))
    (hr : t.registers[t.currentRegisterBase + rhs]? = some (ty.value r))
    (hpn : Panics op ty.signed l r) :
    ∃ x ∈ vm.evaluations t.currentRegisterBase (.binary op dest lhs rhs), x t = none := by
  have hbn : vm.binaryValue op (ty.value l) (ty.value r) = none :=
    (binaryValue_value ..).trans (if_pos hpn)
  refine ⟨_, .head _, ?_⟩
  rw [mem_evaluations_binary hl hr (by simp [hbn]) (.head _), hbn]
  rfl

/-- The encodings of an integer operator agree, and do not panic, unless the operator divides
and the quotient does not fit. -/
theorem integer_encodings_agree_iff (vm : VirtualMachine) (ty : IntType) (op : BinaryOp)
    (l r : BitVec ty.width) (t : ThreadState) (dest lhs rhs : ℕ)
    (hl : t.registers[t.currentRegisterBase + lhs]? = some (ty.value l))
    (hr : t.registers[t.currentRegisterBase + rhs]? = some (ty.value r))
    (hdest : t.currentRegisterBase + dest < t.registers.length) :
    (∃ res, ∀ i ∈ encodings ty op dest lhs rhs r,
      ∀ x ∈ vm.evaluations t.currentRegisterBase i, x t = some res) ↔
      ¬ ((op = .div ∨ op = .rem) ∧ Word.Overflows ty.signed l r) := by
  rw [← op.divides_iff]
  constructor
  · rintro ⟨res, hrs⟩ hpn
    obtain ⟨x, hx, hnn⟩ := exists_mem_evaluations_panics hl hr hpn
    rw [hrs _ (.head _) x hx] at hnn
    cases hnn
  · intro hft
    have hsm : (storeOutcome t.currentRegisterBase dest
        (some (op.onInts ty.signed ty.value l r)) t).isSome := by
      cases op.onInts ty.signed ty.value l r with
      | error e => rfl
      | ok v => simp [storeOutcome, Exec.bind_apply, writePrimRegAt, hdest]
    obtain ⟨res, hrs⟩ := Option.isSome_iff_exists.mp hsm
    exact ⟨res, fun i hi x hx => (mem_evaluations_encodings hl hr hft hi hx).trans hrs⟩

end Run

/-- A thread of one frame with three registers: two operands and the result. -/
def operandThread (lhs rhs result : VmValue) : ThreadState :=
  ⟨[⟨0, 0, 0, 0, none, [], false⟩], [lhs, rhs, result], 0, 3, false, .new (.new 8 1024) ⟨32, 16⟩,
    [], 64⟩

theorem integer_encodings_agree_seven_two : ∃ res, ∀ i ∈ encodings .int32 .div 2 0 1 2#32,
      ∀ x ∈ bare.evaluations 0 i, x (operandThread (.int32 7) (.int32 2) .null) = some res :=
  (integer_encodings_agree_iff bare .int32 .div 7#32 2#32
    (operandThread (.int32 7) (.int32 2) .null)
    2 0 1 rfl rfl (by decide)).mpr fun h =>
      absurd h.2.2.1 (show ¬ 7#32 = BitVec.intMin 32 by decide)

/-- The least integer divided by minus one: the typed instruction writes the least integer,
and the other two panic. -/
theorem integer_encodings_least_by_minus_one :
    bare.executeHotOperator 0 (.typedBinary .i32 .div 2 0 1)
        (operandThread (.int32 0x80000000#32) (.int32 0xFFFFFFFF#32) .null) =
      some (.ok (),
        operandThread (.int32 0x80000000#32) (.int32 0xFFFFFFFF#32) (.int32 0x80000000#32)) ∧
    bare.executeOperatorInstruction (.binary .div 2 0 1)
        (operandThread (.int32 0x80000000#32) (.int32 0xFFFFFFFF#32) .null) = none ∧
    bare.executeOperatorInstruction (.binaryImmediate 2 0 .divide (.i32 0xFFFFFFFF#32))
        (operandThread (.int32 0x80000000#32) (.int32 0xFFFFFFFF#32) .null) = none ∧
    bare.executeOperatorInstruction (.binary .rem 2 0 1)
        (operandThread (.int8 0x80#8) (.int8 0xFF#8) .null) = none := by
  refine ⟨by decide, by decide, by decide, by decide⟩

end VirtualMachine

end Galfus
