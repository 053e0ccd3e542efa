import Galfus.Vm.Thread

/-! # Run-time types and casts

The type test of a value against a type of the current module, and the conversions of
`Cast`. A recursion deeper than the stack of the host allows crashes, which is `none`.
-/

namespace Galfus.VirtualMachine

variable (vm : VirtualMachine)

def currentImage : ThreadExec BytecodeModule := do
  let moduleId ← ThreadState.currentModule
  Exec.lift (vm.getModule moduleId)

def typeAt (image : BytecodeModule) (typeIdx : ℕ) : Except VmError BytecodeType :=
  match image.types[typeIdx]? with
  | some ty => .ok ty
  | none => .error (.typeOutOfBounds typeIdx)

def choiceLayoutMatches (actualModule actualLayout expectedModule expectedLayout : ℕ) : Bool :=
  if actualModule = expectedModule ∧ actualLayout = expectedLayout then true
  else
    match (vm.modules actualModule).bind (·.choiceLayouts[actualLayout]?),
      (vm.modules expectedModule).bind (·.choiceLayouts[expectedLayout]?) with
    | some actual, some expected => actual.name = expected.name
    | _, _ => false

abbrev SeenTypes := Finset (ℕ × ℕ × ℕ × ℕ)

/-- `type_idx_matches_inner`, over whether all comparisons so far succeeded. -/
def typeIdxMatchesInner (actualModule expectedModule : ℕ) :
    ℕ → Bool × SeenTypes → ℕ × ℕ → Option (Bool × SeenTypes)
  | 0, _, _ => none
  | n + 1, (ok, seen), (actual, expected) =>
    if !ok then some (false, seen)
    else if actualModule = expectedModule ∧ actual = expected then some (true, seen)
    else if (actualModule, actual, expectedModule, expected) ∈ seen then some (true, seen)
    else
      let seen := insert (actualModule, actual, expectedModule, expected) seen
      match (vm.modules actualModule).bind (·.types[actual]?),
        (vm.modules expectedModule).bind (·.types[expected]?) with
      | some actualTy, some expectedTy =>
        match actualTy, expectedTy with
        | _, .nullable inner =>
          typeIdxMatchesInner actualModule expectedModule n (true, seen) (actual, inner)
        | .array actualEl, .array expectedEl =>
          typeIdxMatchesInner actualModule expectedModule n (true, seen) (actualEl, expectedEl)
        | .tuple actualEls, .tuple expectedEls =>
          if actualEls.length = expectedEls.length then
            (actualEls.zip expectedEls).foldlM
              (typeIdxMatchesInner actualModule expectedModule n) (true, seen)
          else some (false, seen)
        | .choice actualLayout, .choice expectedLayout =>
          some
            (vm.choiceLayoutMatches actualModule actualLayout expectedModule expectedLayout, seen)
        | actualTy, expectedTy => some (actualTy = expectedTy, seen)
      | _, _ => some (false, seen)

def typeIdxMatches (actualModule actual expectedModule expected : ℕ) : Option Bool :=
  (vm.typeIdxMatchesInner actualModule expectedModule vm.stackDepth (true, ∅)
    (actual, expected)).map Prod.fst

/-- The test against a variant of a choice, by position or by the names of both. -/
def choiceVariantMatches (actualModule actualLayout actualVariant expectedModule expectedLayout
    expectedVariant : ℕ) : Bool :=
  if actualModule = expectedModule ∧ actualLayout = expectedLayout ∧
      actualVariant = expectedVariant then true
  else
    match (vm.modules actualModule).bind (·.choiceLayouts[actualLayout]?),
      (vm.modules expectedModule).bind (·.choiceLayouts[expectedLayout]?) with
    | some actual, some expected =>
      actual.name = expected.name ∧ actual.variants[actualVariant]?.map (·.name) =
        expected.variants[expectedVariant]?.map (·.name)
    | _, _ => false

/-- The values whose type is given by their constructor. -/
def hasPlainType : VmValue → BytecodeType → Bool
  | .null, .null | .bool _, .bool | .int8 _, .int8 | .int16 _, .int16 | .int32 _, .int32
  | .int64 _, .int64 | .uint8 _, .uint8 | .uint16 _, .uint16 | .uint32 _, .uint32
  | .uint64 _, .uint64 | .float32 _, .float32 | .float64 _, .float64 => true
  | _, _ => false

/-- `check_value_type` against a type of the module `image`, which has the id `moduleId`. -/
def checkValueType (h : PrivateHeap) (moduleId : ℕ) (image : BytecodeModule) :
    ℕ → VmValue → ℕ → Option Bool
  | 0, _, _ => none
  | n + 1, v, typeIdx =>
    match image.types[typeIdx]? with
    | none => some false
    | some ty =>
      match v, ty with
      | _, .any => some true
      | .null, .nullable _ => some true
      | v, .nullable inner => checkValueType h moduleId image n v inner
      | .object r, .struct expected =>
        match h.getObject r with
        | .ok (.struct _ layoutIdx _) => some (layoutIdx = expected)
        | _ => some false
      | .object r, .array expected =>
        match h.getObject r with
        | .ok (.array m elementTy _) => vm.typeIdxMatches m elementTy moduleId expected
        | _ => some false
      | .object r, .tuple expected =>
        match h.getObject r with
        | .ok (.tuple elements) =>
          if elements.data.length = expected.length then
            (elements.data.zip expected).foldlM (fun ok p =>
              if ok then checkValueType h moduleId image n p.1 p.2 else some false) true
          else some false
        | _ => some false
      | .object r, .choice expected =>
        match h.getObject r with
        | .ok (.choice m layoutIdx _ _) =>
          some (vm.choiceLayoutMatches m layoutIdx moduleId expected)
        | _ => some false
      | .object r, .choiceVariant expected variant =>
        match h.getObject r with
        | .ok (.choice m layoutIdx variantIdx _) =>
          some (vm.choiceVariantMatches m layoutIdx variantIdx moduleId expected variant)
        | _ => some false
      | .object r, .constraint name =>
        match h.getObject r with
        | .ok (.struct _ layoutIdx _) =>
          some ((image.structLayouts[layoutIdx]?).any fun layout => name ∈ layout.constraints)
        | _ => some false
      | v, ty => some (hasPlainType v ty)

def castInt (z : ℤ) : BytecodeType → Option VmValue
  | .int8 => some (.int8 (.ofInt 8 z))
  | .int16 => some (.int16 (.ofInt 16 z))
  | .int32 => some (.int32 (.ofInt 32 z))
  | .int64 => some (.int64 (.ofInt 64 z))
  | .uint8 => some (.uint8 (.ofInt 8 z))
  | .uint16 => some (.uint16 (.ofInt 16 z))
  | .uint32 => some (.uint32 (.ofInt 32 z))
  | .uint64 => some (.uint64 (.ofInt 64 z))
  | .float32 => some (.float32 (normalizeF32 (vm.floats.ofIntF32 z)))
  | .float64 => some (.float64 (normalizeF64 (vm.floats.ofIntF64 z)))
  | _ => none

/-- The conversion of a float to a number type, given its saturating conversion to
integers and its value at both widths. -/
def castFloat (trunc : ℤ → ℤ → ℤ) (single : BitVec 32) (double : BitVec 64) :
    BytecodeType → Option VmValue
  | .int8 => some (.int8 (.ofInt 8 (trunc (-2 ^ 7) (2 ^ 7 - 1))))
  | .int16 => some (.int16 (.ofInt 16 (trunc (-2 ^ 15) (2 ^ 15 - 1))))
  | .int32 => some (.int32 (.ofInt 32 (trunc (-2 ^ 31) (2 ^ 31 - 1))))
  | .int64 => some (.int64 (.ofInt 64 (trunc (-2 ^ 63) (2 ^ 63 - 1))))
  | .uint8 => some (.uint8 (.ofInt 8 (trunc 0 (2 ^ 8 - 1))))
  | .uint16 => some (.uint16 (.ofInt 16 (trunc 0 (2 ^ 16 - 1))))
  | .uint32 => some (.uint32 (.ofInt 32 (trunc 0 (2 ^ 32 - 1))))
  | .uint64 => some (.uint64 (.ofInt 64 (trunc 0 (2 ^ 64 - 1))))
  | .float32 => some (.float32 (normalizeF32 single))
  | .float64 => some (.float64 (normalizeF64 double))
  | _ => none

def castNumber (ty : BytecodeType) : VmValue → Option VmValue
  | .int8 x => vm.castInt x.toInt ty
  | .int16 x => vm.castInt x.toInt ty
  | .int32 x => vm.castInt x.toInt ty
  | .int64 x => vm.castInt x.toInt ty
  | .uint8 x => vm.castInt x.toNat ty
  | .uint16 x => vm.castInt x.toNat ty
  | .uint32 x => vm.castInt x.toNat ty
  | .uint64 x => vm.castInt x.toNat ty
  | .float32 x => castFloat (vm.floats.truncF32 x) x (vm.floats.promote x) ty
  | .float64 x => castFloat (vm.floats.truncF64 x) (vm.floats.demote x) x ty
  | _ => none

def executeCast (v : VmValue) (typeIdx : ℕ) : ThreadExec VmValue := do
  let moduleId ← ThreadState.currentModule
  let image ← Exec.lift (vm.getModule moduleId)
  let ty ← Exec.lift (typeAt image typeIdx)
  let t ← Exec.get
  let isInstance ← Exec.unwrap (vm.checkValueType t.heap moduleId image vm.stackDepth v typeIdx)
  if isInstance then pure v
  else
    match vm.castNumber ty v with
    | some v' => pure v'
    | none => Exec.throw (.typeMismatch (vm.debugType ty))

/-- The value that the elements of a new array start with. -/
def zeroValue : BytecodeType → Except VmError VmValue
  | .bool => .ok (.bool false)
  | .int8 => .ok (.int8 0)
  | .int16 => .ok (.int16 0)
  | .int32 => .ok (.int32 0)
  | .int64 => .ok (.int64 0)
  | .uint8 => .ok (.uint8 0)
  | .uint16 => .ok (.uint16 0)
  | .uint32 => .ok (.uint32 0)
  | .uint64 => .ok (.uint64 0)
  | .float32 => .ok (.float32 0)
  | .float64 => .ok (.float64 0)
  | .null | .any | .nullable _ | .struct _ | .choice _ | .array _ | .tuple _ => .ok .null
  | _ => .error (.typeMismatch "defaultable array element type")

def zeroValueForType (typeIdx : ℕ) : ThreadExec VmValue := do
  let image ← vm.currentImage
  let ty ← Exec.lift (typeAt image typeIdx)
  Exec.lift (zeroValue ty)

def intValue? : VmValue → Option ℤ
  | .int8 x => some x.toInt
  | .int16 x => some x.toInt
  | .int32 x => some x.toInt
  | .int64 x => some x.toInt
  | .uint8 x => some x.toNat
  | .uint16 x => some x.toNat
  | .uint32 x => some x.toNat
  | .uint64 x => some x.toNat
  | _ => none

def toRawArrayIndex (v : VmValue) : Except VmError ℤ :=
  match intValue? v with
  | some i => .ok i
  | none => .error (.typeMismatch "integer array index")

def toArrayLength (v : VmValue) : Except VmError ℕ :=
  match intValue? v with
  | some i => if 0 ≤ i then .ok i.toNat else .error (.typeMismatch "positive array length")
  | none => .error (.typeMismatch "positive array length")

/-- A negative index counts from the end. -/
def resolveRawArrayIndex (rawIndex : ℤ) (len : ℕ) : Option ℕ :=
  let resolved := if rawIndex < 0 then len + rawIndex else rawIndex
  if resolved < 0 ∨ (len : ℤ) ≤ resolved then none else some resolved.toNat

end Galfus.VirtualMachine
