import Galfus.Mir.Basic
import Galfus.Vm.Encodings

/-! # Constant folding

How the compiler folds an operator on two constants. Folding an integer operator agrees with
executing it, unless the least signed integer is divided by minus one: the compiler folds it,
and the virtual machine panics.
-/

namespace Galfus

namespace Mir

/-- `fold_primitive_binary` on integers of one type. -/
def foldInts (op : MirBinaryOp) {w : ℕ} (signed : Bool) (mk : BitVec w → Constant)
    (l r : BitVec w) : Option Constant :=
  match op with
  | .add => some (mk (l + r))
  | .subtract => some (mk (l - r))
  | .multiply => some (mk (l * r))
  | .divide => if r = 0 then none else some (mk (Word.wrappingDiv signed l r))
  | .remainder => if r = 0 then none else some (mk (Word.wrappingRem signed l r))
  | .equal => some (.bool (l = r))
  | .notEqual => some (.bool (l ≠ r))
  | .less => some (.bool (Word.lt signed l r))
  | .lessEqual => some (.bool (Word.le signed l r))
  | .greater => some (.bool (Word.lt signed r l))
  | .greaterEqual => some (.bool (Word.le signed r l))
  | _ => none

/-- `fold_primitive_binary` on floats of one width. -/
def foldFloats (op : MirBinaryOp) {w : ℕ} (mk : BitVec w → Constant)
    (arith : FloatArith → BitVec w → BitVec w → BitVec w)
    (cmp : BitVec w → BitVec w → Option Ordering) (l r : BitVec w) : Option Constant :=
  match op with
  | .add => some (mk (arith .add l r))
  | .subtract => some (mk (arith .sub l r))
  | .multiply => some (mk (arith .mul l r))
  | .divide => some (mk (arith .div l r))
  | .remainder => some (mk (arith .rem l r))
  | .equal => some (.bool (cmp l r = some .eq))
  | .notEqual => some (.bool (cmp l r ≠ some .eq))
  | .less => some (.bool ((cmp l r).any Ordering.isLT))
  | .lessEqual => some (.bool ((cmp l r).any Ordering.isLE))
  | .greater => some (.bool ((cmp l r).any Ordering.isGT))
  | .greaterEqual => some (.bool ((cmp l r).any Ordering.isGE))
  | _ => none

def foldPrimitiveBinary (floats : FloatOps) (op : MirBinaryOp) :
    Option Constant → Option Constant → Option Constant
  | some (.int8 l), some (.int8 r) => foldInts op true .int8 l r
  | some (.int16 l), some (.int16 r) => foldInts op true .int16 l r
  | some (.int32 l), some (.int32 r) => foldInts op true .int32 l r
  | some (.int64 l), some (.int64 r) => foldInts op true .int64 l r
  | some (.uint8 l), some (.uint8 r) => foldInts op false .uint8 l r
  | some (.uint16 l), some (.uint16 r) => foldInts op false .uint16 l r
  | some (.uint32 l), some (.uint32 r) => foldInts op false .uint32 l r
  | some (.uint64 l), some (.uint64 r) => foldInts op false .uint64 l r
  | some (.float32 l), some (.float32 r) =>
    foldFloats op .float32 floats.arithF32 floats.compareF32 l r
  | some (.float64 l), some (.float64 r) =>
    foldFloats op .float64 floats.arithF64 floats.compareF64 l r
  | _, _ => none

/-- The value that a constant is at run time. Strings and functions are not among those
that are folded. -/
def Constant.value? : Constant → Option VmValue
  | .null => some .null
  | .bool b => some (.bool b)
  | .int8 x => some (.int8 x)
  | .int16 x => some (.int16 x)
  | .int32 x => some (.int32 x)
  | .int64 x => some (.int64 x)
  | .uint8 x => some (.uint8 x)
  | .uint16 x => some (.uint16 x)
  | .uint32 x => some (.uint32 x)
  | .uint64 x => some (.uint64 x)
  | .float32 bits => some (.float32 (normalizeF32 bits))
  | .float64 bits => some (.float64 (normalizeF64 bits))
  | .string _ | .function _ => none

/-- The operator instruction that is emitted. A fallback has an instruction of its own. -/
def MirBinaryOp.lower? : MirBinaryOp → Option BinaryOp
  | .add => some .add
  | .subtract => some .sub
  | .multiply => some .mul
  | .divide => some .div
  | .remainder => some .rem
  | .power => some .pow
  | .shiftLeft => some .shl
  | .shiftRight => some .shr
  | .bitwiseAnd | .logicalAnd => some .and
  | .bitwiseOr | .logicalOr => some .or
  | .bitwiseXor => some .xor
  | .equal => some .eq
  | .notEqual => some .ne
  | .less => some .lt
  | .lessEqual => some .le
  | .greater => some .gt
  | .greaterEqual => some .ge
  | .nullFallback => none

end Mir

def IntType.constant : (ty : IntType) → BitVec ty.width → Mir.Constant
  | int8 => .int8
  | int16 => .int16
  | int32 => .int32
  | int64 => .int64
  | uint8 => .uint8
  | uint16 => .uint16
  | uint32 => .uint32
  | uint64 => .uint64

namespace Mir

open VirtualMachine ThreadState

variable {fs : FloatOps} {ty : IntType} {op : MirBinaryOp} {bop : BinaryOp} {l r : BitVec ty.width}

theorem foldPrimitiveBinary_constant : foldPrimitiveBinary fs op (some (ty.constant l))
    (some (ty.constant r)) = foldInts op ty.signed ty.constant l r := by
  cases ty <;> rfl

theorem constant_value? (x : BitVec ty.width) : (ty.constant x).value? = some (ty.value x) := by
  cases ty <;> rfl

/-- A constant that an operator is folded to is the result of the operator. -/
theorem onInts_of_foldInts (hop : op.lower? = some bop) {c : Constant}
    (h : foldInts op ty.signed ty.constant l r = some c) :
    ∃ v, c.value? = some v ∧ bop.onInts ty.signed ty.value l r = .ok v := by
  cases op with
  | divide | remainder =>
    cases hop
    simp only [foldInts, Option.ite_none_left_eq_some, Option.some.injEq] at h
    obtain ⟨hr, rfl⟩ := h
    exact ⟨_, constant_value? _, if_neg hr⟩
  | add | subtract | multiply =>
    cases hop
    cases h
    exact ⟨_, constant_value? _, rfl⟩
  | equal | notEqual | less | lessEqual | greater | greaterEqual =>
    cases hop
    cases h
    exact ⟨_, rfl, rfl⟩
  | _ => cases h

theorem foldInts_divides (hop : op.lower? = some bop) (hd : bop.divides = true) (hr : r ≠ 0) :
    (foldInts op ty.signed ty.constant l r).isSome := by
  cases op <;> cases hop <;> first
    | exact absurd hd Bool.false_ne_true
    | simp only [foldInts, if_neg hr, Option.isSome_some]

/-- If an operator on integers is folded to a constant, each of its encodings writes that constant,
and if one of them fails or panics, it is not folded. -/
theorem fold_agrees_iff (vm : VirtualMachine) (ty : IntType) (op : MirBinaryOp) (bop : BinaryOp)
    (l r : BitVec ty.width) (t : ThreadState) (dest lhs rhs : ℕ) (hop : op.lower? = some bop)
    (hl : t.registers[t.currentRegisterBase + lhs]? = some (ty.value l))
    (hr : t.registers[t.currentRegisterBase + rhs]? = some (ty.value r))
    (hdest : t.currentRegisterBase + dest < t.registers.length) :
    (∀ i ∈ encodings ty bop dest lhs rhs r, ∀ x ∈ vm.evaluations t.currentRegisterBase i,
      (∀ c, foldPrimitiveBinary vm.floats op (some (ty.constant l)) (some (ty.constant r)) =
          some c → ∃ v, c.value? = some v ∧ x t = writePrimRegAt t.currentRegisterBase dest v t) ∧
      ((∀ t', x t ≠ some (.ok (), t')) →
        foldPrimitiveBinary vm.floats op (some (ty.constant l)) (some (ty.constant r)) = none)) ↔
      ¬ ((bop = .div ∨ bop = .rem) ∧ Word.Overflows ty.signed l r) := by
  rw [← bop.divides_iff, foldPrimitiveBinary_constant]
  constructor
  · rintro hag hpn
    obtain ⟨x, hx, hnn⟩ := exists_mem_evaluations_panics hl hr hpn
    have hfl := (hag _ (.head _) x hx).2 fun t' h => by
      rw [hnn] at h
      cases h
    have hsm := foldInts_divides (l := l) hop hpn.1 (hpn.2.ne_zero ty.width_pos)
    rw [hfl] at hsm
    cases hsm
  · intro hft i hi x hx
    have hrn := mem_evaluations_encodings hl hr hft hi hx
    have hvl : ∀ c, foldInts op ty.signed ty.constant l r = some c →
        ∃ v, c.value? = some v ∧ x t = writePrimRegAt t.currentRegisterBase dest v t := by
      intro c hc
      obtain ⟨v, hv, hon⟩ := onInts_of_foldInts hop hc
      rw [hon] at hrn
      exact ⟨v, hv, hrn⟩
    refine ⟨hvl, fun hfa => ?_⟩
    cases hc : foldInts op ty.signed ty.constant l r with
    | none => rfl
    | some c =>
      obtain ⟨v, -, hx'⟩ := hvl c hc
      exfalso
      have hgt := List.getElem?_eq_getElem hdest
      exact hfa _ (hx'.trans (by simp only [writePrimRegAt, hgt]; rfl))

theorem fold_agrees_seven_two :
    foldPrimitiveBinary bare.floats .divide (some (.int8 7)) (some (.int8 2)) = some (.int8 3) ∧
    ∀ i ∈ encodings .int8 .div 2 0 1 2#8,
      ∀ x ∈ bare.evaluations 0 i, ∃ v, (Constant.int8 3).value? = some v ∧
        x (operandThread (.int8 7) (.int8 2) .null) =
          writePrimRegAt 0 2 v (operandThread (.int8 7) (.int8 2) .null) := by
  have hf : foldPrimitiveBinary bare.floats .divide (some (.int8 7)) (some (.int8 2)) =
      some (.int8 3) := by decide
  refine ⟨hf, fun i hi x hx => ?_⟩
  exact ((fold_agrees_iff bare .int8 .divide .div 7#8 2#8 (operandThread (.int8 7) (.int8 2) .null)
    2 0 1 rfl rfl rfl (by decide)).mpr
      (fun h => absurd h.2.2.1 (show ¬ 7#8 = BitVec.intMin 8 by decide)) i hi x hx).1 _ hf

/-- The least integer divided by minus one is folded to the least integer, but the virtual
machine panics. -/
theorem fold_least_by_minus_one :
    foldPrimitiveBinary bare.floats .divide (some (.int8 0x80#8)) (some (.int8 0xFF#8)) =
        some (.int8 0x80#8) ∧
      bare.executeOperatorInstruction (.binary .div 2 0 1)
        (operandThread (.int8 0x80#8) (.int8 0xFF#8) .null) = none ∧
      foldPrimitiveBinary bare.floats .remainder (some (.int8 0x80#8)) (some (.int8 0xFF#8)) =
        some (.int8 0) ∧
      bare.executeOperatorInstruction (.binary .rem 2 0 1)
        (operandThread (.int8 0x80#8) (.int8 0xFF#8) .null) = none := by
  refine ⟨by decide, by decide, by decide, by decide⟩

end Mir

end Galfus
