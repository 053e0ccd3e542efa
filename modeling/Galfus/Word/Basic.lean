import Mathlib.Data.BitVec

/-! # Machine integers

Integers of a fixed width, signed or unsigned, with the arithmetic of the host. Wrapping
operations are total. Plain division has no result if the quotient does not fit, which
happens only when the least signed integer is divided by minus one.
-/

namespace Galfus.Word

variable {w : ℕ} (signed : Bool) (x y : BitVec w)

def toInt : ℤ := if signed then x.toInt else x.toNat

def asU32 : ℕ := (BitVec.ofInt 32 (toInt signed x)).toNat

def wrappingDiv : BitVec w :=
  if signed then x.sdiv y else x.udiv y

def wrappingRem : BitVec w :=
  if signed then x.srem y else x.umod y

def Overflows : Prop :=
  signed = true ∧ x = BitVec.intMin w ∧ y = BitVec.allOnes w

instance : Decidable (Overflows signed x y) :=
  inferInstanceAs (Decidable (_ ∧ _ ∧ _))

/-- Division; it panics on overflow. -/
def div? : Option (BitVec w) :=
  if Overflows signed x y then none else some (wrappingDiv signed x y)

/-- The remainder of a division; it panics on overflow as well. -/
def rem? : Option (BitVec w) :=
  if Overflows signed x y then none else some (wrappingRem signed x y)

/-- Shifts take their amount modulo the width. -/
def wrappingShl (n : ℕ) : BitVec w := x <<< (n % w)

def wrappingShr (n : ℕ) : BitVec w :=
  if signed then x.sshiftRight (n % w) else x >>> (n % w)

def cmp : Ordering := compare (toInt signed x) (toInt signed y)

def lt : Bool := toInt signed x < toInt signed y

def le : Bool := toInt signed x ≤ toInt signed y

variable {signed x y}

@[simp] theorem div?_of_not_overflows (h : ¬ Overflows signed x y) :
    div? signed x y = some (wrappingDiv signed x y) := if_neg h

@[simp] theorem rem?_of_not_overflows (h : ¬ Overflows signed x y) :
    rem? signed x y = some (wrappingRem signed x y) := if_neg h

@[simp] theorem div?_of_overflows (h : Overflows signed x y) : div? signed x y = none := if_pos h

@[simp] theorem rem?_of_overflows (h : Overflows signed x y) : rem? signed x y = none := if_pos h

theorem Overflows.ne_zero (hw : 0 < w) (h : Overflows signed x y) : y ≠ 0#w := by
  obtain ⟨-, -, rfl⟩ := h
  intro h
  have hl := congrArg (BitVec.getLsbD · 0) h
  simp [hw] at hl

variable (signed x y)

@[simp] theorem isLT_cmp : (cmp signed x y).isLT = lt signed x y := by
  rw [Bool.eq_iff_iff, Ordering.isLT_iff_eq_lt, lt, decide_eq_true_iff]
  exact compare_lt_iff_lt

@[simp] theorem isLE_cmp : (cmp signed x y).isLE = le signed x y := by
  rw [Bool.eq_iff_iff, Ordering.isLE_iff_ne_gt, le, decide_eq_true_iff]
  exact compare_le_iff_le

@[simp] theorem isGT_cmp : (cmp signed x y).isGT = lt signed y x := by
  rw [Bool.eq_iff_iff, Ordering.isGT_iff_eq_gt, lt, decide_eq_true_iff]
  exact compare_gt_iff_gt

@[simp] theorem isGE_cmp : (cmp signed x y).isGE = le signed y x := by
  rw [Bool.eq_iff_iff, Ordering.isGE_iff_ne_lt, le, decide_eq_true_iff]
  exact compare_ge_iff_ge

end Galfus.Word
