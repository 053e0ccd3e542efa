import Mathlib.Algebra.Group.Nat.Defs
import Galfus.Bytecode.Basic

/-! # Register accesses

The registers that the virtual machine reads and writes when it executes an instruction.
-/

namespace Galfus

def registerRange (start count : ℕ) : List ℕ := (List.range count).map (start + ·)

theorem mem_registerRange {s c r : ℕ} : r ∈ registerRange s c ↔ s ≤ r ∧ r < s + c := by
  simp only [registerRange, List.mem_map, List.mem_range]
  constructor
  · rintro ⟨i, hi, rfl⟩
    omega
  · rintro ⟨hle, hlt⟩
    exact ⟨r - s, by omega, by omega⟩

namespace Instruction

/-- The registers that the virtual machine reads. The receiver of a method has a register of its
own; `compare` on a value that is not an object always reads the first argument. -/
def reads (constants : List Constant) : Instruction → List ℕ
  | loadConst _ _ | loadGlobal _ _ _ | loadNull _ | allocLocal _ _ | jump _ | retNull
  | panic _ => []
  | move _ src | copy _ src | len _ src | unary _ _ src | cast _ src _ | instanceof _ src _
  | storeGlobal _ _ src | ret src | binaryImmediate _ src _ _ | jumpTrue src _ | jumpFalse src _
  | jumpNull src _ | loadField _ src _ | newArray _ _ src | newChoice _ _ _ src | drop src
  | awaitFuture _ src _ => [src]
  | binary _ _ lhs rhs | typedBinary _ _ _ lhs rhs => [lhs, rhs]
  | fallback _ src other => [src, other]
  | storeField obj _ val => [obj, val]
  | loadIndex _ arr idx => [arr, idx]
  | storeIndex arr idx val => [arr, idx, val]
  | copyArray dest destStart src => [dest, destStart, src]
  | call _ _ start n | createFuture _ _ start n _ _ | createAwaitFuture _ _ start n _ _
  | callInternalThread _ _ start n _ _ | callInternalMath _ _ start n | tailCall _ start n
  | newTuple _ _ start n | awaitAll _ start n _ | awaitRace _ start n _ => registerRange start n
  | callDynamic _ g start n | createIndirectFuture _ g start n _ _ => g :: registerRange start n
  | callMethod _ obj k start n _ _ =>
    obj :: registerRange (start + 1)
      (if constants[k]? = some (.string "compare") then max n 2 - 1 else n - 1)

def writes : Instruction → Option ℕ
  | loadConst dest _ | loadGlobal dest _ _ | loadNull dest | allocLocal dest _ | move dest _
  | copy dest _ | len dest _ | unary _ dest _ | cast dest _ _ | instanceof dest _ _
  | binary _ dest _ _ | typedBinary _ _ dest _ _ | binaryImmediate dest _ _ _ | fallback dest _ _
  | call dest _ _ _ | createFuture dest _ _ _ _ _ | createAwaitFuture dest _ _ _ _ _
  | callInternalThread dest _ _ _ _ _ | callInternalMath dest _ _ _
  | callMethod dest _ _ _ _ _ _ | callDynamic dest _ _ _ | createIndirectFuture dest _ _ _ _ _
  | loadField dest _ _ | newArray dest _ _ | loadIndex dest _ _ | newTuple dest _ _ _
  | newChoice dest _ _ _ | drop dest | awaitFuture dest _ _ | awaitAll dest _ _ _
  | awaitRace dest _ _ _ => some dest
  | storeGlobal _ _ _ | ret _ | jump _ | retNull | panic _ | jumpTrue _ _ | jumpFalse _ _
  | jumpNull _ _ | tailCall _ _ _ | storeField _ _ _ | storeIndex _ _ _ | copyArray _ _ _ => none

/-- The instruction uses the first `n` registers only, with register numbers of sixteen
bits. -/
def Fits (constants : List Constant) (n : ℕ) (i : Instruction) : Prop :=
  ∀ r ∈ i.reads constants ++ i.writes.toList, r < n ∧ r < 2 ^ 16

instance (constants : List Constant) (n : ℕ) (i : Instruction) : Decidable (i.Fits constants n) :=
  inferInstanceAs (Decidable (∀ r ∈ i.reads constants ++ i.writes.toList, r < n ∧ r < 2 ^ 16))

variable {cs : List Constant} {n r : ℕ} {i : Instruction}

theorem Fits.dest (h : i.Fits cs n) (hr : i.writes = some r) : r < n :=
  (h r (by simp [hr])).1

theorem Fits.src (h : i.Fits cs n) (hr : r ∈ i.reads cs) : r < n :=
  (h r (by simp [hr])).1

end Instruction

end Galfus
