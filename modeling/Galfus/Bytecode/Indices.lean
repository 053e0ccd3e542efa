import Galfus.Bytecode.Accesses
import Galfus.Bytecode.Validation

/-! # Indices that instructions use

The entries of constant, type, function and import tables and the globals that the virtual
machine uses when it executes an instruction, and what the validator leaves unchecked of
them and of the registers.
-/

namespace Galfus

def BytecodeType.components : BytecodeType → List ℕ
  | array elementTy => [elementTy]
  | nullable inner => [inner]
  | tuple elements => elements
  | _ => []

def BytecodeModule.PartOf (image : BytecodeModule) (a b : ℕ) : Prop :=
  ∃ ty, image.types[a]? = some ty ∧ b ∈ ty.components

namespace Instruction

def constIndices : Instruction → List ℕ
  | loadConst _ constIdx | panic constIdx | callMethod _ _ constIdx _ _ _ _ => [constIdx]
  | _ => []

/-- Functions, or imports that follow them in the numbering. A constant may be a function. -/
def funcIndices (image : BytecodeModule) : Instruction → List ℕ
  | call _ func _ _ | tailCall func _ _ | createFuture _ func _ _ _ _ => [func]
  | loadConst _ constIdx =>
    match image.constants[constIdx]? with
    | some (.function func) => [func]
    | _ => []
  | _ => []

def globalIndices : Instruction → List (ℕ × ℕ)
  | loadGlobal _ moduleId globalIdx | storeGlobal moduleId globalIdx _ => [(moduleId, globalIdx)]
  | _ => []

def typeIndices : Instruction → List ℕ
  | allocLocal _ ty | newArray _ ty _ | newTuple _ ty _ _ | newChoice _ ty _ _ | cast _ _ ty
  | instanceof _ _ ty | awaitFuture _ _ ty | awaitAll _ _ _ ty | awaitRace _ _ _ ty => [ty]
  | createFuture _ _ _ _ tys ty | createAwaitFuture _ _ _ _ tys ty
  | callInternalThread _ _ _ _ tys ty | createIndirectFuture _ _ _ _ tys ty
  | callMethod _ _ _ _ _ tys (some ty) => ty :: tys
  | _ => []

/-- The types that an instruction names, the element type of a new array, and the parts of a
type that a value is tested against. -/
inductive UsesType (image : BytecodeModule) : Instruction → ℕ → Prop where
  | operand {i k} : k ∈ i.typeIndices → UsesType image i k
  | element {dest ty lenReg elementTy} : image.types[ty]? = some (.array elementTy) →
      UsesType image (newArray dest ty lenReg) elementTy
  | cast {dest src ty k} : Relation.ReflTransGen image.PartOf ty k →
      UsesType image (cast dest src ty) k
  | instanceof {dest src ty k} : Relation.ReflTransGen image.PartOf ty k →
      UsesType image (instanceof dest src ty) k

/-- All constants, types, functions, imports and globals that an instruction of the module
uses exist. -/
structure Indexed (modules : ℕ → Option BytecodeModule) (image : BytecodeModule)
    (i : Instruction) : Prop where
  constants : ∀ k ∈ i.constIndices, k < image.constants.length
  types : ∀ k, UsesType image i k → k < image.types.length
  functions : ∀ k ∈ i.funcIndices image, k < image.functions.length + image.imports.length
  globals : ∀ p ∈ i.globalIndices, ∃ target, modules p.1 = some target ∧ p.2 < target.globalCount

/-- A call of a function of the module, which the loop makes without a look at the parameters,
copies its arguments to registers of the new frame. -/
def Copies (image : BytecodeModule) : Instruction → Prop
  | call _ func _ count | tailCall func _ count => ∀ callee, image.functions[func]? = some callee →
      ∀ r ∈ registerRange 0 count, r < callee.registerCount
  | _ => True

/-- What the validator leaves unchecked of an instruction in a frame of `n` registers. -/
def LeftOut (modules : ℕ → Option BytecodeModule) (image : BytecodeModule) (n : ℕ) :
    Instruction → Prop
  | loadConst _ constIdx => ∀ func, image.constants[constIdx]? = some (.function func) →
      func < image.functions.length + image.imports.length
  | loadGlobal _ moduleId globalIdx | storeGlobal moduleId globalIdx _ =>
    ∃ target, modules moduleId = some target ∧ globalIdx < target.globalCount
  | typedBinary _ _ dest lhs rhs => ∀ r ∈ [dest, lhs, rhs], r < n ∧ r < 2 ^ 16
  | call _ func _ count => ∀ callee, image.functions[func]? = some callee →
      count ≤ callee.registerCount
  | tailCall func start count => func < image.functions.length + image.imports.length ∧
      (∀ r ∈ registerRange start count, r < n ∧ r < 2 ^ 16) ∧
      ∀ callee, image.functions[func]? = some callee → count ≤ callee.registerCount
  | callMethod dest obj nameConst start count tys ty =>
    (∀ k ∈ (callMethod dest obj nameConst start count tys ty).typeIndices, k < image.types.length) ∧
    ∀ r ∈ registerRange (start + 1)
      (if image.constants[nameConst]? = some (.string "compare") then max count 2 - 1
        else count - 1), r < n ∧ r < 2 ^ 16
  | createFuture _ _ start count _ _ | createAwaitFuture _ _ start count _ _
  | callInternalThread _ _ start count _ _ | createIndirectFuture _ _ start count _ _
  | awaitAll _ start count _ | awaitRace _ start count _ | callInternalMath _ _ start count =>
    0 < count → start + count ≤ 2 ^ 16
  | newArray _ ty _ => ∀ elementTy, image.types[ty]? = some (.array elementTy) →
      elementTy < image.types.length
  | cast _ _ ty | instanceof _ _ ty =>
    ∀ k, Relation.ReflTransGen image.PartOf ty k → k < image.types.length
  | _ => True

end Instruction

namespace Validation

variable {im : BytecodeModule} {fn : BytecodeFunction} {ii r st cn : ℕ}
  {cs : List Constant} {i : Instruction}

theorem lt_of_checkReg (h : checkReg fn ii r = []) : r < fn.registerCount ∧ r < 2 ^ 16 := by
  have hlt := require_eq_nil.mp h
  have hle : maxRegs fn ≤ fn.registerCount := Nat.mod_le _ _
  have hm : maxRegs fn < 2 ^ 16 := Nat.mod_lt _ (by decide)
  omega

theorem lt_of_checkRange (h : checkRange fn ii st cn = []) :
    ∀ r ∈ registerRange st cn, r < fn.registerCount ∧ r < 2 ^ 16 := by
  intro r hr
  rw [mem_registerRange] at hr
  rw [checkRange, if_pos (by omega), List.append_eq_nil_iff, require_eq_nil] at h
  have hle : maxRegs fn ≤ fn.registerCount := Nat.mod_le _ _
  have hm : maxRegs fn < 2 ^ 16 := Nat.mod_lt _ (by decide)
  omega

theorem lt_of_checkLast (h : checkLast fn ii st cn = []) (hw : 0 < cn → st + cn ≤ 2 ^ 16) :
    ∀ r ∈ registerRange st cn, r < fn.registerCount ∧ r < 2 ^ 16 := by
  intro r hr
  rw [mem_registerRange] at hr
  have hp : 0 < cn := by omega
  rw [checkLast, if_pos hp] at h
  have hlt := lt_of_checkReg h
  omega

variable {ms : ℕ → Option BytecodeModule}

theorem lt_of_checkConst {k : ℕ} (h : checkConst im fn ii k = []) : k < im.constants.length :=
  require_eq_nil.mp h

theorem lt_of_checkType {k : ℕ} (h : checkType im fn ii k = []) : k < im.types.length :=
  require_eq_nil.mp h

theorem lt_of_checkFunc {k : ℕ} (h : checkFunc im fn ii k = []) :
    k < im.functions.length + im.imports.length :=
  require_eq_nil.mp h

theorem lt_of_checkArgTypes {t : List ℕ} (h : checkArgTypes im fn ii cn t = []) :
    ∀ k ∈ t, k < im.types.length :=
  fun k hk => require_eq_nil.mp (List.flatMap_eq_nil_iff.mp (List.append_eq_nil_iff.mp h).2 k hk)

section

variable (h : checkInstruction im fn ii i = [])
include h

variable (hr : i.LeftOut ms im fn.registerCount)
include hr

/-- The registers that the checks and what they leave out are about. -/
theorem fits_of_leftOut : i.Fits im.constants fn.registerCount := by
  unfold Instruction.Fits
  cases i <;>
  simp only [checkInstruction, List.append_eq_nil_iff, Instruction.LeftOut, List.forall_mem_cons]
    at h hr <;>
  simp only [Instruction.reads, Instruction.writes, Option.toList_some, Option.toList_none,
    List.cons_append]
  all_goals grind [→ lt_of_checkReg, → lt_of_checkRange, → lt_of_checkLast]

theorem lt_of_usesType {k : ℕ} (hk : Instruction.UsesType im i k) : k < im.types.length := by
  cases hk with
  | element hty => exact hr _ hty
  | cast hp | instanceof hp => exact hr _ hp
  | operand hm =>
    cases i with
    | callMethod => exact hr.1 k hm
    | _ =>
      simp only [Instruction.typeIndices, List.mem_cons, List.not_mem_nil] at hm
      all_goals
        simp only [checkInstruction, List.append_eq_nil_iff] at h
        grind [→ lt_of_checkType, → lt_of_checkArgTypes]

/-- The tables that the checks and what they leave out are about. -/
theorem indexed_of_leftOut : i.Indexed ms im where
  constants := by
    intro k hk
    cases i <;> simp only [Instruction.constIndices, List.mem_singleton, List.not_mem_nil] at hk
    all_goals
      simp only [checkInstruction, List.append_eq_nil_iff] at h
      grind [→ lt_of_checkConst]
  types := fun k => lt_of_usesType h hr
  functions := by
    intro k hk
    cases i with
    | loadConst d ci =>
      dsimp only [Instruction.funcIndices] at hk
      split at hk
      · next f hf =>
        rw [List.mem_singleton] at hk
        exact hk ▸ hr f hf
      · cases hk
    | tailCall =>
      obtain rfl := List.mem_singleton.mp hk
      exact hr.1
    | _ =>
      simp only [Instruction.funcIndices, List.mem_singleton, List.not_mem_nil] at hk
      all_goals
        simp only [checkInstruction, List.append_eq_nil_iff] at h
        grind [→ lt_of_checkFunc]
  globals := by
    intro p hp
    cases i <;> simp only [Instruction.globalIndices, List.mem_singleton, List.not_mem_nil] at hp
    all_goals
      subst hp
      exact hr

end

theorem le_of_fits (hf : ∀ r ∈ registerRange st cn, r < fn.registerCount ∧ r < 2 ^ 16)
    (hp : 0 < cn) : st + cn ≤ 2 ^ 16 := by
  have := hf (st + cn - 1) (mem_registerRange.mpr (by omega))
  omega

theorem forall_mem_registerRange_zero {n : ℕ} :
    (∀ r ∈ registerRange 0 cn, r < n) ↔ cn ≤ n := by
  simp only [mem_registerRange]
  constructor
  · intro h
    by_contra hn
    have := h n (by omega)
    omega
  · intro h r hr
    omega

theorem copies_of_leftOut {n : ℕ} (hr : i.LeftOut ms im n) : i.Copies im := by
  cases i with
  | call => exact fun c hc => forall_mem_registerRange_zero.mpr (hr c hc)
  | tailCall => exact fun c hc => forall_mem_registerRange_zero.mpr (hr.2.2 c hc)
  | _ => trivial

theorem leftOut_of_indexed (hft : i.Fits im.constants fn.registerCount)
    (h : i.Indexed ms im) (hcp : i.Copies im) : i.LeftOut ms im fn.registerCount := by
  cases i with
  | call => exact fun c hc => forall_mem_registerRange_zero.mp (hcp c hc)
  | loadConst d ci =>
    exact fun f hf => h.functions f (by simp [Instruction.funcIndices, hf])
  | loadGlobal d mi gi | storeGlobal mi gi s =>
    exact h.globals (mi, gi) (List.mem_singleton_self _)
  | typedBinary kn op d l rh =>
    intro r hr
    refine hft r ?_
    simp only [List.mem_cons, List.not_mem_nil, or_false] at hr
    simp only [Instruction.reads, Instruction.writes, Option.toList_some, List.mem_append,
      List.mem_cons, List.not_mem_nil, or_false]
    tauto
  | tailCall c st cn =>
    exact ⟨h.functions c (List.mem_singleton_self _), fun r hr => hft r (List.mem_append_left _ hr),
      fun c hc => forall_mem_registerRange_zero.mp (hcp c hc)⟩
  | callMethod d o nc st cn t ty =>
    exact ⟨fun k hk => h.types k (.operand hk),
      fun r hr => hft r (List.mem_append_left _ (List.mem_cons_of_mem _ hr))⟩
  | createFuture | createAwaitFuture | callInternalThread | awaitAll | awaitRace
  | callInternalMath =>
    exact le_of_fits fun r hr => hft r (List.mem_append_left _ hr)
  | createIndirectFuture =>
    exact le_of_fits fun r hr => hft r (List.mem_append_left _ (List.mem_cons_of_mem _ hr))
  | newArray d ty lr => exact fun e he => h.types e (.element he)
  | cast d s ty => exact fun k hk => h.types k (.cast hk)
  | instanceof d s ty => exact fun k hk => h.types k (.instanceof hk)
  | _ => trivial

end Validation

end Galfus
