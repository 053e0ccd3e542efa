import Galfus.Vm.HandlerCounts

/-! # Exact counts

An instruction keeps the counts of a thread exact if and only if every object that it
writes to a register or a global gets its anchor. Loading an object from another object
does not, and the register may dangle later.
-/

namespace Galfus

namespace Instruction

def accesses : Instruction → List ℕ
  | .allocLocal dest _ | .loadGlobal dest _ _ | .loadNull dest | .drop dest => [dest]
  | .loadField dest obj _ => [dest, obj]
  | .storeField obj _ val => [obj, val]
  | .newArray dest _ lenReg => [dest, lenReg]
  | .loadIndex dest arr idx => [dest, arr, idx]
  | .storeIndex arr idx val => [arr, idx, val]
  | .newTuple dest _ start count => dest :: VirtualMachine.regRange start count
  | .newChoice dest _ _ payload => [dest, payload]
  | .cast dest src _ | .instanceof dest src _ | .move dest src | .copy dest src => [dest, src]
  | .storeGlobal _ _ src => [src]
  | .fallback dest src fallbackReg => [dest, src, fallbackReg]
  | _ => []

def stored : Instruction → List ℕ
  | .storeField _ _ val | .storeIndex _ _ val => [val]
  | .newTuple _ _ start count => VirtualMachine.regRange start count
  | .newChoice _ _ _ payload => [payload]
  | _ => []

def allocates : Instruction → Bool
  | .allocLocal _ _ | .newArray _ _ _ | .newTuple _ _ _ _ | .newChoice _ _ _ _ => true
  | _ => false

end Instruction

namespace VirtualMachine

open ThreadState

variable {vm : VirtualMachine} {orders : HashOrders} {t t' : ThreadState} {instr : Instruction}
  {step : VmStep}

/-- No object is written without being retained, and the anchors of an object that is
retained are not at the limit of their counter. -/
def AnchorsWritten (t : ThreadState) (instr : Instruction) : Prop :=
  (∀ r, unretained t instr ≠ some (.object r)) ∧
    ∀ r, retained t instr = some (.object r) → t.heap.anchorsAt r.index < u32Max

theorem countsExact_iff_of_none (hu : unretained t instr = none) (hr : retained t instr = none)
    (h : t'.CountsExact) : t'.CountsExact ↔ AnchorsWritten t instr := by
  simp [AnchorsWritten, hu, hr, h]

theorem anchorsWritten_iff_unretained (hr : retained t instr = none) :
    AnchorsWritten t instr ↔ ∀ r, unretained t instr ≠ some (.object r) := by
  simp [AnchorsWritten, hr]

theorem anchorsWritten_iff_retained (hu : unretained t instr = none) : AnchorsWritten t instr ↔
      ∀ r, retained t instr = some (.object r) → t.heap.anchorsAt r.index < u32Max := by
  simp [AnchorsWritten, hu]

/-- An instruction that succeeds on a thread with exact counts keeps them exact just if the objects
that it writes to registers and globals get their anchors. -/
theorem executeInstruction_countsExact_iff (he : t.CountsExact)
    (hcopy : ∀ dest src, instr ≠ .copy dest src)
    (hframe : ∀ reg ∈ instr.accesses, t.InWindow reg) (hleft : t.EdgesLeft instr.stored)
    (hh : instr.allocates → t.heap.Harmless (orders.collect 0))
    (hrun : vm.executeInstruction orders instr t = some (.ok step, t')) :
    t'.CountsExact ↔ AnchorsWritten t instr := by
  cases instr with
  | allocLocal dest ti =>
    apply countsExact_iff_of_none rfl rfl
    exact executeAllocLocal_countsExact he (hframe _ (.head _)) (hh rfl) hrun
  | newArray dest ti lr =>
    apply countsExact_iff_of_none rfl rfl
    exact executeNewArray_countsExact he (hframe _ (.head _)) (hh rfl) hrun
  | newTuple dest ti s c =>
    apply countsExact_iff_of_none rfl rfl
    exact executeNewTuple_countsExact he (hframe _ (.head _))
      (fun reg hrg => hframe reg (.tail _ hrg)) hleft (hh rfl) hrun
  | newChoice dest ti vi p =>
    apply countsExact_iff_of_none rfl rfl
    exact executeNewChoice_countsExact he (hframe _ (.head _)) (hframe _ (.tail _ (.head _))) hleft
      (hh rfl) hrun
  | storeField o f v =>
    apply countsExact_iff_of_none rfl rfl
    exact executeStoreField_countsExact he (hframe _ (.tail _ (.head _))) hleft hrun
  | storeIndex a i v =>
    apply countsExact_iff_of_none rfl rfl
    exact executeStoreIndex_countsExact he (hframe _ (.tail _ (.tail _ (.head _)))) hleft hrun
  | instanceof dest src ti =>
    apply countsExact_iff_of_none rfl rfl
    exact executeInstanceof_countsExact he (hframe _ (.head _)) hrun
  | drop reg =>
    apply countsExact_iff_of_none rfl rfl
    exact executeDrop_countsExact he (hframe _ (.head _)) hrun
  | loadNull dest =>
    simp only [executeInstruction, Exec.bind_eq_ok, Exec.pure_eq_ok] at hrun
    obtain ⟨_, _, hwr, -, rfl⟩ := hrun
    exact countsExact_iff_of_none rfl rfl ((he.writeReg (hframe _ (.head _)) hwr).mpr nofun)
  | loadField dest o f =>
    rw [anchorsWritten_iff_unretained rfl]
    exact executeLoadField_countsExact he (hframe _ (.head _)) hrun
  | loadIndex dest a i =>
    rw [anchorsWritten_iff_unretained rfl]
    exact executeLoadIndex_countsExact he (hframe _ (.head _)) hrun
  | cast dest src ti =>
    rw [anchorsWritten_iff_unretained rfl]
    exact executeCastTo_countsExact he (hframe _ (.head _)) hrun
  | fallback dest src fr =>
    rw [anchorsWritten_iff_unretained rfl]
    exact executeFallback_countsExact he (hframe _ (.head _)) hrun
  | move dest src =>
    rw [anchorsWritten_iff_retained rfl]
    exact executeMove_countsExact he (hframe _ (.head _)) (hframe _ (.tail _ (.head _))) hrun
  | loadGlobal dest mi gi =>
    rw [anchorsWritten_iff_retained rfl]
    exact executeLoadGlobal_countsExact he (hframe _ (.head _)) hrun
  | storeGlobal mi gi src =>
    rw [anchorsWritten_iff_retained rfl]
    exact executeStoreGlobal_countsExact he (hframe _ (.head _)) hrun
  | copy dest src => exact absurd rfl (hcopy dest src)
  | _ => cases hrun

/-- A thread of one frame. Its first register holds a tuple that holds another tuple. -/
def linkThread : ThreadState :=
  ⟨[⟨0, 0, 0, 0, none, [], false⟩], [.object ⟨0, 1⟩, .null], 0, 2, true,
    .ofTuples [PrivateHeap.tupleSlot 1 0 .black [⟨1, 1⟩], PrivateHeap.tupleSlot 0 1 .black []] ∅,
    [], 64⟩

/-- The outer tuple was moved to the second register. -/
def movedThread : ThreadState :=
  { linkThread with
    registers := [.object ⟨0, 1⟩, .object ⟨0, 1⟩]
    heap := .ofTuples
      [PrivateHeap.tupleSlot 2 0 .black [⟨1, 1⟩], PrivateHeap.tupleSlot 0 1 .black []] ∅ }

theorem executeInstruction_countsExact_moved :
    bare.executeInstruction .byIndex (.move 1 0) linkThread = some (.ok .continue, movedThread) ∧
      movedThread.CountsExact := by
  have hr : bare.executeInstruction .byIndex (.move 1 0) linkThread =
      some (.ok .continue, movedThread) := by decide
  refine ⟨hr, (executeInstruction_countsExact_iff (by decide) (by simp) (by decide) (by decide)
    (by simp [Instruction.allocates]) hr).mpr ⟨by simp [unretained], ?_⟩⟩
  rintro r ⟨⟩
  decide

/-- The inner tuple was loaded into the second register, which did not retain it. -/
def loadedThread : ThreadState :=
  { linkThread with registers := [.object ⟨0, 1⟩, .object ⟨1, 1⟩] }

/-- When the register of the outer tuple is overwritten, the other one dangles. -/
theorem executeInstruction_loadField_dangles : linkThread.CountsExact ∧
      bare.executeInstruction .byIndex (.loadField 1 0 0) linkThread =
        some (.ok .continue, loadedThread) ∧
      ¬ loadedThread.CountsExact ∧
      ∃ t, bare.executeInstruction .byIndex (.loadNull 0) loadedThread = some (.ok .continue, t) ∧
        .object ⟨1, 1⟩ ∈ t.heldValues ∧ ¬ t.heap.Alive ⟨1, 1⟩ := by
  refine ⟨by decide, by decide, by decide, _, rfl, by decide, by decide⟩

end VirtualMachine

end Galfus
