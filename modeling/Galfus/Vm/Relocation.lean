import Galfus.Bytecode.Accesses
import Galfus.Exec.Simulation
import Galfus.Vm.Interpreter
import Galfus.Window.Shifted

/-! # Relocated threads

A thread whose frames stand higher in the register file, above some registers that hold no
object and no future, and above other frames on the call stack. Its register file may also
be longer. As long as instructions use the registers of their frame only, such a thread
does what the original does.
-/

namespace Galfus

/-- Frames are moved up by `gap` from `cut` on, and from the frames `under'` to `under`. The lowest
returns to `bottom` instead of `bottom'`. -/
structure Relocation where
  cut : ℕ
  gap : ℕ
  bottom : Option ℕ
  bottom' : Option ℕ
  under : List CallFrame
  under' : List CallFrame
  length_le : under'.length ≤ under.length

namespace VirtualMachine

/-- The instructions of a module that use the first `n` registers only. -/
def CodeFits (vm : VirtualMachine) (moduleId n : ℕ) (code : List Instruction) : Prop :=
  ∃ image, vm.modules moduleId = some image ∧ ∀ i ∈ code, i.Fits image.constants n

/-- All functions use the registers of their frames only. -/
def Framed (vm : VirtualMachine) : Prop :=
  ∀ moduleId image, vm.modules moduleId = some image → ∀ f ∈ image.functions,
    ∀ i ∈ f.instructions, i.Fits image.constants f.registerCount

/-- The frames `f :: rest` stand on each other from the cut on, where `f` has `n` registers, and
each returns to the next. -/
def Chain (vm : VirtualMachine) (m : Relocation) : ℕ → CallFrame → List CallFrame → Prop
  | n, f, [] => (f.registerBase = m.cut ∧ f.returnDest = m.bottom') ∧
      vm.CodeFits f.moduleId n f.cachedInstructions
  | n, f, g :: rest => vm.CodeFits f.moduleId n f.cachedInstructions ∧
      ∃ k, f.registerBase = g.registerBase + k ∧ (∀ d ∈ f.returnDest, d < k) ∧ vm.Chain m k g rest

end VirtualMachine

/-- The frame `f` above the frames `rest`, moved. -/
def Relocation.place (m : Relocation) (rest : List CallFrame) (f : CallFrame) : CallFrame :=
  { f with
    registerBase := f.registerBase + m.gap
    returnDest := if rest.isEmpty then m.bottom else f.returnDest }

def Relocation.frames (m : Relocation) : List CallFrame → List CallFrame
  | [] => []
  | f :: rest => m.place rest f :: m.frames rest

@[simp] theorem Relocation.length_frames (m : Relocation) (fs : List CallFrame) :
    (m.frames fs).length = fs.length := by
  induction fs with
  | nil => rfl
  | cons f rest ih => rw [frames, List.length_cons, List.length_cons, ih]

/-- Values that a search for futures passes over. -/
def VmValue.isPlain : VmValue → Bool
  | .object _ | .future _ => false
  | _ => true

/-- A limit on call depth that only the moved thread reaches. -/
def Relocation.Excuses (m : Relocation) : VmError → Prop
  | .resourceLimitExceeded failure =>
    failure.resource = .callDepth ∧ m.under'.length < m.under.length
  | _ => False

/-- `s` is `t` with the frames `f :: rest`, of which `f` has `n` registers, moved. -/
structure Relocated (vm : VirtualMachine) (m : Relocation) (n : ℕ) (f : CallFrame)
    (rest : List CallFrame) (s t : ThreadState) : Prop where
  heap : s.heap = t.heap
  moduleStates : s.moduleStates = t.moduleStates
  flag : s.currentFrameHasObjects = t.currentFrameHasObjects
  maxCallDepth : s.maxCallDepth = t.maxCallDepth
  stack : s.callStack = m.frames (f :: rest) ++ m.under
  stack' : t.callStack = f :: rest ++ m.under'
  base : s.currentRegisterBase = f.registerBase + m.gap
  base' : t.currentRegisterBase = f.registerBase
  top : s.currentRegisterTop = f.registerBase + n + m.gap
  top' : t.currentRegisterTop = f.registerBase + n
  top_le : f.registerBase + n + m.gap ≤ s.registers.length
  top_le' : f.registerBase + n ≤ t.registers.length
  registers : Shifted .null m.cut m.gap s.registers t.registers
  plain : ∀ i < m.gap, ∀ v ∈ s.registers[m.cut + i]?, v.isPlain = true
  chain : vm.Chain m n f rest

open Exec

variable {vm : VirtualMachine} {m : Relocation} {n : ℕ} {f : CallFrame} {rs : List CallFrame}
  {s t : ThreadState} {α : Type} {X : VmError → Prop}

namespace VirtualMachine.Chain

theorem cut_le (h : vm.Chain m n f rs) : m.cut ≤ f.registerBase := by
  induction rs generalizing n f with
  | nil => exact h.1.1.ge
  | cons g rs ih =>
    obtain ⟨-, k, hk, -, h⟩ := h
    have := ih h
    omega

theorem codeFits (h : vm.Chain m n f rs) : vm.CodeFits f.moduleId n f.cachedInstructions := by
  cases rs with
  | nil => exact h.2
  | cons g rs => exact h.1

theorem setPc (h : vm.Chain m n f rs) (pc : ℕ) : vm.Chain m n { f with pc := pc } rs := by
  cases rs with
  | nil | cons g rs => exact h

end VirtualMachine.Chain

namespace Relocated

variable (h : Relocated vm m n f rs s t)
include h

theorem getElem? {r : ℕ} (hr : r < n) :
    s.registers[s.currentRegisterBase + r]? = t.registers[t.currentRegisterBase + r]? := by
  rw [h.base, h.base', Nat.add_right_comm]
  have := h.chain.cut_le
  have := h.top_le
  have := h.top_le'
  exact h.registers.getElem?_add (by omega) (by omega) (by omega)

theorem liveRegisters : ∃ xs g ys, s.liveRegisters = xs ++ g ++ ys ∧ t.liveRegisters = xs ++ ys ∧
      ∀ v ∈ g, v.isPlain = true := by
  have hc := h.chain.cut_le
  refine ⟨t.registers.take m.cut, (s.registers.drop m.cut).take m.gap,
    (t.registers.drop m.cut).take (f.registerBase + n - m.cut), ?_, ?_, ?_⟩
  · rw [ThreadState.liveRegisters, h.top]
    exact h.registers.take_add (by omega) h.top_le' h.top_le
  · rw [ThreadState.liveRegisters, h.top', ← List.take_add]
    congr 1
    omega
  · intro v hv
    obtain ⟨i, hi, rfl⟩ := List.mem_iff_getElem.mp hv
    simp only [List.length_take, List.length_drop] at hi
    refine h.plain i (by omega) _ ?_
    simp only [List.getElem_take, List.getElem_drop]
    exact List.getElem?_eq_getElem _

theorem withHeap (hp : PrivateHeap) :
    Relocated vm m n f rs { s with heap := hp } { t with heap := hp } :=
  { h with heap := rfl }

theorem store {r : ℕ} (hr : r < n) (v : VmValue) (fl : Bool) (hp : PrivateHeap) :
    Relocated vm m n f rs { s with
        currentFrameHasObjects := fl
        registers := s.registers.set (s.currentRegisterBase + r) v
        heap := hp }
      { t with
        currentFrameHasObjects := fl
        registers := t.registers.set (t.currentRegisterBase + r) v
        heap := hp } := by
  have hc := h.chain.cut_le
  have ht := h.top_le
  have ht' := h.top_le'
  refine { h with
    heap := rfl, flag := rfl, top_le := ?_, top_le' := ?_, registers := ?_, plain := ?_ }
  · simpa using ht
  · simpa using ht'
  · rw [h.base, h.base', Nat.add_right_comm]
    exact h.registers.set (by omega) (by omega) (by omega)
  · intro i hi
    rw [h.base, List.getElem?_set_ne (by omega)]
    exact h.plain i hi

end Relocated

end Galfus
