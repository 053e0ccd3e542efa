import Galfus.Vm.System

/-! # The two interpreters

`step` executes one instruction with the general handlers. `execute_with_budget` keeps the
program counter and what it needs of the current frame in local variables, executes the
frequent instructions itself, and writes the program counter back to the frame before it
calls a general handler.
-/

namespace Galfus

structure StackFrameInfo where
  moduleId : ℕ
  funcIdx : ℕ
  instructionOffset : ℕ
  deriving DecidableEq, Repr

structure VmPanic where
  error : VmError
  stackTrace : List StackFrameInfo
  deriving DecidableEq, Repr

/-- The local variables of `execute_with_budget`. -/
structure HotFrame where
  pc : ℕ
  instructions : List Instruction
  registerBase : ℕ
  moduleId : ℕ
  image : BytecodeModule

/-- How the loop of `execute_with_budget` goes on: without or with a charge to the budget,
or by leaving it. -/
inductive HotStep where
  | advance (l : HotFrame)
  | spend (l : HotFrame)
  | done (step : VmStep)

namespace ThreadState

def stackTrace (t : ThreadState) : List StackFrameInfo :=
  t.callStack.map fun f => ⟨f.moduleId, f.funcIdx, f.pc - 1⟩

/-- The adapter handle that was queued last for a drop, and the state without it. -/
def takeDrop (t : ThreadState) : Option (AdapterHandleId × ThreadState) :=
  t.heap.pendingAdapterHandleDrops.getLast?.map fun handle =>
    (handle, { t with heap := { t.heap with
      pendingAdapterHandleDrops := t.heap.pendingAdapterHandleDrops.dropLast } })

def syncFrame (pc : ℕ) : ThreadExec Unit := Exec.modify (setPc pc)

/-- The drop of an adapter handle goes before everything else. -/
def orDrop (x : ThreadExec VmStep) : ThreadExec VmStep := do
  let t ← Exec.get
  match t.takeDrop with
  | some (handle, t') => do
    Exec.modify fun _ => t'
    pure (.suspend (.adapterHandleDropped handle) (.new none))
  | none => x

end ThreadState

/-- The operands on which an operator of the loop writes the program counter back, for
`compare_values` or before an error. -/
def BinaryOp.syncs : BinaryOp → VmValue → VmValue → Bool
  | .lt => fun
    | .int32 _, .int32 _ | .int64 _, .int64 _ | .uint32 _, .uint32 _ | .uint64 _, .uint64 _ => false
    | _, _ => true
  | .le => fun
    | .int32 _, .int32 _ | .int64 _, .int64 _ => false
    | _, _ => true
  | .add | .sub => fun
    | .int8 _, .int8 _ | .int16 _, .int16 _ | .int32 _, .int32 _ | .int64 _, .int64 _
    | .uint8 _, .uint8 _ | .uint16 _, .uint16 _ | .uint32 _, .uint32 _ | .uint64 _, .uint64 _
    | .float32 _, .float32 _ | .float64 _, .float64 _ => false
    | _, _ => true
  | _ => fun _ _ => false

namespace VirtualMachine

open ThreadState

variable (vm : VirtualMachine) (orders : PrivateHeap → HashOrders)

/-- The general handler of an instruction. `step` passes over those on operands of a known type. -/
def dispatch (orders : HashOrders) (i : Instruction) : ThreadExec VmStep :=
  match i with
  | .loadConst dest constIdx => vm.executeLoadConst orders dest constIdx
  | .binary _ _ _ _ | .unary _ _ _ | .binaryImmediate _ _ _ _ | .fallback _ _ _ =>
    vm.executeOperatorInstruction i
  | .jump _ | .jumpTrue _ _ | .jumpFalse _ _ | .jumpNull _ _ | .call _ _ _ _ | .tailCall _ _ _
  | .callMethod _ _ _ _ _ _ _ | .callDynamic _ _ _ _ | .ret _ | .retNull | .panic _ =>
    vm.executeControlInstruction i
  | .drop _ | .awaitFuture _ _ _ | .createFuture _ _ _ _ _ _ | .createAwaitFuture _ _ _ _ _ _
  | .callInternalThread _ _ _ _ _ _ | .createIndirectFuture _ _ _ _ _ _ | .awaitAll _ _ _ _
  | .awaitRace _ _ _ _ | .len _ _ | .copyArray _ _ _ | .callInternalMath _ _ _ _ =>
    vm.executeSystemInstruction i
  | .typedBinary _ _ _ _ _ => pure .continue
  | .move _ _ | .loadGlobal _ _ _ | .storeGlobal _ _ _ | .loadNull _ | .allocLocal _ _
  | .loadField _ _ _ | .storeField _ _ _ | .newArray _ _ _ | .loadIndex _ _ _ | .storeIndex _ _ _
  | .newTuple _ _ _ _ | .newChoice _ _ _ _ | .cast _ _ _ | .copy _ _ | .instanceof _ _ _ =>
    vm.executeInstruction orders i

/-- Execute the instruction at the program counter, which is moved on first. -/
def executeNext : ThreadExec VmStep := do
  let t ← Exec.get
  match t.callStack with
  | [] => Exec.throw .emptyCallStack
  | frame :: _ => do
    let i ← Exec.unwrap frame.cachedInstructions[frame.pc]?
    Exec.modify (setPc (frame.pc + 1))
    vm.dispatch (orders t.heap) i

def step : ThreadExec VmStep := orDrop (vm.executeNext orders)

variable (l : HotFrame)

def reloadFrame : ThreadExec HotFrame := do
  let t ← Exec.get
  match t.callStack with
  | [] => pure l
  | frame :: _ => do
    let image ← if l.moduleId = frame.moduleId then pure l.image
      else Exec.unwrap (vm.modules frame.moduleId)
    pure ⟨frame.pc, frame.cachedInstructions, frame.registerBase, frame.moduleId, image⟩

def delegate (i : Instruction) : ThreadExec HotStep := do
  syncFrame l.pc
  let t ← Exec.get
  let s ← vm.dispatch (orders t.heap) i
  match s with
  | .continue => do
    let l ← vm.reloadFrame l
    pure (.spend l)
  | s => pure (.done s)

def hotOperator (i : Instruction) : ThreadExec HotStep := do
  match i with
  | .binary op _ lhs rhs => do
    let lv ← readRegAt l.registerBase lhs
    let rv ← readRegAt l.registerBase rhs
    if op.syncs lv rv then syncFrame l.pc else pure ()
  | _ => pure ()
  vm.executeHotOperator l.registerBase i
  pure (.advance l)

def hotJumpIf (cond : ℕ) (taken : Bool) (offset : ℤ) : ThreadExec HotStep := do
  let v ← readRegAt l.registerBase cond
  match v with
  | .bool b => pure (.spend (if b = taken then { l with pc := jumpTarget l.pc offset } else l))
  | _ => do
    syncFrame l.pc
    Exec.throw (.typeMismatch "boolean conditional")

def hotJumpNull (val : ℕ) (offset : ℤ) : ThreadExec HotStep := do
  let v ← readRegAt l.registerBase val
  pure (.spend (if v = .null then { l with pc := jumpTarget l.pc offset } else l))

def hotMove (dest src : ℕ) : ThreadExec HotStep := do
  let v ← readRegAt l.registerBase src
  onHeap fun h => h.retainAnchorVal v
  writeRegAt l.registerBase dest v
  pure (.spend l)

def hotCall (dest func argsStart argCount : ℕ) : ThreadExec HotStep :=
  match l.image.functions[func]? with
  | some callee => do
    syncFrame l.pc
    let t ← Exec.get
    callLocal l.moduleId l.registerBase dest func callee argsStart argCount
    pure (.spend { l with
      pc := 0
      instructions := callee.instructions
      registerBase := t.currentRegisterTop })
  | none => vm.delegate orders l (.call dest func argsStart argCount)

def hotTailCall (func argsStart argCount : ℕ) : ThreadExec HotStep :=
  match l.image.functions[func]? with
  | some callee => do
    tailCallLocal l.moduleId l.registerBase func callee argsStart argCount
    pure (.spend { l with
      pc := 0
      instructions := callee.instructions })
  | none => vm.delegate orders l (.tailCall func argsStart argCount)

def hotReturn (frame : CallFrame) (v : VmValue) : ThreadExec HotStep :=
  match frame.returnDest with
  | some dest => do
    let l ← vm.reloadFrame l
    writeRegAt l.registerBase dest v
    pure (.spend l)
  | none => do
    let f ← Exec.lift (vm.getFunction frame.moduleId frame.funcIdx)
    pure (.done (.ret v frame.moduleId f.returnTy))

def hotRet (src : ℕ) : ThreadExec HotStep := do
  let v ← readRegAt l.registerBase src
  onHeap fun h => h.retainAnchorVal v
  let popped ← popFrame
  match popped with
  | none => Exec.stop
  | some frame => vm.hotReturn l frame v

def hotRetNull : ThreadExec HotStep := do
  let popped ← popFrame
  match popped with
  | none => Exec.throw .emptyCallStack
  | some frame => vm.hotReturn l frame .null

/-- One round of the loop, where the program counter was moved on. -/
def hotInstruction (i : Instruction) : ThreadExec HotStep :=
  match i with
  | .binaryImmediate _ _ _ _ | .typedBinary _ _ _ _ _ => vm.hotOperator l i
  | .binary op _ _ _ => if op.isHot then vm.hotOperator l i else vm.delegate orders l i
  | .loadNull dest => do
    writePrimRegAt l.registerBase dest .null
    pure (.advance l)
  | .jump offset => pure (.spend { l with pc := jumpTarget l.pc offset })
  | .jumpTrue cond offset => hotJumpIf l cond true offset
  | .jumpFalse cond offset => hotJumpIf l cond false offset
  | .jumpNull val offset => hotJumpNull l val offset
  | .move dest src => hotMove l dest src
  | .call dest func argsStart argCount => vm.hotCall orders l dest func argsStart argCount
  | .tailCall func argsStart argCount => vm.hotTailCall orders l func argsStart argCount
  | .ret src => vm.hotRet l src
  | .retNull => vm.hotRetNull l
  | i => vm.delegate orders l i

/-- Execute the instructions `rest` up to the first one that is charged to the budget. To run off
the end of a function is undefined. -/
def hotStretch : List Instruction → HotFrame → ThreadExec (HotFrame ⊕ VmStep)
  | [], _ => Exec.stop
  | i :: rest, l => do
    let next ← vm.hotInstruction orders { l with pc := l.pc + 1 } i
    match next with
    | .advance l => hotStretch rest l
    | .spend l => pure (.inl l)
    | .done s => pure (.inr s)

def hotLoop : ℕ → HotFrame → ThreadExec VmStep
  | 0, l => do
    syncFrame l.pc
    pure .continue
  | budget + 1, l => do
    let next ← vm.hotStretch orders (l.instructions.drop l.pc) l
    match next with
    | .inl l => hotLoop budget l
    | .inr s => pure s

def loadFrame : ThreadExec HotFrame := do
  let t ← Exec.get
  match t.callStack with
  | [] => Exec.throw .emptyCallStack
  | frame :: _ => do
    let image ← Exec.unwrap (vm.modules frame.moduleId)
    pure ⟨frame.pc, frame.cachedInstructions, frame.registerBase, frame.moduleId, image⟩

def hotRun (budget : ℕ) : ThreadExec VmStep := do
  let l ← vm.loadFrame
  vm.hotLoop orders budget l

/-- `execute_with_budget`; a failure has the stack trace of the state that it leaves. -/
def executeWithBudget (budget : ℕ) (t : ThreadState) :
    Option (Except VmPanic VmStep × ThreadState) :=
  (orDrop (vm.hotRun orders budget) t).map fun p =>
    (p.1.mapError fun e => ⟨e, p.2.stackTrace⟩, p.2)

end VirtualMachine

end Galfus
