import Galfus.Vm.Execute

/-! # Frames

How frames are pushed and popped, how arguments get into the registers of a callee, and
how a tail call reuses the frame of its caller. The general handlers go through
`push_frame` and `setup_args_from_caller`; the loop of `execute_with_budget` has its own
calls and tail calls for functions of the current module.
-/

namespace Galfus

namespace ThreadState

/-- Make room for the registers below `newTop`. A register file that grows at least doubles, from
`least` on. -/
def reserve (least newTop : ℕ) (registers : List VmValue) : List VmValue :=
  if registers.length < newTop then
    registers ++ List.replicate
      (max newTop (2 * max registers.length least) - registers.length) .null
  else registers

def callDepthExceeded (t : ThreadState) : VmError :=
  .resourceLimitExceeded ⟨.callDepth, t.callStack.length, 1, t.maxCallDepth⟩

/-- The frame of `f` above the current frame, with the flag that it saves. -/
def openFrame (least : ℕ) (saved : Bool) (moduleId funcIdx : ℕ) (returnDest : Option ℕ)
    (f : BytecodeFunction) (t : ThreadState) : ThreadState :=
  let registerBase := t.currentRegisterTop
  let newTop := registerBase + f.registerCount
  { t with
    registers := reserve least newTop t.registers
    currentRegisterBase := registerBase
    currentRegisterTop := newTop
    callStack := ⟨moduleId, funcIdx, 0, registerBase, returnDest, f.instructions, saved⟩ ::
      t.callStack
    currentFrameHasObjects := false }

def pushFrame (moduleId funcIdx : ℕ) (returnDest : Option ℕ) (f : BytecodeFunction) :
    ThreadExec Unit := do
  let t ← Exec.get
  if t.maxCallDepth ≤ t.callStack.length then Exec.throw t.callDepthExceeded
  else Exec.modify (openFrame 64 t.currentFrameHasObjects moduleId funcIdx returnDest f)

def placeArg (idx : ℕ) (v : VmValue) : ThreadExec Unit := fun t =>
  if idx < t.registers.length then
    some (.ok (), { t with
      currentFrameHasObjects := t.currentFrameHasObjects || v.isObject
      registers := t.registers.set idx v
      heap := t.heap.retainAnchorVal v })
  else none

/-- Overwrite a register with null; what it held is not released. -/
def clearReg (idx : ℕ) : ThreadExec Unit := fun t =>
  if idx < t.registers.length then
    some (.ok (), { t with registers := t.registers.set idx .null })
  else none

def callerArg (callerBase src : ℕ) : ThreadExec VmValue := do
  let t ← Exec.get
  match t.registers[callerBase + src]? with
  | some v => pure v
  | none => Exec.throw (.registerOutOfBounds src)

/-- The registers of the arguments. A receiver stands for the first one. -/
def argRegs (argsStart argCount : ℕ) : Option ℕ → List ℕ
  | none => VirtualMachine.regRange argsStart argCount
  | some obj => (VirtualMachine.regRange argsStart argCount).set 0 obj

def setupArgsFromCaller (argsStart argCount calleeParamCount : ℕ) (hasObj : Option ℕ) :
    ThreadExec Unit := do
  let t ← Exec.get
  match t.callStack with
  | callee :: caller :: _ => do
    (argRegs argsStart argCount hasObj).zipIdx.forM fun p => do
      let v ← callerArg caller.registerBase p.1
      placeArg (callee.registerBase + p.2) v
    (List.range' argCount (calleeParamCount - argCount)).forM fun i =>
      clearReg (callee.registerBase + i)
  | _ => Exec.throw .emptyCallStack

def releaseReg (idx : ℕ) : ThreadExec Unit := fun t => do
  let old ← t.registers[idx]?
  some (.ok (), { t with
    registers := t.registers.set idx .null
    heap := t.heap.releaseAnchorVal old })

def releaseRegs (base top : ℕ) : ThreadExec Unit :=
  (List.range' base (top - base)).forM releaseReg

/-- Release the registers of the current frame, if it may have objects. -/
def releaseFrame (base : ℕ) : ThreadExec Unit := do
  let t ← Exec.get
  if t.currentFrameHasObjects then releaseRegs base t.currentRegisterTop else pure ()

/-- Go back from a frame, of which nothing is left, to the frames below. -/
def leaveFrame (frame : CallFrame) (frames : List CallFrame) (t : ThreadState) : ThreadState :=
  { t with
    currentRegisterTop := frame.registerBase
    currentRegisterBase := (frames.head?.map CallFrame.registerBase).getD 0
    currentFrameHasObjects := frame.hasObjects }

def popFrame : ThreadExec (Option CallFrame) := do
  let t ← Exec.get
  match t.callStack with
  | [] => pure none
  | frame :: rest => do
    Exec.modify fun t => { t with callStack := rest }
    releaseFrame frame.registerBase
    Exec.modify (leaveFrame frame rest)
    pure (some frame)

/-- `copy_nonoverlapping` of registers; it is undefined if they overlap. -/
def copyRegs (src dst count : ℕ) : ThreadExec (List VmValue) := fun t =>
  let vs := (t.registers.drop src).take count
  if src < dst + count ∧ dst < src + count then none
  else if vs.length = count ∧ dst + count ≤ t.registers.length then
    some (.ok vs, { t with
      registers := t.registers.take dst ++ vs ++ t.registers.drop (dst + count) })
  else none

def anchorArg (v : VmValue) : ThreadExec Unit :=
  Exec.modify fun t => { t with
    currentFrameHasObjects := t.currentFrameHasObjects || v.isObject
    heap := t.heap.retainAnchorVal v }

/-- The call of a function of the current module in the loop of `execute_with_budget`, from
the frame at `base`. -/
def callLocal (moduleId base dest funcIdx : ℕ) (callee : BytecodeFunction)
    (argsStart argCount : ℕ) : ThreadExec Unit := do
  let t ← Exec.get
  if t.maxCallDepth ≤ t.callStack.length then Exec.throw t.callDepthExceeded
  else do
    Exec.modify (openFrame 0 false moduleId funcIdx (some dest) callee)
    if argCount = 0 then pure ()
    else do
      let vs ← copyRegs (base + argsStart) t.currentRegisterTop argCount
      vs.forM anchorArg

/-- Read registers that follow each other; the access is not checked. -/
def readRegs (start count : ℕ) : ThreadExec (List VmValue) := fun t =>
  let vs := (t.registers.drop start).take count
  if vs.length = count then some (.ok vs, t) else none

/-- Empty the registers of a frame that a tail call reuses. -/
def clearFrame (base newTop : ℕ) : ThreadExec Unit := do
  let t ← Exec.get
  if t.currentFrameHasObjects then releaseRegs base t.currentRegisterTop
  else (List.range' base (max t.currentRegisterTop newTop - base)).forM clearReg

def placeArgs (base : ℕ) (args : List VmValue) : ThreadExec Unit := do
  Exec.modify fun t => { t with currentFrameHasObjects := false }
  (args.zipIdx base).forM fun p => placeArg p.2 p.1

def reuseFrame (moduleId funcIdx newTop : ℕ) (f : BytecodeFunction) : ThreadExec Unit := do
  let t ← Exec.get
  match t.callStack with
  | [] => Exec.stop
  | frame :: rest => Exec.modify fun t => { t with
      currentRegisterTop := newTop
      callStack := { frame with
        moduleId := moduleId
        funcIdx := funcIdx
        pc := 0
        cachedInstructions := f.instructions
        hasObjects := t.currentFrameHasObjects } :: rest }

def reserveRegs (newTop : ℕ) : ThreadExec Unit :=
  Exec.modify fun t => { t with registers := reserve 0 newTop t.registers }

section

variable (moduleId base funcIdx : ℕ) (callee : BytecodeFunction) (argsStart argCount : ℕ)

/-- Read the arguments, empty the frame at `base` and give it to the callee. The general handler
first overwrites the registers of missing parameters with null. -/
def replaceFrame (missing : List ℕ) : ThreadExec Unit := do
  let newTop := base + callee.registerCount
  reserveRegs newTop
  let args ← readRegs (base + argsStart) argCount
  missing.forM fun i => clearReg (base + i)
  clearFrame base newTop
  placeArgs base args
  reuseFrame moduleId funcIdx newTop callee

/-- The tail call of a function of the current module in the loop of `execute_with_budget`. -/
def tailCallLocal : ThreadExec Unit :=
  replaceFrame moduleId base funcIdx callee argsStart argCount []

end

end ThreadState

namespace VirtualMachine

open ThreadState

variable (vm : VirtualMachine)

def getFunction (moduleId funcIdx : ℕ) : Except VmError BytecodeFunction := do
  let m ← vm.getModule moduleId
  match m.functions[funcIdx]? with
  | some f => .ok f
  | none => .error (.functionOutOfBounds funcIdx)

/-- The module and the index of a function. Indices after the functions are slots for imports; the
slot of a global panics. -/
def resolveFunction (moduleId funcIdx : ℕ) : ThreadExec (ℕ × ℕ) := do
  let image ← Exec.lift (vm.getModule moduleId)
  if funcIdx < image.functions.length then pure (moduleId, funcIdx)
  else
    match (vm.resolveImports moduleId).bind (·[funcIdx - image.functions.length]?) with
    | none => Exec.throw (.functionOutOfBounds funcIdx)
    | some ⟨target, .function idx⟩ => pure (target, idx)
    | some ⟨_, .global _⟩ => Exec.stop

def checkArity (callee : BytecodeFunction) (argCount : ℕ) : ThreadExec Unit :=
  if callee.paramCount < argCount then
    Exec.throw (.typeMismatch (toString callee.paramCount ++ " arguments"))
  else pure ()

def enterFunction (dest targetModule targetFunc argsStart argCount : ℕ) (hasObj : Option ℕ) :
    ThreadExec VmStep := do
  let callee ← Exec.lift (vm.getFunction targetModule targetFunc)
  checkArity callee argCount
  pushFrame targetModule targetFunc (some dest) callee
  setupArgsFromCaller argsStart argCount callee.paramCount hasObj
  pure .continue

def executeCall (dest func argsStart argCount : ℕ) : ThreadExec VmStep := do
  let moduleId ← currentModule
  let (targetModule, targetFunc) ← vm.resolveFunction moduleId func
  vm.enterFunction dest targetModule targetFunc argsStart argCount none

def executeTailCall (func argsStart argCount : ℕ) : ThreadExec VmStep := do
  let moduleId ← currentModule
  let (targetModule, targetFunc) ← vm.resolveFunction moduleId func
  let callee ← Exec.lift (vm.getFunction targetModule targetFunc)
  checkArity callee argCount
  let t ← Exec.get
  replaceFrame targetModule t.currentRegisterBase targetFunc callee argsStart argCount
    (List.range' argCount (callee.paramCount - argCount))
  pure .continue

def returnTo (frame : CallFrame) (v : VmValue) : ThreadExec VmStep :=
  match frame.returnDest with
  | some dest => do
    writeReg dest v
    pure .continue
  | none => do
    let f ← Exec.lift (vm.getFunction frame.moduleId frame.funcIdx)
    pure (.ret v frame.moduleId f.returnTy)

def executeReturn (v : VmValue) : ThreadExec VmStep := do
  let popped ← popFrame
  match popped with
  | none => Exec.throw .emptyCallStack
  | some frame => vm.returnTo frame v

def executeRet (src : ℕ) : ThreadExec VmStep := do
  let v ← readReg src
  onHeap fun h => h.retainAnchorVal v
  vm.executeReturn v

end VirtualMachine

end Galfus
