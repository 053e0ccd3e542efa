import Galfus.Vm.Copy

/-! # Thread states

The state of a thread: its call stack, the register file with the window of the
current frame, its private heap and the globals of each module. Registers and globals
anchor the objects that they hold.
-/

namespace Galfus

/-- A frame. `returnDest` is the register of its caller for the result, and `hasObjects` what the
caller had in `currentFrameHasObjects`. -/
structure CallFrame where
  moduleId : ℕ
  funcIdx : ℕ
  pc : ℕ
  registerBase : ℕ
  returnDest : Option ℕ
  cachedInstructions : List Instruction
  hasObjects : Bool
  deriving DecidableEq

/-- A thread. The call stack has its top first; `moduleStates` maps modules to globals. -/
@[ext]
structure ThreadState where
  callStack : List CallFrame
  registers : List VmValue
  currentRegisterBase : ℕ
  currentRegisterTop : ℕ
  currentFrameHasObjects : Bool
  heap : PrivateHeap
  moduleStates : List (ℕ × List VmValue)
  maxCallDepth : ℕ
  deriving DecidableEq

abbrev ThreadExec := Exec VmError ThreadState

def VmValue.isObject (v : VmValue) : Bool := v.objectRef?.isSome

namespace PrivateHeap

/-- `retain_anchor_val`; an error is ignored. -/
def retainAnchorVal (h : PrivateHeap) : VmValue → PrivateHeap
  | .object r => h.orKeep (h.retainAnchor r)
  | _ => h

def retainEdgeVal (h : PrivateHeap) : VmValue → PrivateHeap
  | .object r => h.orKeep (h.retainEdge r)
  | _ => h

def releaseAnchorVal (h : PrivateHeap) : VmValue → PrivateHeap
  | .object r => h.orKeep (h.releaseAnchor r)
  | _ => h

def releaseEdgeVal (h : PrivateHeap) : VmValue → PrivateHeap
  | .object r => h.orKeep (h.releaseEdge r)
  | _ => h

/-- `collect_futures_in_value`, over the references visited and the ids found. -/
def collectFuturesInValue (h : PrivateHeap) :
    ℕ → Finset VmObjectRef × List ℕ → VmValue → Option (Finset VmObjectRef × List ℕ)
  | 0, _, _ => none
  | n + 1, (visited, ids), v =>
    match v with
    | .future id => some (visited, ids ++ [id])
    | .object r =>
      if r ∈ visited then some (visited, ids)
      else
        match h.getObject r with
        | .ok obj => obj.slots.foldlM (h.collectFuturesInValue n) (insert r visited, ids)
        | .error _ => some (insert r visited, ids)
    | _ => some (visited, ids)

/-- `value_contains_future`, over whether it was found and the references visited. -/
def valueContainsFuture (h : PrivateHeap) (id : ℕ) :
    ℕ → Bool × Finset VmObjectRef → VmValue → Option (Bool × Finset VmObjectRef)
  | 0, _, _ => none
  | n + 1, (found, visited), v =>
    if found then some (true, visited)
    else
      match v with
      | .future id' => some (id' = id, visited)
      | .object r =>
        if r ∈ visited then some (false, visited)
        else
          match h.getObject r with
          | .ok obj => obj.slots.foldlM (h.valueContainsFuture id n) (false, insert r visited)
          | .error _ => some (false, insert r visited)
      | _ => some (false, visited)

end PrivateHeap

namespace ThreadState

def onHeap (f : PrivateHeap → PrivateHeap) : ThreadExec Unit :=
  Exec.modify fun t => { t with heap := f t.heap }

/-- The registers of the frames on the call stack. -/
def liveRegisters (t : ThreadState) : List VmValue := t.registers.take t.currentRegisterTop

def globals (t : ThreadState) : List VmValue := t.moduleStates.flatMap Prod.snd

def getGlobals (t : ThreadState) (moduleId : ℕ) : List VmValue :=
  (t.moduleStates.lookup moduleId).getD []

def setGlobals (moduleId : ℕ) (values : List VmValue) :
    List (ℕ × List VmValue) → List (ℕ × List VmValue)
  | [] => [(moduleId, values)]
  | (m, old) :: rest =>
    if moduleId = m then (m, values) :: rest else (m, old) :: setGlobals moduleId values rest

/-- Read a register; the access is not checked. -/
def readReg (reg : ℕ) : ThreadExec VmValue := fun t =>
  (t.registers[t.currentRegisterBase + reg]?).map fun v => (.ok v, t)

/-- Read registers and retain each value. -/
def gather (retain : PrivateHeap → VmValue → PrivateHeap) : List ℕ → ThreadExec (List VmValue)
  | [] => pure []
  | reg :: regs => do
    let v ← readReg reg
    onHeap (retain · v)
    let vs ← gather retain regs
    pure (v :: vs)

def writeReg (reg : ℕ) (v : VmValue) : ThreadExec Unit := fun t => do
  let idx := t.currentRegisterBase + reg
  let old ← t.registers[idx]?
  some (.ok (), { t with
    currentFrameHasObjects := t.currentFrameHasObjects || v.isObject
    registers := t.registers.set idx v
    heap := t.heap.releaseAnchorVal old })

def readRegAt (base reg : ℕ) : ThreadExec VmValue := fun t =>
  (t.registers[base + reg]?).map fun v => (.ok v, t)

/-- Write a register of the frame at `base` with a value that is no object. -/
def writePrimRegAt (base reg : ℕ) (v : VmValue) : ThreadExec Unit := fun t => do
  let old ← t.registers[base + reg]?
  some (.ok (), { t with
    registers := t.registers.set (base + reg) v
    heap := t.heap.releaseAnchorVal old })

def writeRegAt (base reg : ℕ) (v : VmValue) : ThreadExec Unit := fun t => do
  let old ← t.registers[base + reg]?
  some (.ok (), { t with
    currentFrameHasObjects := t.currentFrameHasObjects || v.isObject
    registers := t.registers.set (base + reg) v
    heap := t.heap.releaseAnchorVal old })

def futureHandlesInValue (depth : ℕ) (v : VmValue) : ThreadExec (List ℕ) := do
  let t ← Exec.get
  let found ← Exec.unwrap (t.heap.collectFuturesInValue depth (∅, []) v)
  pure (found.2.mergeSort (· ≤ ·)).eraseReps

def containsFutureHandle (depth id : ℕ) (t : ThreadState) : Option Bool :=
  ((t.liveRegisters ++ t.globals).foldlM (t.heap.valueContainsFuture id depth) (false, ∅)).map
    Prod.fst

def currentModule : ThreadExec ℕ := do
  let t ← Exec.get
  match t.callStack with
  | frame :: _ => pure frame.moduleId
  | [] => Exec.throw .emptyCallStack

def allocObject (ord : CollectOrder) (obj : HeapObject) : ThreadExec VmObjectRef :=
  Exec.zoom heap (fun t h => { t with heap := h }) (PrivateHeap.allocM ord obj)

end ThreadState

end Galfus
