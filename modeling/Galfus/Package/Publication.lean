import Galfus.Package.Image

/-! # Publication of packages

`optimize_package` prunes and optimises the modules of a package. With a previously finalised
package it applies only the modules that changed to the graph of that package. The search for
what a module uses and the optimisation of one function are parameters.
-/

namespace Galfus.Package

/-- `==` of floating-point numbers, on bit patterns. -/
def sameF32 (x y : BitVec 32) : Bool :=
  !decide (0x7F800000#32 < x &&& 0x7FFFFFFF#32) && !decide (0x7F800000#32 < y &&& 0x7FFFFFFF#32) &&
    (x == y || x &&& 0x7FFFFFFF#32 == 0 && y &&& 0x7FFFFFFF#32 == 0)

def sameF64 (x y : BitVec 64) : Bool :=
  !decide (0x7FF0000000000000#64 < x &&& 0x7FFFFFFFFFFFFFFF#64) &&
    !decide (0x7FF0000000000000#64 < y &&& 0x7FFFFFFFFFFFFFFF#64) &&
    (x == y || x &&& 0x7FFFFFFFFFFFFFFF#64 == 0 && y &&& 0x7FFFFFFFFFFFFFFF#64 == 0)

/-- The derived `==` of constants. -/
def sameConstant : Constant → Constant → Bool
  | .float32 x, .float32 y => sameF32 x y
  | .float64 x, .float64 y => sameF64 x y
  | c, c' => c == c'

def sameConstants : List Constant → List Constant → Bool
  | [], [] => true
  | c :: cs, c' :: cs' => sameConstant c c' && sameConstants cs cs'
  | _, _ => false

/-- The derived `==` of nodes. Only their constants have floating-point numbers. -/
def sameNode (n n' : BytecodeNode) : Bool :=
  sameConstants n.module.constants n'.module.constants &&
    { n with module := { n.module with constants := [] } } ==
      { n' with module := { n'.module with constants := [] } }

/-- What `optimize_package` uses on a single module or function: what is reachable in a module, and
the optimised function with the new offsets of its instructions. -/
structure Passes where
  collectReachableIndices : BytecodeModule → Finset String → Finset ℕ × Finset ℕ
  optimizeFunction : BytecodeFunction → Option (BytecodeFunction × List (Option ℕ))

namespace ExecutionMetadata

def remapFunctions (m : ExecutionMetadata) (remap : List (Option ℕ)) : ExecutionMetadata :=
  ⟨m.spans.entries.foldl (fun spans entry =>
    match remap[entry.1]? with
    | some (some remapped) => spans.insert remapped entry.2
    | _ => spans) .empty⟩

def remapInstructionOffsets (m : ExecutionMetadata) (function : ℕ) (remap : List (Option ℕ)) :
    ExecutionMetadata :=
  match m.spans.lookup function with
  | none => m
  | some spans => ⟨(m.spans.erase function).insert function
      (.ofList (spans.entries.filterMap fun entry =>
        (remap[entry.1]?.join).map fun offset => (offset, entry.2)))⟩

end ExecutionMetadata

def methodName (constants : List Constant) : Instruction → Option String
  | .callMethod _ _ nameConst _ _ _ _ =>
    match constants[nameConst]? with
    | some (.string name) => some name
    | _ => none
  | _ => none

def globalMethodNames (modules : List BytecodeModule) : Finset String :=
  (modules.flatMap fun module => module.functions.flatMap fun function =>
    function.instructions.filterMap (methodName module.constants)).toFinset

def directCallCount (function : BytecodeFunction) : ℕ :=
  function.instructions.countP fun
    | .call _ _ _ _ | .createFuture _ _ _ _ _ _ | .tailCall _ _ _ => true
    | _ => false

section Prune

/-- The place of an index among those that are kept. -/
def rank (kept : Finset ℕ) (idx : ℕ) : ℕ := ((List.range idx).filter (· ∈ kept)).length

def keep {α : Type} (kept : Finset ℕ) (l : List α) : List α :=
  (l.zipIdx.filter (·.2 ∈ kept)).map (·.1)

/-- The new index of a function. A reference to a function that was pruned is a panic; imports
follow the functions. -/
def remapFuncIdx (kept : Finset ℕ) (oldLen newLen : ℕ) (idx : ℕ) : Option ℕ :=
  if idx < oldLen then
    if idx ∈ kept then some (rank kept idx % 2 ^ 16) else none
  else some ((idx - oldLen + newLen) % 2 ^ 16)

/-- The new index of a constant; those that were pruned are `0`. -/
def remapConst (kept : Finset ℕ) (oldLen : ℕ) (idx : ℕ) : Option ℕ :=
  if idx < oldLen then some (if idx ∈ kept then rank kept idx % 2 ^ 16 else 0) else none

section

variable (function : ℕ → Option ℕ)

def remapConstant : Constant → Option Constant
  | .function idx => (function idx).map .function
  | c => some c

def remapInit : Option ℕ → Option (Option ℕ)
  | none => some none
  | some idx => (function idx).map some

def remapExport (slot : ExportSlot) : Option ExportSlot :=
  match slot.kind with
  | .function idx => (function idx).map fun idx => { slot with kind := .function idx }
  | .global _ => some slot

def remapInstruction (constant : ℕ → Option ℕ) : Instruction → Option Instruction
  | .loadConst dest constIdx => (constant constIdx).map (.loadConst dest)
  | .callMethod dest obj nameConst argsStart argCount argTypes returnType =>
    (constant nameConst).map fun nameConst =>
      .callMethod dest obj nameConst argsStart argCount argTypes returnType
  | .panic constIdx => (constant constIdx).map .panic
  | .call dest func argsStart argCount =>
    (function func).map fun func => .call dest func argsStart argCount
  | .createFuture dest func argsStart argCount argTypes returnType =>
    (function func).map fun func => .createFuture dest func argsStart argCount argTypes returnType
  | .tailCall func argsStart argCount =>
    (function func).map fun func => .tailCall func argsStart argCount
  | i => some i

def remapFunction (constant : ℕ → Option ℕ) (f : BytecodeFunction) : Option BytecodeFunction :=
  (f.instructions.mapM (remapInstruction function constant)).map fun instructions =>
    { f with instructions }

end

variable (passes : Passes)

def moduleNeedsPruning (module : BytecodeModule) (names : Finset String) : Bool :=
  let reachable := passes.collectReachableIndices module names
  reachable.1.card ≠ module.functions.length || reachable.2.card ≠ module.constants.length

def pruneModule (module : BytecodeModule) (names : Finset String) :
    Option (BytecodeModule × List (Option ℕ)) := do
  let reachable := passes.collectReachableIndices module names
  let functions := keep reachable.1 module.functions
  let function := remapFuncIdx reachable.1 module.functions.length functions.length
  let constant := remapConst reachable.2 module.constants.length
  let initFuncIdx ← remapInit function module.initFuncIdx
  let exports ← module.exports.mapM (remapExport function)
  let constants ← (keep reachable.2 module.constants).mapM (remapConstant function)
  let functions ← functions.mapM (remapFunction function constant)
  some ({ module with initFuncIdx, exports, constants, functions },
    (List.range module.functions.length).map fun idx =>
      if idx ∈ reachable.1 then some (rank reachable.1 idx % 2 ^ 16) else none)

def pruneNode (node : BytecodeNode) (names : Finset String) : Option BytecodeNode :=
  (pruneModule passes node.module names).map fun pruned =>
    { node with
      module := pruned.1
      metadata := node.metadata.map (·.remapFunctions pruned.2) }

def pruneIfNeeded (names : Finset String) (node : BytecodeNode) : Option BytecodeNode :=
  if moduleNeedsPruning passes node.module names then pruneNode passes node names
  else some node

end Prune

section Optimize

variable (passes : Passes)

/-- The functions of a node so far, whether one of them changed, and whether one of them
has another number of direct calls. -/
structure OptimizedFunctions where
  functions : List BytecodeFunction
  metadata : Option ExecutionMetadata
  changed : Bool
  callGraphChanged : Bool

def optimizeFunctionAt (s : OptimizedFunctions) (func : BytecodeFunction) :
    Option OptimizedFunctions :=
  (passes.optimizeFunction func).map fun optimized =>
    if optimized.1 = func then { s with functions := s.functions ++ [func] }
    else
      { functions := s.functions ++ [optimized.1]
        metadata := s.metadata.map
          (·.remapInstructionOffsets (s.functions.length % 2 ^ 16) optimized.2)
        changed := true
        callGraphChanged :=
          s.callGraphChanged || directCallCount func != directCallCount optimized.1 }

structure OptimizedNode where
  node : BytecodeNode
  changed : Bool
  callGraphChanged : Bool

def optimizeNode (names : Finset String) (node : BytecodeNode) : Option OptimizedNode := do
  let newNode ← pruneIfNeeded passes names node
  let s ← newNode.module.functions.foldlM (optimizeFunctionAt passes)
    ⟨[], newNode.metadata, moduleNeedsPruning passes node.module names, false⟩
  some ⟨{ newNode with
      module := { newNode.module with functions := s.functions }
      metadata := s.metadata }, s.changed, s.callGraphChanged⟩

def unchangedIn (finalized : BytecodeGraph) (node : BytecodeNode) : Bool :=
  match finalized.modules.lookup node.id with
  | some previous => sameNode previous node
  | none => false

def currentNode (changed : OrderedTable ModuleId BytecodeNode) (node : BytecodeNode) :
    BytecodeNode :=
  (changed.lookup node.id).getD node

def pruneAgain (names : Finset String) (changed : OrderedTable ModuleId BytecodeNode)
    (node : BytecodeNode) : Option (OrderedTable ModuleId BytecodeNode) :=
  let current := currentNode changed node
  if moduleNeedsPruning passes current.module names then
    (pruneNode passes current names).map fun pruned => changed.insert node.id pruned
  else some changed

/-- The second pass, made when the direct calls have changed. -/
def pruneAfterCalls (graph : BytecodeGraph) (callGraphChanged : Bool)
    (changed : OrderedTable ModuleId BytecodeNode) :
    Option (OrderedTable ModuleId BytecodeNode) :=
  if callGraphChanged then
    let names := globalMethodNames (graph.modules.values.map fun node =>
      (currentNode changed node).module)
    graph.modules.values.foldlM (pruneAgain passes names) changed
  else some changed

def changedNodes (graph finalized : BytecodeGraph) :
    Option (OrderedTable ModuleId BytecodeNode) := do
  let names := globalMethodNames (graph.modules.values.map (·.module))
  let optimized ← graph.modules.values.mapM (optimizeNode passes names)
  let changed : OrderedTable ModuleId BytecodeNode :=
    .ofList ((optimized.filter fun o => o.changed || !unchangedIn finalized o.node).map
      fun o => (o.node.id, o.node))
  let changed ← pruneAfterCalls passes graph (optimized.any (·.callGraphChanged)) changed
  some (.ofList (changed.entries.filter fun entry => !unchangedIn finalized entry.2))

inductive OptimizeError where
  | graph (e : BytecodeGraphTransactionError)
  | package (e : PackageValidationError)
  deriving DecidableEq, Repr

variable {σ π : Type} [LinearOrder σ] [LinearOrder π]

def optimizePackage (package : PackageImage σ π) (previousFinalized : Option (PackageImage σ π))
    (semanticRevision : ℕ) : Option (Except OptimizeError (PackageImage σ π)) := do
  let graph := package.graph
  let finalized := (previousFinalized.map (·.graph)).getD graph
  let changed ← changedNodes passes graph finalized
  let removed := (finalized.modules.values.filter fun node =>
    (graph.modules.lookup node.id).isNone).map (·.id)
  if changed.entries = [] ∧ removed = [] ∧ finalized.edges = graph.edges then
    some (.ok (previousFinalized.getD package))
  else
    match finalized.apply ⟨finalized.version, semanticRevision, changed.values, removed,
        graph.edges⟩ with
    | .error e => some (.error (.graph e))
    | .ok newGraph =>
      match PackageImage.tryNew newGraph package.target package.entryPoint package.metadata
          package.limits package.adapterRequirements package.providerRequirements with
      | .error e => some (.error (.package e))
      | .ok image => some (.ok image)

end Optimize

end Galfus.Package
