import Galfus.Bytecode.Validation
import Galfus.Table.Basic
import Galfus.Table.Ordered
import Galfus.Table.Sorted
import Mathlib.Data.String.Basic

/-! # The bytecode graph

Compiled modules with the edges between them, and the transactions that lead from one
snapshot of the graph to the next. The indexes are rebuilt from the modules and the edges.
-/

namespace Galfus.Package

abbrev ModuleId := ℕ

abbrev ModulePath := String

namespace ModulePath

/-- Drop empty and `.` segments, and let `..` take back the segment before it. -/
def normalize : List (List Char) → List (List Char) → Option (List (List Char))
  | segments, [] => some segments
  | segments, segment :: rest =>
    if segment = [] ∨ segment = ['.'] then normalize segments rest
    else if segment = ['.', '.'] then
      if segments = [] then none else normalize segments.dropLast rest
    else normalize (segments ++ [segment]) rest

def new (path : String) : Option ModulePath :=
  if '\x00' ∈ path.toList then none
  else
    (normalize [] (path.toList.splitOnP fun c => c == '/' || c == '\\')).bind fun segments =>
      let normalized := String.ofList (List.intercalate ['/'] segments)
      if normalized.endsWith ".gfs" || normalized.endsWith ".gfp" then some normalized else none

end ModulePath

structure DebugLocation where
  start : ℕ
  stop : ℕ
  deriving DecidableEq, Repr

structure ExecutionMetadata where
  spans : OrderedTable ℕ (OrderedTable ℕ DebugLocation)
  deriving DecidableEq

structure BytecodeNode where
  id : ModuleId
  path : ModulePath
  semanticRevision : ℕ
  module : BytecodeModule
  metadata : Option ExecutionMetadata
  deriving DecidableEq

structure ImportEdge where
  src : ModuleId
  dst : ModuleId
  deriving DecidableEq, Repr

structure BytecodeGraphTransaction where
  baseVersion : UInt64
  semanticRevision : ℕ
  upsertedModules : List BytecodeNode
  removedModules : List ModuleId
  edges : List ImportEdge

inductive BytecodeGraphValidationError where
  | invalidModule (moduleId : ModuleId) (errors : List BytecodeValidationError)
  | duplicateModulePath (path : ModulePath) (first second : ModuleId)
  | missingDependencyModule (src dst : ModuleId)
  | missingGlobalModule (importer owner : ModuleId)
  | globalIndexOutOfBounds (importer owner : ModuleId) (globalIdx globalCount : ℕ)
  | invalidImportPath (importer : ModuleId) (modulePath : String)
  | missingImportedModule (importer : ModuleId) (modulePath : String)
  | missingIndexedImportedModule (importer : ModuleId) (modulePath : String) (dependency : ModuleId)
  | missingImportedExport (importer : ModuleId) (modulePath symbolName : String)
  deriving DecidableEq, Repr

inductive BytecodeGraphTransactionError where
  | staleBaseVersion (expected actual : UInt64)
  | duplicateRemovedModule (moduleId : ModuleId)
  | duplicateUpsertedModule (moduleId : ModuleId)
  | duplicateUpsertedModulePath (path : ModulePath) (first second : ModuleId)
  | conflictingModuleOperations (moduleId : ModuleId)
  | retainedModulePathConflict (path : ModulePath) (existing upserted : ModuleId)
  | invalidGraph (errors : List BytecodeGraphValidationError)
  deriving DecidableEq, Repr

structure Version where
  major : ℕ
  minor : ℕ
  patch : ℕ
  tagLen : ℕ
  tagBytes : List (BitVec 8)
  deriving DecidableEq, Repr

def Version.new (major minor patch : ℕ) : Version :=
  ⟨major, minor, patch, 0, List.replicate 16 0⟩

def CURRENT_BYTECODE_FORMAT_VERSION : Version := .new 2 1 0

structure BytecodeGraph where
  version : UInt64
  formatVersion : Version
  modules : OrderedTable ModuleId BytecodeNode
  idsByPath : OrderedTable ModulePath ModuleId
  edges : List ImportEdge
  dependencies : OrderedTable ModuleId (List ModuleId)
  dependents : OrderedTable ModuleId (List ModuleId)
  exportIndexes : OrderedTable ModuleId (OrderedTable String ℕ)
  deriving DecidableEq

namespace BytecodeGraph

def withFormatVersion (formatVersion : Version) : BytecodeGraph :=
  ⟨0, formatVersion, .empty, .empty, [], .empty, .empty, .empty⟩

def new : BytecodeGraph := withFormatVersion CURRENT_BYTECODE_FORMAT_VERSION

/-- `sort_by_key(|edge| (edge.from.raw(), edge.to.raw()))`. -/
def sortEdges (edges : List ImportEdge) : List ImportEdge :=
  edges.insertionSort fun e e' => e.src < e'.src ∨ e.src = e'.src ∧ e.dst ≤ e'.dst

def adjacencyIndex (edges : List ImportEdge) (endpoints : ImportEdge → ModuleId × ModuleId) :
    OrderedTable ModuleId (List ModuleId) :=
  edges.foldl (fun index edge =>
    index.insert (endpoints edge).1
      ((index.lookup (endpoints edge).1).getD [] ++ [(endpoints edge).2])) .empty

def exportIndex (module : BytecodeModule) : OrderedTable String ℕ :=
  .ofList (module.exports.zipIdx.map fun e => (e.1.symbolName, e.2))

section Validate

def duplicatePath (idsByPath : Table ModulePath ModuleId) (node : BytecodeNode) :
    List BytecodeGraphValidationError :=
  match idsByPath.lookup node.path with
  | some first => if first = node.id then [] else [.duplicateModulePath node.path first node.id]
  | none => []

def invalidModule (node : BytecodeNode) : List BytecodeGraphValidationError :=
  match validateBytecodeModule node.module with
  | .ok () => []
  | .error errors => [.invalidModule node.id errors]

def ownerGlobal : Instruction → Option (ModuleId × ℕ)
  | .loadGlobal _ moduleId globalIdx | .storeGlobal moduleId globalIdx _ =>
    some (moduleId, globalIdx)
  | _ => none

variable (g : BytecodeGraph)

/-- The access of a module to a global of `owner`. -/
def checkGlobal (id : ModuleId) (owner : ModuleId) (globalIdx : ℕ) :
    List BytecodeGraphValidationError :=
  match g.modules.lookup owner with
  | some ownerNode =>
    if ownerNode.module.globalCount ≤ globalIdx then
      [.globalIndexOutOfBounds id owner globalIdx ownerNode.module.globalCount]
    else if owner ≠ id ∧ !ownerNode.module.exports.any (·.kind == .global globalIdx) then
      [.missingImportedExport id ownerNode.path s!"global_{globalIdx}"]
    else []
  | none => [.missingGlobalModule id owner]

def checkGlobals (node : BytecodeNode) : List BytecodeGraphValidationError :=
  node.module.functions.flatMap fun function => function.instructions.flatMap fun instruction =>
    match ownerGlobal instruction with
    | some (owner, globalIdx) => g.checkGlobal node.id owner globalIdx
    | none => []

def checkNode (state : Table ModulePath ModuleId × List BytecodeGraphValidationError)
    (node : BytecodeNode) : Table ModulePath ModuleId × List BytecodeGraphValidationError :=
  (state.1.insert node.path node.id,
    state.2 ++ duplicatePath state.1 node ++ invalidModule node ++ g.checkGlobals node)

def checkEdge (edge : ImportEdge) : List BytecodeGraphValidationError :=
  if (g.modules.lookup edge.src).isSome ∧ (g.modules.lookup edge.dst).isSome then []
  else [.missingDependencyModule edge.src edge.dst]

def checkImport (idsByPath : Table ModulePath ModuleId) (importer : ModuleId)
    (slot : ImportSlot) : List BytecodeGraphValidationError :=
  match ModulePath.new slot.moduleName with
  | none => [.invalidImportPath importer slot.moduleName]
  | some path =>
    match idsByPath.lookup path with
    | none => [.missingImportedModule importer slot.moduleName]
    | some dependency =>
      match g.modules.lookup dependency with
      | none => [.missingIndexedImportedModule importer slot.moduleName dependency]
      | some dependencyNode =>
        if dependencyNode.module.exports.any (·.symbolName == slot.symbolName) then []
        else [.missingImportedExport importer slot.moduleName slot.symbolName]

def sortImports (imports : List ImportSlot) : List ImportSlot :=
  imports.insertionSort fun left right =>
    left.moduleName < right.moduleName ∨
      left.moduleName = right.moduleName ∧ left.symbolName ≤ right.symbolName

def validationErrors : List BytecodeGraphValidationError :=
  let nodes := g.modules.values.foldl g.checkNode (∅, [])
  nodes.2 ++ (sortEdges g.edges).flatMap g.checkEdge ++ g.modules.values.flatMap fun node =>
      (sortImports node.module.imports).flatMap (g.checkImport nodes.1 node.id)

def validate : Except (List BytecodeGraphValidationError) Unit :=
  if g.validationErrors.isEmpty then .ok () else .error g.validationErrors

end Validate

/-- The indexes as they follow from the modules and the edges. -/
def reindex (g : BytecodeGraph) : BytecodeGraph :=
  let edges := sortEdges g.edges
  { g with
    idsByPath := .ofList (g.modules.entries.map fun entry => (entry.2.path, entry.1))
    edges
    dependencies := adjacencyIndex edges fun edge => (edge.src, edge.dst)
    dependents := adjacencyIndex edges fun edge => (edge.dst, edge.src)
    exportIndexes := .ofList (g.modules.entries.map fun entry =>
      (entry.1, exportIndex entry.2.module)) }

def rebuildTransientIndexes (g : BytecodeGraph) :
    Except (List BytecodeGraphValidationError) BytecodeGraph :=
  match g.reindex.validate with
  | .ok () => .ok g.reindex
  | .error errors => .error errors

/-- The conflict of an upserted module with the present owner of its path. -/
def pathConflict (g : BytecodeGraph) (removed : List ModuleId) (module : BytecodeNode) :
    Option BytecodeGraphTransactionError :=
  match g.modules.values.find? (·.path = module.path) with
  | some existing =>
    if existing.id ≠ module.id ∧ existing.id ∉ removed then
      some (.retainedModulePathConflict module.path existing.id module.id)
    else none
  | none => none

def rejectSome {α ε : Type} (found : Option α) (e : α → ε) : Except ε Unit :=
  match found with
  | some a => .error (e a)
  | none => .ok ()

section

variable (g : BytecodeGraph)

def validateTransaction (transaction : BytecodeGraphTransaction) :
    Except BytecodeGraphTransactionError Unit := do
  let removed := transaction.removedModules.insertionSort (· ≤ ·)
  rejectSome (equalNeighbours id removed) fun pair => .duplicateRemovedModule pair.1
  let byId := transaction.upsertedModules.insertionSort fun left right => left.id ≤ right.id
  rejectSome (equalNeighbours BytecodeNode.id byId) fun pair =>
    .duplicateUpsertedModule pair.1.id
  rejectSome ((byId.map BytecodeNode.id).find? (· ∈ removed)) .conflictingModuleOperations
  let byPath := transaction.upsertedModules.insertionSort fun left right =>
    left.path < right.path ∨ left.path = right.path ∧ left.id ≤ right.id
  rejectSome (equalNeighbours BytecodeNode.path byPath) fun pair =>
    .duplicateUpsertedModulePath pair.1.path pair.1.id pair.2.id
  rejectSome (byPath.findSome? (g.pathConflict removed)) id

def removeModule (id : ModuleId) : BytecodeGraph :=
  match g.modules.lookup id with
  | some node => { g with modules := g.modules.erase id, idsByPath := g.idsByPath.erase node.path }
  | none => g

def upsertModule (node : BytecodeNode) : BytecodeGraph :=
  let idsByPath := match g.modules.lookup node.id with
    | some previous => g.idsByPath.erase previous.path
    | none => g.idsByPath
  { g with
    modules := g.modules.insert node.id node
    idsByPath := idsByPath.insert node.path node.id }

def apply (transaction : BytecodeGraphTransaction) :
    Except BytecodeGraphTransactionError BytecodeGraph :=
  if transaction.baseVersion ≠ g.version then
    .error (.staleBaseVersion transaction.baseVersion g.version)
  else
    match g.validateTransaction transaction with
    | .error e => .error e
    | .ok () =>
      let next := transaction.upsertedModules.foldl upsertModule
        (transaction.removedModules.foldl removeModule g)
      match { next with edges := sortEdges transaction.edges }.rebuildTransientIndexes with
      | .error errors => .error (.invalidGraph errors)
      | .ok next => .ok { next with version := next.version + 1 }

def depsOf (id : ModuleId) : List ModuleId :=
  (g.dependencies.lookup id).getD []

end

end BytecodeGraph

end Galfus.Package
