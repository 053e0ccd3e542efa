import Galfus.Graph.Search
import Galfus.Package.Resolver
import Mathlib.Data.Prod.Lex

/-! # Package images

A compiled graph together with its entry point and its external requirements. The function
signatures of the requirements are arbitrary ordered types.
-/

namespace Galfus.Package

variable {σ π : Type} [LinearOrder σ] [LinearOrder π]

structure PackageEntryPoint where
  modulePath : ModulePath
  functionName : String
  deriving DecidableEq, Repr

/-- What a package carries and no function reads: its metadata, its limits and the configuration
of an adapter, each as its encoding. -/
structure CarriedData where
  bytes : List (BitVec 8)
  deriving DecidableEq, Repr

abbrev ExecutionTarget := String

structure AdapterArtifact where
  contentHash : List (BitVec 8)
  sizeBytes : ℕ
  mediaType : String
  contentVersion : Version
  deriving DecidableEq, Repr

structure AdapterTarget where
  target : ExecutionTarget
  locator : String
  platform : String
  abi : String
  artifact : AdapterArtifact
  deriving DecidableEq, Repr

/-- A description of an adapter with exports of type `σ`. -/
structure AdapterModuleDescriptor (σ : Type) where
  adapter : String
  config : CarriedData
  targets : List AdapterTarget
  exports : List σ

structure AdapterModuleRequirement (σ : Type) where
  proxyModule : String
  descriptor : AdapterModuleDescriptor σ
  boundaryAbi : Version

structure ProviderModuleRequirement (π : Type) where
  aliasName : String
  modulePath : String
  schemaFingerprint : ℕ
  boundaryAbi : Version
  exports : List π

def AdapterTarget.key (t : AdapterTarget) : Lex (String × Lex (String × Lex (String × String))) :=
  toLex (t.target, toLex (t.platform, toLex (t.abi, t.locator)))

def AdapterModuleDescriptor.canonicalize (d : AdapterModuleDescriptor σ) :
    AdapterModuleDescriptor σ :=
  { d with
    exports := d.exports.insertionSort (· ≤ ·)
    targets := d.targets.insertionSort fun left right => left.key ≤ right.key }

def AdapterModuleRequirement.canonicalize (r : AdapterModuleRequirement σ) :
    AdapterModuleRequirement σ :=
  { r with descriptor := r.descriptor.canonicalize }

def ProviderModuleRequirement.canonicalize (r : ProviderModuleRequirement π) :
    ProviderModuleRequirement π :=
  { r with exports := r.exports.insertionSort (· ≤ ·) }

def CURRENT_PACKAGE_FORMAT_VERSION : Version := .new 2 0 0

def CURRENT_PRODUCER_VERSION : Version := .new 0 0 0

def CURRENT_BOUNDARY_ABI_VERSION : Version := .new 1 0 0

def CURRENT_NUMERIC_SEMANTICS_VERSION : Version := .new 1 0 0

structure PackageVersions where
  producer : Version
  packageFormat : Version
  bytecodeFormat : Version
  boundaryAbi : Version
  numericSemantics : Version
  deriving DecidableEq, Repr

def PackageVersions.forBytecode (bytecodeFormat : Version) : PackageVersions :=
  ⟨CURRENT_PRODUCER_VERSION, CURRENT_PACKAGE_FORMAT_VERSION, bytecodeFormat,
    CURRENT_BOUNDARY_ABI_VERSION, CURRENT_NUMERIC_SEMANTICS_VERSION⟩

structure PackageImage (σ π : Type) where
  graph : BytecodeGraph
  target : ExecutionTarget
  entryPoint : Option PackageEntryPoint
  metadata : CarriedData
  limits : CarriedData
  adapterRequirements : List (AdapterModuleRequirement σ)
  providerRequirements : List (ProviderModuleRequirement π)
  versions : PackageVersions

inductive PackageValidationError where
  | duplicateAdapterRequirement (proxyModule : String)
  | missingAdapterRequirement (proxyModule : String)
  | unexpectedAdapterRequirement (proxyModule : String)
  | duplicateProviderRequirement (modulePath : String)
  | duplicateProviderAlias (aliasName : String)
  deriving DecidableEq, Repr

inductive PackageDecodingError where
  | postcard
  | packageFormat (supported actual : Version)
  | bytecodeFormat (supported actual : Version)
  | graph (errors : List BytecodeGraphValidationError)
  | validation (e : PackageValidationError)
  | bytecodeFormatMismatch (declared actual : Version)
  deriving DecidableEq, Repr

abbrev TextSet := OrderedTable String Unit

namespace PackageImage

def noteDependency (f : Graph.Frontier ModuleId) (dependency : ModuleId) :
    Graph.Frontier ModuleId :=
  if dependency ∈ f.1 then f else (insert dependency f.1, dependency :: f.2)

def reachableLoop (graph : BytecodeGraph) : ℕ → Graph.Frontier ModuleId → Finset ModuleId
  | 0, f => f.1
  | fuel + 1, f =>
    match f.2 with
    | [] => f.1
    | moduleId :: pending =>
      reachableLoop graph fuel ((graph.depsOf moduleId).foldl noteDependency (f.1, pending))

variable (graph : BytecodeGraph)

/-- Every dependency is visited at most once. -/
def reachableModules (entry : ModuleId) : Finset ModuleId :=
  reachableLoop graph (graph.dependencies.values.flatten.length + 2) ({entry}, [entry])

def manifestModules (entryPoint : Option PackageEntryPoint) : Finset ModuleId :=
  match entryPoint with
  | some entryPoint =>
    match graph.modules.values.find? (·.path = entryPoint.modulePath) with
    | some entry => reachableModules graph entry.id
    | none => ∅
  | none => (graph.modules.values.map (·.id)).toFinset

def isProxy (path : ModulePath) : Bool := path.endsWith ".gfp"

/-- The paths of the proxies among the given modules that the graph has. -/
def reachableProxies (modules : Finset ModuleId) : TextSet :=
  .ofList ((((graph.modules.entries.filter (·.1 ∈ modules)).map (·.2.path)).filter isProxy).map
    fun path => (path, ()))

def insertDistinct {ε : Type} (e : String → ε) : TextSet → List String → Except ε TextSet
  | set, [] => .ok set
  | set, text :: rest =>
    if (set.lookup text).isSome then .error (e text)
    else insertDistinct e (set.insert text ()) rest

def validateAdapterRequirements (entryPoint : Option PackageEntryPoint)
    (adapterRequirements : List (AdapterModuleRequirement σ)) :
    Except PackageValidationError Unit :=
  match insertDistinct .duplicateAdapterRequirement .empty
      (adapterRequirements.map (·.proxyModule)) with
  | .error e => .error e
  | .ok declared =>
    let reachable := reachableProxies graph (manifestModules graph entryPoint)
    match reachable.keys.find? fun proxy => (declared.lookup proxy).isNone with
    | some proxy => .error (.missingAdapterRequirement proxy)
    | none =>
      match declared.keys.find? fun proxy => (reachable.lookup proxy).isNone with
      | some proxy => .error (.unexpectedAdapterRequirement proxy)
      | none => .ok ()

def checkProviders (paths aliases : TextSet) :
    List (ProviderModuleRequirement π) → Except PackageValidationError Unit
  | [] => .ok ()
  | requirement :: rest =>
    if (paths.lookup requirement.modulePath).isSome then
      .error (.duplicateProviderRequirement requirement.modulePath)
    else if (aliases.lookup requirement.aliasName).isSome then
      .error (.duplicateProviderAlias requirement.aliasName)
    else
      checkProviders (paths.insert requirement.modulePath ())
        (aliases.insert requirement.aliasName ()) rest

def validateProviderRequirements (providerRequirements : List (ProviderModuleRequirement π)) :
    Except PackageValidationError Unit :=
  checkProviders .empty .empty providerRequirements

def canonicalAdapters (requirements : List (AdapterModuleRequirement σ)) :
    List (AdapterModuleRequirement σ) :=
  (requirements.map AdapterModuleRequirement.canonicalize).insertionSort
    fun left right => left.proxyModule ≤ right.proxyModule

def canonicalProviders (requirements : List (ProviderModuleRequirement π)) :
    List (ProviderModuleRequirement π) :=
  (requirements.map ProviderModuleRequirement.canonicalize).insertionSort
    fun left right => left.modulePath < right.modulePath ∨
      left.modulePath = right.modulePath ∧ left.aliasName ≤ right.aliasName

def tryNew (target : ExecutionTarget) (entryPoint : Option PackageEntryPoint)
    (metadata limits : CarriedData)
    (adapterRequirements : List (AdapterModuleRequirement σ))
    (providerRequirements : List (ProviderModuleRequirement π)) :
    Except PackageValidationError (PackageImage σ π) :=
  let adapters := canonicalAdapters adapterRequirements
  let providers := canonicalProviders providerRequirements
  match validateAdapterRequirements graph entryPoint adapters with
  | .error e => .error e
  | .ok () =>
    match validateProviderRequirements providers with
    | .error e => .error e
    | .ok () => .ok ⟨graph, target, entryPoint, metadata, limits, adapters, providers,
        .forBytecode graph.formatVersion⟩

/-- `check_version_compatibility`: the major versions agree. -/
def compatible (supported actual : Version) : Bool := actual.major == supported.major

/-- `from_bytecode`, with the decoding of the bytes as a parameter. -/
def fromBytecode (parse : List (BitVec 8) → Option (PackageImage σ π)) (bytes : List (BitVec 8)) :
    Except PackageDecodingError (PackageImage σ π) :=
  match parse bytes with
  | none => .error .postcard
  | some package =>
    if !compatible CURRENT_PACKAGE_FORMAT_VERSION package.versions.packageFormat then
      .error (.packageFormat CURRENT_PACKAGE_FORMAT_VERSION package.versions.packageFormat)
    else if !compatible CURRENT_BYTECODE_FORMAT_VERSION package.graph.formatVersion then
      .error (.bytecodeFormat CURRENT_BYTECODE_FORMAT_VERSION package.graph.formatVersion)
    else if package.versions.bytecodeFormat ≠ package.graph.formatVersion then
      .error (.bytecodeFormatMismatch package.versions.bytecodeFormat package.graph.formatVersion)
    else
      match package.graph.rebuildTransientIndexes with
      | .error errors => .error (.graph errors)
      | .ok graph =>
        match validateAdapterRequirements graph package.entryPoint package.adapterRequirements with
        | .error e => .error (.validation e)
        | .ok () =>
          match validateProviderRequirements package.providerRequirements with
          | .error e => .error (.validation e)
          | .ok () => .ok { package with graph }

end PackageImage

end Galfus.Package
