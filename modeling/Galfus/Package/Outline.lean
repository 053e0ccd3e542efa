import Galfus.Package.Changes
import Galfus.Package.Manifest

/-! # What the checks read of the modules

The requirements of a package are checked against the ids, the paths and the edges of the
modules. The validation of a graph does not read the values of the constants.
-/

namespace Galfus.Package

section Adapters

open PackageImage

variable {σ : Type}

def outline (modules : OrderedTable ModuleId BytecodeNode) :
    OrderedTable ModuleId (ModuleId × ModulePath) :=
  modules.mapValues fun n => (n.id, n.path)

variable {g g' : BytecodeGraph}

theorem reachableProxies_eq (g : BytecodeGraph) (modules : Finset ModuleId) :
    reachableProxies g modules = .ofList (((((outline g.modules).entries.filter
      (·.1 ∈ modules)).map (·.2.2)).filter isProxy).map fun p => (p, ())) := by
  have hp : (g.modules.entries.filter (·.1 ∈ modules)).map (·.2.path) =
      ((outline g.modules).entries.filter (·.1 ∈ modules)).map (·.2.2) := by
    rw [outline, OrderedTable.mapValues, List.filter_map, List.map_map]
    rfl
  rw [reachableProxies, hp]

theorem find?_path (g : BytecodeGraph) (p : ModulePath) :
    (g.modules.values.find? (·.path = p)).map (·.id) =
      ((outline g.modules).values.find? (·.2 = p)).map (·.1) := by
  rw [outline, OrderedTable.values_mapValues, List.find?_map, Option.map_map]
  rfl

theorem reachableModules_congr (h : g.dependencies = g'.dependencies) (e : ModuleId) :
    reachableModules g e = reachableModules g' e := by
  ext x
  rw [mem_reachableModules, mem_reachableModules]
  unfold BytecodeGraph.depsOf
  rw [h]

section

variable (hs : outline g.modules = outline g'.modules)
  (h : g.dependencies = g'.dependencies) (ep : Option PackageEntryPoint)
include hs h

theorem manifestModules_congr : manifestModules g ep = manifestModules g' ep := by
  have hi (g : BytecodeGraph) :
      g.modules.values.map (·.id) = (outline g.modules).values.map (·.1) := by
    rw [outline, OrderedTable.values_mapValues, List.map_map]
    rfl
  cases ep with
  | none => rw [manifestModules, manifestModules, hi, hi, hs]
  | some ep =>
    have hf := find?_path g ep.modulePath
    rw [hs, ← find?_path] at hf
    simp only [manifestModules]
    cases hg : g.modules.values.find? (·.path = ep.modulePath) with
    | none =>
      rw [hg, Option.map_none, eq_comm, Option.map_eq_none_iff] at hf
      rw [hf]
    | some e =>
      rw [hg, Option.map_some, eq_comm, Option.map_eq_some_iff] at hf
      obtain ⟨e', hen', hid⟩ := hf
      rw [hen']
      dsimp only
      rw [hid, reachableModules_congr h]

/-- The requirements are checked against the ids, the paths and the dependencies. -/
theorem validateAdapterRequirements_congr (rs : List (AdapterModuleRequirement σ)) :
    validateAdapterRequirements g ep rs = validateAdapterRequirements g' ep rs := by
  unfold validateAdapterRequirements
  rw [reachableProxies_eq, reachableProxies_eq, hs, manifestModules_congr hs h]

end

end Adapters

section Requirements

open PackageImage

variable {σ π : Type} [LinearOrder σ] [LinearOrder π]

instance : Std.Total fun left right : AdapterTarget => left.key ≤ right.key :=
  ⟨fun a b => le_total a.key b.key⟩

instance : IsTrans AdapterTarget fun left right => left.key ≤ right.key :=
  ⟨fun _ _ _ => le_trans⟩

instance : Std.Total fun left right : AdapterModuleRequirement σ =>
    left.proxyModule ≤ right.proxyModule :=
  ⟨fun a b => le_total a.proxyModule b.proxyModule⟩

instance : IsTrans (AdapterModuleRequirement σ) fun left right =>
    left.proxyModule ≤ right.proxyModule :=
  ⟨fun _ _ _ => le_trans⟩

section

variable {α : Type} (r : α → α → Prop) [DecidableRel r] [Std.Total r] [IsTrans α r]

theorem insertionSort_insertionSort (l : List α) :
    (l.insertionSort r).insertionSort r = l.insertionSort r :=
  (List.pairwise_insertionSort r l).insertionSort_eq

theorem sort_map_canonical {c : α → α} (hc : ∀ a, c (c a) = c a) (l : List α) :
    (((l.map c).insertionSort r).map c).insertionSort r = (l.map c).insertionSort r := by
  have hm : ((l.map c).insertionSort r).map c = (l.map c).insertionSort r := by
    refine (List.map_congr_left fun a ha => ?_).trans (List.map_id _)
    obtain ⟨b, -, rfl⟩ := List.mem_map.mp ((List.mem_insertionSort r).mp ha)
    exact hc b
  rw [hm, insertionSort_insertionSort]

end

theorem canonicalAdapters_canonicalAdapters (rs : List (AdapterModuleRequirement σ)) :
    canonicalAdapters (canonicalAdapters rs) = canonicalAdapters rs := by
  refine sort_map_canonical _ (fun r => ?_) rs
  simp only [AdapterModuleRequirement.canonicalize, AdapterModuleDescriptor.canonicalize,
    insertionSort_insertionSort]

theorem canonicalProviders_canonicalProviders (rs : List (ProviderModuleRequirement π)) :
    canonicalProviders (canonicalProviders rs) = canonicalProviders rs := by
  refine sort_map_canonical _ (fun r => ?_) rs
  simp only [ProviderModuleRequirement.canonicalize, insertionSort_insertionSort]

theorem tryNew_eq_ok {g : BytecodeGraph} {t : ExecutionTarget}
    {entryPoint : Option PackageEntryPoint} {m ls : CarriedData}
    {a : List (AdapterModuleRequirement σ)}
    {ps : List (ProviderModuleRequirement π)} {p : PackageImage σ π} :
    tryNew g t entryPoint m ls a ps = .ok p ↔
      validateAdapterRequirements g entryPoint (canonicalAdapters a) = .ok () ∧
        validateProviderRequirements (canonicalProviders ps) = .ok () ∧
        p = ⟨g, t, entryPoint, m, ls, canonicalAdapters a,
          canonicalProviders ps, .forBytecode g.formatVersion⟩ := by
  unfold tryNew
  dsimp only
  cases validateAdapterRequirements g entryPoint (canonicalAdapters a) with
  | error e => simp
  | ok _ =>
    cases validateProviderRequirements (canonicalProviders ps) with
    | error e => simp
    | ok _ => simp [eq_comm]

end Requirements

section Blank

def blankModule (m : BytecodeModule) : BytecodeModule :=
  { m with constants := m.constants.map fun _ => .bool false }

def blankNode (n : BytecodeNode) : BytecodeNode := { n with module := blankModule n.module }

def blank (g : BytecodeGraph) : BytecodeGraph :=
  { g with modules := g.modules.mapValues blankNode }

theorem validateBytecodeModule_blank (m : BytecodeModule) :
    validateBytecodeModule (blankModule m) = validateBytecodeModule m := by
  have hc : Validation.checkConst (blankModule m) = Validation.checkConst m := by
    funext func instrIdx idx
    rw [Validation.checkConst, Validation.checkConst, blankModule, List.length_map]
  have hi : Validation.checkInstruction (blankModule m) = Validation.checkInstruction m := by
    funext func instrIdx i
    cases i <;> simp only [Validation.checkInstruction, hc] <;> rfl
  have hf : Validation.checkFunction (blankModule m) = Validation.checkFunction m := by
    funext func
    rw [Validation.checkFunction, Validation.checkFunction, hi]
  rw [validateBytecodeModule, hf]
  rfl

theorem blankNode_eq_of_sameNode {n n' : BytecodeNode} (h : sameNode n n') :
    blankNode n = blankNode n' := by
  obtain ⟨hc, hr⟩ := sameNode_iff.mp h
  have hl := length_eq_of_sameConstants hc
  have hb : (n.module.constants.map fun _ => Constant.bool false) =
      n'.module.constants.map fun _ => Constant.bool false := by
    rw [List.map_const', List.map_const', hl]
  have := congrArg (fun r : BytecodeNode => { r with module := { r.module with
    constants := n'.module.constants.map fun _ => Constant.bool false } }) hr
  rw [blankNode, blankModule, hb]
  exact this

open BytecodeGraph

variable (g : BytecodeGraph)

theorem checkGlobals_blank (n : BytecodeNode) :
    (blank g).checkGlobals (blankNode n) = g.checkGlobals n := by
  have hg : (blank g).checkGlobal = g.checkGlobal := by
    funext id owner globalIdx
    rw [checkGlobal, checkGlobal, blank, OrderedTable.lookup_mapValues]
    cases g.modules.lookup owner <;> rfl
  rw [checkGlobals, hg]
  rfl

theorem checkNode_blank (s : Table ModulePath ModuleId × List BytecodeGraphValidationError)
    (n : BytecodeNode) : (blank g).checkNode s (blankNode n) = g.checkNode s n := by
  have hm : invalidModule (blankNode n) = invalidModule n := by
    rw [invalidModule, blankNode, validateBytecodeModule_blank]
    rfl
  rw [checkNode, checkGlobals_blank, hm]
  rfl

theorem checkImport_blank : (blank g).checkImport = g.checkImport := by
  funext idsByPath importer slot
  simp only [checkImport, blank, OrderedTable.lookup_mapValues]
  cases ModulePath.new slot.moduleName with
  | none => rfl
  | some p =>
    dsimp only
    cases idsByPath.lookup p with
    | none => rfl
    | some d =>
      dsimp only
      cases g.modules.lookup d <;> rfl

/-- Validation does not read the values of the constants. -/
theorem validate_blank : (blank g).validate = g.validate := by
  have hn : (blank g).modules.values.foldl (blank g).checkNode (∅, []) =
      g.modules.values.foldl g.checkNode (∅, []) := by
    rw [blank, OrderedTable.values_mapValues, List.foldl_map]
    exact congrArg (fun f => List.foldl f (∅, []) g.modules.values) (funext₂ (checkNode_blank g))
  have hed : (blank g).checkEdge = g.checkEdge := by
    funext edge
    simp [checkEdge, blank]
  have hes : (blank g).validationErrors = g.validationErrors := by
    simp only [validationErrors, hn, hed, checkImport_blank]
    simp only [blank, OrderedTable.values_mapValues, List.flatMap_map]
    rfl
  rw [validate, validate, hes]

end Blank

end Galfus.Package
