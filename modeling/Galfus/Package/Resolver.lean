import Galfus.Graph.Topological
import Galfus.Package.Transactions

/-! # Import resolution and initialisation order

Each import slot of a module is resolved to an export of another module of the graph. Modules
are initialised after the modules that they import from.
-/

namespace Galfus.Package

open OrderedTable (keys mem_keys mem_values)

inductive ResolvedImportKind where
  | function (idx : ℕ)
  | global (idx : ℕ)
  deriving DecidableEq, Repr

structure ResolvedImport where
  slot : ℕ
  moduleId : ModuleId
  kind : ResolvedImportKind
  deriving DecidableEq, Repr

structure ModuleImports where
  moduleId : ModuleId
  imports : List ResolvedImport
  deriving DecidableEq, Repr

inductive GraphResolutionError where
  | moduleNotLoaded (moduleId : ModuleId)
  | importModuleNotLoaded (importer : ModuleId) (modulePath : String)
  | importSymbolNotExported (importer : ModuleId) (modulePath symbolName : String)
  | initializationCycle (moduleId : ModuleId)
  deriving DecidableEq, Repr

namespace BytecodeGraph

def resolveKind : ExportKind → ResolvedImportKind
  | .function idx => .function idx
  | .global idx => .global idx

/-- The target of one import slot. A path index that refers to no module is a panic. -/
def resolveImport (g : BytecodeGraph) (id : ModuleId) (slot : ℕ) (imp : ImportSlot) :
    Option (Except GraphResolutionError ResolvedImport) :=
  match (ModulePath.new imp.moduleName).bind g.idsByPath.lookup with
  | none => some (.error (.importModuleNotLoaded id imp.moduleName))
  | some moduleId =>
    match g.modules.lookup moduleId with
    | none => none
    | some target =>
      match ((g.exportIndexes.lookup moduleId).bind (·.lookup imp.symbolName)).bind
          (target.module.exports[·]?) with
      | none => some (.error (.importSymbolNotExported id imp.moduleName imp.symbolName))
      | some targetExport => some (.ok ⟨slot, moduleId, resolveKind targetExport.kind⟩)

def resolveSlots (g : BytecodeGraph) (id : ModuleId) :
    List (ImportSlot × ℕ) → Option (Except GraphResolutionError (List ResolvedImport))
  | [] => some (.ok [])
  | (imp, slot) :: rest =>
    match g.resolveImport id slot imp with
    | none => none
    | some (.error e) => some (.error e)
    | some (.ok resolved) =>
      match g.resolveSlots id rest with
      | some (.ok imports) => some (.ok (resolved :: imports))
      | r => r

section

variable (g : BytecodeGraph)

def resolveImports (id : ModuleId) : Option (Except GraphResolutionError ModuleImports) :=
  match g.modules.lookup id with
  | none => some (.error (.moduleNotLoaded id))
  | some image =>
    (g.resolveSlots id image.module.imports.zipIdx).map fun r => r.map fun imports => ⟨id, imports⟩

/-- `collect_initialization_order`: visit the modules that the import slots name, then the module
itself. -/
def collectInitializationOrder : ℕ → ModuleId → Graph.Traversal ModuleId →
      Option (Except GraphResolutionError (Graph.Traversal ModuleId)) :=
  Graph.visit (fun id => (g.resolveImports id).map fun r =>
    r.map fun resolved => resolved.imports.map (·.moduleId)) .initializationCycle

/-- The depth of the search is at most the number of modules. -/
def initializationOrder (id : ModuleId) : Option (Except GraphResolutionError (List ModuleId)) :=
  (g.collectInitializationOrder (g.modules.entries.length + 1) id ⟨[], ∅, ∅⟩).map fun r =>
    r.map fun s => s.order

/-- A slot of `m` names the path of `k`. -/
def Imports (m k : ModuleId) : Prop :=
  ∃ image, g.modules.lookup m = some image ∧ ∃ slot ∈ image.module.imports, ∃ target,
    g.modules.lookup k = some target ∧ ModulePath.new slot.moduleName = some target.path

def importedModules (id : ModuleId) : List ModuleId :=
  match g.modules.lookup id with
  | none => []
  | some image => image.module.imports.filterMap fun imp =>
      (ModulePath.new imp.moduleName).bind g.idsByPath.lookup

end

section Consistent

variable {g : BytecodeGraph} {id : ModuleId}

theorem mem_importedModules (hi : g.Indexed) {m k : ModuleId} :
    k ∈ g.importedModules m ↔ g.Imports m k := by
  unfold importedModules Imports
  cases g.modules.lookup m with
  | none => simp
  | some i =>
    simp only [List.mem_filterMap, Option.bind_eq_some_iff, hi.ids, Option.some.injEq,
      exists_eq_left']
    constructor
    · rintro ⟨s, hs, p, hp, t, ht, rfl⟩
      exact ⟨s, hs, t, ht, hp⟩
    · rintro ⟨s, hs, t, ht, hp⟩
      exact ⟨s, hs, _, hp, t, ht, rfl⟩

theorem lookup_validatedIds (h : OwnIds g.modules) (hi : g.Indexed) (p : ModulePath) :
    g.validatedIds.lookup p = g.idsByPath.lookup p := by
  ext id
  rw [hi.ids, validatedIds, lookup_checkNodes, AList.lookup_empty, Option.or_none,
    Option.map_eq_some_iff]
  constructor
  · rintro ⟨n, hf, rfl⟩
    obtain ⟨k, hk⟩ := mem_values.mp (List.mem_reverse.mp (List.mem_of_find?_eq_some hf))
    exact ⟨n, h k n hk ▸ hk, by simpa using List.find?_some hf⟩
  · rintro ⟨n, hn, rfl⟩
    have hs : (g.modules.values.reverse.find? (·.path = n.path)).isSome := by
      rw [List.find?_isSome]
      exact ⟨n, List.mem_reverse.mpr (mem_values.mpr ⟨id, hn⟩), by simp⟩
    obtain ⟨n', hf⟩ := Option.isSome_iff_exists.mp hs
    obtain ⟨k, hk⟩ := mem_values.mp (List.mem_reverse.mp (List.mem_of_find?_eq_some hf))
    have hp : n'.path = n.path := by simpa using List.find?_some hf
    have hid := (hi.ids n.path id).mpr ⟨n, hn, rfl⟩
    rw [(hi.ids n.path k).mpr ⟨n', hk, hp⟩] at hid
    exact ⟨n', hf, (h k n' hk).trans (Option.some.inj hid)⟩

theorem exists_lookup_export (hi : g.Indexed) {n : BytecodeNode}
    (hn : g.modules.lookup id = some n) {s : String}
    (h : n.module.exports.any (·.symbolName == s)) :
    ∃ sl, ((g.exportIndexes.lookup id).bind (·.lookup s)).bind (n.module.exports[·]?) =
      some sl := by
  let P (j : ℕ) : Prop := (n.module.exports.map (·.symbolName))[j]? = some s
  have hb {j : ℕ} (hj : P j) : j ≤ n.module.exports.length := by
    have := (List.getElem?_eq_some_iff.mp hj).1
    rw [List.length_map] at this
    omega
  obtain ⟨sl, hsl, hs⟩ := List.any_eq_true.mp h
  obtain ⟨j, hj⟩ := List.mem_iff_getElem?.mp (List.mem_map.mpr ⟨sl, hsl, beq_iff_eq.mp hs⟩ :
      s ∈ n.module.exports.map (·.symbolName))
  obtain ⟨l, hl, hm⟩ : ∃ l, P l ∧ ∀ j, P j → j ≤ l :=
    ⟨_, Nat.findGreatest_spec (hb hj) hj, fun j hj => Nat.le_findGreatest (hb hj) hj⟩
  have hid := (hi.exports id s l).mpr ⟨n, hn, hl, hm⟩
  simp only [P, List.getElem?_map, Option.map_eq_some_iff] at hl
  obtain ⟨s', hs', -⟩ := hl
  exact ⟨s', by rw [hid, Option.bind_some, hs']⟩

/-- A slot that passes validation is resolved to the module that its path names. -/
theorem resolveImport_ok (hid : OwnIds g.modules) (hi : g.Indexed) (n : ℕ)
    {i : ImportSlot} (h : g.checkImport g.validatedIds id i = []) :
    ∃ r, g.resolveImport id n i = some (.ok r) ∧
      (ModulePath.new i.moduleName).bind g.idsByPath.lookup = some r.moduleId := by
  unfold checkImport at h
  split at h
  · cases h
  next path hp =>
  split at h
  · cases h
  next dependency hd =>
  split at h
  · cases h
  next node hn =>
  split at h
  · next hep =>
    rw [lookup_validatedIds hid hi] at hd
    obtain ⟨s, hs⟩ := exists_lookup_export hi hn hep
    have hm : (ModulePath.new i.moduleName).bind g.idsByPath.lookup = some dependency := by
      rw [hp, Option.bind_some, hd]
    refine ⟨⟨n, dependency, resolveKind s.kind⟩, ?_, hm⟩
    simp only [resolveImport, hm, hn, hs]
  · cases h

theorem resolveSlots_ok (hid : OwnIds g.modules) (hi : g.Indexed) {ss : List (ImportSlot × ℕ)}
    (h : ∀ s ∈ ss, g.checkImport g.validatedIds id s.1 = []) :
    ∃ i, g.resolveSlots id ss = some (.ok i) ∧ i.map (·.moduleId) = ss.filterMap fun s =>
        (ModulePath.new s.1.moduleName).bind g.idsByPath.lookup := by
  induction ss with
  | nil => exact ⟨[], rfl, rfl⟩
  | cons s ss ih =>
    obtain ⟨hsl, hs⟩ := List.forall_mem_cons.mp h
    obtain ⟨i, hok, him⟩ := ih hs
    obtain ⟨r, hr, hm⟩ := resolveImport_ok hid hi s.2 hsl
    refine ⟨r :: i, ?_, ?_⟩
    · simp only [resolveSlots, hr, hok]
    · simp [him, hm]

theorem resolveImports_ok (h : OwnIds g.modules) (hid : g.Indexed)
    (hv : g.validate = .ok ()) {i : BytecodeNode}
    (hi : g.modules.lookup id = some i) :
    (g.resolveImports id).map (fun r => r.map fun rs => rs.imports.map (·.moduleId)) =
      some (.ok (g.importedModules id)) := by
  have hs : ∀ s ∈ i.module.imports.zipIdx, g.checkImport g.validatedIds id s.1 = [] := by
    intro s hsl
    have hmm := (validate_ok_iff.mp hv).2.2 i (mem_values.mpr ⟨id, hi⟩)
      s.1 (List.fst_mem_of_mem_zipIdx hsl)
    rwa [h id i hi] at hmm
  obtain ⟨im, hok, him⟩ := resolveSlots_ok h hid hs
  have hm : im.map (·.moduleId) = g.importedModules id := by
    simp only [him, importedModules, hi]
    conv_rhs => rw [← List.zipIdx_map_fst 0 i.module.imports, List.filterMap_map]
    rfl
  simp [resolveImports, hi, hok, Except.map, hm]

theorem importedModules_mem (hi : g.Indexed) {m k : ModuleId}
    (h : k ∈ g.importedModules m) : k ∈ g.modules.keys := by
  obtain ⟨-, -, -, -, t, ht, -⟩ := (mem_importedModules hi).mp h
  exact mem_keys.mpr ⟨t, ht⟩

theorem reaches_importedModules (hi : g.Indexed) (m k : ModuleId) :
    Graph.Reaches g.importedModules m k ↔ Relation.ReflTransGen g.Imports m k := by
  simp only [Graph.Reaches, mem_importedModules hi]

theorem leads_importedModules (hi : g.Indexed) (m k : ModuleId) :
    Graph.Leads g.importedModules m k ↔ Relation.TransGen g.Imports m k := by
  simp only [Graph.Leads, mem_importedModules hi]

end Consistent

/-- The initialisation order of a module has the modules that it reaches, each once and after those
that it imports from. The only error is a cycle, if a module on one can be reached. -/
theorem initializationOrder_spec (g : BytecodeGraph) (hids : OwnIds g.modules)
    (hindexed : g.Indexed) (hvalid : g.validate = .ok ()) (id : ModuleId)
    (hid : (g.modules.lookup id).isSome) :
    ((∃ order, g.initializationOrder id = some (.ok order) ∧ order.Nodup ∧
        (∃ l, order = l ++ [id]) ∧ (∀ m, m ∈ order ↔ Relation.ReflTransGen g.Imports id m) ∧
        ∀ l₁ m l₂, order = l₁ ++ m :: l₂ → ∀ k, g.Imports m k → k ∈ l₁) ∨
      ∃ m, g.initializationOrder id = some (.error (.initializationCycle m))) ∧
    ((∃ m, g.initializationOrder id = some (.error (.initializationCycle m))) ↔
      ∃ m, Relation.ReflTransGen g.Imports id m ∧ Relation.TransGen g.Imports m m) := by
  have hmm (n : ModuleId) : n ∈ g.modules.keys.toFinset ↔ ∃ a, g.modules.lookup n = some a := by
    rw [List.mem_toFinset, mem_keys]
  have hcr : g.modules.keys.toFinset.card < g.modules.entries.length + 1 := by
    have := List.toFinset_card_le g.modules.keys
    rw [keys, List.length_map] at this
    exact Nat.lt_succ_of_le this
  have hst := Graph.visit_start .initializationCycle
    (fun n hn => resolveImports_ok hids hindexed hvalid ((hmm n).mp hn).choose_spec)
    (fun n _ m hm => List.mem_toFinset.mpr (importedModules_mem hindexed hm))
    ((hmm id).mpr (Option.isSome_iff_exists.mp hid)) hcr
  simp only [reaches_importedModules hindexed, leads_importedModules hindexed, Graph.Topological,
    mem_importedModules hindexed] at hst
  rcases hst with ⟨s, hs, hnd, hls, hrc, htp, hac⟩ | ⟨m, hs, hm, hcy⟩
  · have hor : g.initializationOrder id = some (.ok s.order) := by
      rw [initializationOrder, collectInitializationOrder, hs]
      rfl
    refine ⟨.inl ⟨s.order, hor, hnd, hls, hrc, htp⟩, ?_⟩
    rw [hor]
    simpa using hac
  · have herror : g.initializationOrder id = some (.error (.initializationCycle m)) := by
      rw [initializationOrder, collectInitializationOrder, hs]
      rfl
    exact ⟨.inr ⟨m, herror⟩, fun _ => ⟨m, hm, hcy⟩, fun _ => ⟨m, herror⟩⟩

/-- A module that imports a global `x` from the module at `path`. -/
def importingNode (id : ModuleId) (path imported : ModulePath) : BytecodeNode :=
  ⟨id, path, 0, ⟨path, 1, [], [], [], [], [], [⟨imported, "x", 0, .global⟩],
    [⟨"x", .global 0⟩], none⟩, none⟩

def exportingNode (id : ModuleId) (path : ModulePath) : BytecodeNode :=
  ⟨id, path, 0, ⟨path, 1, [], [], [], [], [], [], [⟨"x", .global 0⟩], none⟩, none⟩

def importing : BytecodeGraphTransaction :=
  ⟨0, 0, [importingNode 1 "a.gfs" "./b.gfs", exportingNode 2 "b.gfs"], [], [⟨1, 2⟩]⟩

def importingGraph : BytecodeGraph := (new.apply importing).toOption.getD new

theorem apply_importing : new.apply importing = .ok importingGraph := by decide +kernel

theorem initializationOrder_spec_importing :
    importingGraph.initializationOrder 1 = some (.ok [2, 1]) ∧
      ¬∃ m, Relation.ReflTransGen importingGraph.Imports 1 m ∧
        Relation.TransGen importingGraph.Imports m m := by
  have ho : importingGraph.initializationOrder 1 = some (.ok [2, 1]) := by decide +kernel
  have hec := Exact.of_apply (Reachable.empty _).ownIds apply_importing
  refine ⟨ho, fun hc => ?_⟩
  obtain ⟨m, hm⟩ := (initializationOrder_spec importingGraph hec.ownIds hec.indexed
    (by decide +kernel) 1 (by decide +kernel)).2.mpr hc
  rw [ho] at hm
  simp at hm

end BytecodeGraph

end Galfus.Package
