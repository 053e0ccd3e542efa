import Galfus.Package.Outline

/-! # Incremental publication

Publication with a package that was published before, against publication from scratch.
-/

namespace Galfus.Package

open Option (bind_eq_bind eq_none_iff_forall_ne_some isSome_of_eq_some map_map map_none map_some)
open OrderedTable (lookup_mapValues ext_lookup mem_values lookup_eq_some)
open BytecodeGraph (twoModuleGraph dependencies sortEdges)

section Snapshots

open BytecodeGraph

variable {g n : BytecodeGraph} {t : BytecodeGraphTransaction}

theorem formatVersion_removeModules (i : List ModuleId) (g : BytecodeGraph) :
    (i.foldl removeModule g).formatVersion = g.formatVersion := by
  induction i generalizing g with
  | nil => rfl
  | cons id i ih =>
    rw [List.foldl_cons, ih, removeModule]
    split <;> rfl

theorem formatVersion_upsertModules (ns : List BytecodeNode) (g : BytecodeGraph) :
    (ns.foldl upsertModule g).formatVersion = g.formatVersion := by
  induction ns generalizing g with
  | nil => rfl
  | cons n ns ih => exact ih _

/-- The snapshot of a graph with the given modules and edges. -/
def snapshot (version : UInt64) (formatVersion : Version)
    (modules : OrderedTable ModuleId BytecodeNode) (edges : List ImportEdge) : BytecodeGraph :=
  { withFormatVersion formatVersion with version, modules, edges }.reindex

theorem eq_snapshot_of_apply (h : g.apply t = .ok n) :
    n = snapshot (g.version + 1) g.formatVersion (g.describedModules t) t.edges := by
  obtain ⟨-, -, -, rfl⟩ := apply_eq_ok.mp h
  have hm : (g.changed t).modules = g.describedModules t := upsertModules_removeModules
  have hv : (g.changed t).version = g.version := by
    rw [changed, version_upsertModules, version_removeModules]
  have hf : (g.changed t).formatVersion = g.formatVersion := by
    rw [changed, formatVersion_upsertModules, formatVersion_removeModules]
  have hed : sortEdges (g.changed t).edges = sortEdges t.edges := sortEdges_sortEdges _
  simp [snapshot, withFormatVersion, reindex, hm, hv, hf, hed]

/-- A graph is determined by its modules, its edges and its versions. -/
theorem BytecodeGraph.Reachable.eq_snapshot (hg : Reachable g) :
    g = snapshot g.version g.formatVersion g.modules g.edges := by
  cases hg with
  | empty _ => rfl
  | apply _ h =>
    obtain rfl := eq_snapshot_of_apply h
    simp [snapshot, withFormatVersion, reindex, sortEdges_sortEdges]

theorem BytecodeGraph.Reachable.validate (hg : Reachable g) : g.validate = .ok () := by
  cases hg with
  | empty _ => rfl
  | apply _ h =>
    obtain ⟨-, -, hv, rfl⟩ := apply_eq_ok.mp h
    exact hv

end Snapshots

section Diff

open BytecodeGraph

/-- The optimised modules of a graph, and those that differ from the finalised ones. -/
structure Diff (graph finalized : BytecodeGraph)
    (modules changed : OrderedTable ModuleId BytecodeNode) : Prop where
  ownIds : OwnIds graph.modules
  paths : DistinctPaths graph.modules
  finalizedIds : OwnIds finalized.modules
  finalizedPaths : DistinctPaths finalized.modules
  optimized : ∀ id g, graph.modules.lookup id = some g → ∃ n, modules.lookup id = some n
  derives : ∀ id n, modules.lookup id = some n → ∃ g, graph.modules.lookup id = some g ∧ Derives g n
  changed : ∀ id n, changed.lookup id = some n ↔
    modules.lookup id = some n ∧ unchangedIn finalized n = false

def removedModules (graph finalized : BytecodeGraph) : List ModuleId :=
  (finalized.modules.values.filter fun node =>
    (graph.modules.lookup node.id).isNone).map (·.id)

def publication (graph finalized : BytecodeGraph) (changed : OrderedTable ModuleId BytecodeNode)
    (semanticRevision : ℕ) : BytecodeGraphTransaction :=
  ⟨finalized.version, semanticRevision, changed.values, removedModules graph finalized, graph.edges⟩

/-- The finalised node, if the new one compares equal to it. -/
def settle (finalized : BytecodeGraph) (node : BytecodeNode) : BytecodeNode :=
  match finalized.modules.lookup node.id with
  | some previous => if sameNode previous node then previous else node
  | none => node

variable {graph finalized : BytecodeGraph} {modules c : OrderedTable ModuleId BytecodeNode}
  {semanticRevision : ℕ}

theorem settle_eq_self {n : BytecodeNode} (h : unchangedIn finalized n = false) :
    settle finalized n = n := by
  cases hp : finalized.modules.lookup n.id with
  | none => simp only [settle, hp]
  | some previous =>
    simp only [unchangedIn, hp] at h
    simp [settle, hp, h]

theorem lookup_of_unchangedIn {n : BytecodeNode} (h : unchangedIn finalized n = true) :
    ∃ o, finalized.modules.lookup n.id = some o ∧ sameNode o n ∧ settle finalized n = o := by
  cases hp : finalized.modules.lookup n.id with
  | none => simp [unchangedIn, hp] at h
  | some previous =>
    simp only [unchangedIn, hp] at h
    refine ⟨previous, rfl, h, ?_⟩
    simp only [settle, hp]
    exact if_pos h

theorem blankNode_settle (n : BytecodeNode) : blankNode (settle finalized n) = blankNode n := by
  cases h : unchangedIn finalized n with
  | false => rw [settle_eq_self h]
  | true =>
    obtain ⟨o, -, hs, heq⟩ := lookup_of_unchangedIn h
    rw [heq]
    exact blankNode_eq_of_sameNode hs

theorem settle_eq_self_iff (finalized : BytecodeGraph) (hi : BytecodeGraph.OwnIds modules) :
    modules.mapValues (settle finalized) = modules ↔
      ∀ id o n, finalized.modules.lookup id = some o → modules.lookup id = some n →
        sameNode o n → o = n := by
  constructor
  · intro heq id o n hd hn hs
    have hl := congrArg (OrderedTable.lookup · id) heq
    simp only [lookup_mapValues, hn, map_some, Option.some.injEq, settle,
      hi id n hn, hd, hs, if_true] at hl
    exact hl
  · intro h
    refine ext_lookup fun id => ?_
    rw [lookup_mapValues]
    cases hn : modules.lookup id with
    | none => rfl
    | some n =>
      rw [map_some, Option.some.injEq]
      cases hu : unchangedIn finalized n with
      | false => exact settle_eq_self hu
      | true =>
        obtain ⟨o, hd, hs, heq⟩ := lookup_of_unchangedIn hu
        rw [heq, h id o n (hi id n hn ▸ hd) hn hs]

theorem validate_settle (graph finalized : BytecodeGraph)
    (modules : OrderedTable ModuleId BytecodeNode) :
    { graph with modules := modules.mapValues (settle finalized) }.validate = .ok () ↔
      { graph with modules }.validate = .ok () := by
  rw [← validate_blank, ← validate_blank { graph with modules }]
  refine validate_congr (ext_lookup fun id => ?_) fun e => Iff.rfl
  simp only [blank, lookup_mapValues, map_map]
  exact congrArg (fun f => Option.map f (modules.lookup id)) (funext blankNode_settle)

namespace Diff

variable (d : Diff graph finalized modules c)
include d

theorem modulesIds : OwnIds modules := by
  intro id n hn
  obtain ⟨g, hg, hd⟩ := d.derives id n hn
  exact hd.id.trans (d.ownIds id g hg)

theorem lookup_none {id : ModuleId} (hn : modules.lookup id = none) :
    graph.modules.lookup id = none := by
  rw [eq_none_iff_forall_ne_some]
  intro g hg
  obtain ⟨n, hn'⟩ := d.optimized id g hg
  rw [hn'] at hn
  cases hn

theorem mem_upserted {n : BytecodeNode} :
    n ∈ (publication graph finalized c semanticRevision).upsertedModules ↔
      modules.lookup n.id = some n ∧ unchangedIn finalized n = false := by
  rw [← d.changed]
  refine OrderedTable.mem_values.trans ⟨?_, fun h => ⟨_, h⟩⟩
  rintro ⟨id, h⟩
  rwa [d.modulesIds id n ((d.changed id n).mp h).1]

theorem mem_removed {id : ModuleId} : id ∈ removedModules graph finalized ↔
    (finalized.modules.lookup id).isSome ∧ graph.modules.lookup id = none := by
  simp only [removedModules, List.mem_map, List.mem_filter, Option.isNone_iff_eq_none]
  constructor
  · rintro ⟨n, ⟨hn, hnn⟩, rfl⟩
    obtain ⟨id, hid⟩ := OrderedTable.mem_values.mp hn
    rw [d.finalizedIds id n hid] at hnn ⊢
    exact ⟨by rw [hid]; rfl, hnn⟩
  · rintro ⟨hs, hnn⟩
    obtain ⟨n, hn⟩ := Option.isSome_iff_exists.mp hs
    have hid := d.finalizedIds id n hn
    exact ⟨n, ⟨OrderedTable.mem_values.mpr ⟨id, hn⟩, hid ▸ hnn⟩, hid⟩

theorem nodup_upserted :
    ((publication graph finalized c semanticRevision).upsertedModules.map (·.id)).Nodup :=
  nodup_ids fun id n hn => d.modulesIds id n ((d.changed id n).mp hn).1

theorem not_mem_removed {n : BytecodeNode} (hn : modules.lookup n.id = some n) :
    n.id ∉ removedModules graph finalized := by
  intro hr
  obtain ⟨g, hg, -⟩ := d.derives n.id n hn
  rw [(d.mem_removed.mp hr).2] at hg
  cases hg

theorem describedModules_publication :
    finalized.describedModules (publication graph finalized c semanticRevision) =
      modules.mapValues (settle finalized) := by
  refine ext_lookup fun id => ?_
  rw [lookup_mapValues]
  cases hn : modules.lookup id with
  | none =>
    rw [map_none, eq_none_iff_forall_ne_some]
    intro n hds
    rcases describedModules_cases hds with ⟨hup, rfl⟩ | ⟨h, hrt⟩
    · rw [(d.mem_upserted.mp hup).1] at hn
      cases hn
    · exact hrt (d.mem_removed.mpr ⟨isSome_of_eq_some h, d.lookup_none hn⟩)
  | some n =>
    obtain rfl := d.modulesIds id n hn
    rw [map_some]
    cases hun : unchangedIn finalized n with
    | false =>
      rw [settle_eq_self hun]
      exact lookup_describedModules_upserted d.nodup_upserted (d.mem_upserted.mpr ⟨hn, hun⟩)
    | true =>
      obtain ⟨o, h, -, heq⟩ := lookup_of_unchangedIn hun
      rw [heq]
      refine lookup_describedModules_retained h (d.not_mem_removed hn) fun hup => ?_
      obtain ⟨n', hn', hid⟩ := List.mem_map.mp hup
      obtain ⟨hlk, hdf⟩ := d.mem_upserted.mp hn'
      rw [hid, hn, Option.some.injEq] at hlk
      rw [← hlk, hun] at hdf
      cases hdf

theorem acceptable_iff : finalized.Acceptable (publication graph finalized c semanticRevision) ↔
      { graph with modules }.validate = .ok () := by
  have hv : (finalized.described
      (publication graph finalized c semanticRevision)).validate = .ok () ↔
        { graph with modules }.validate = .ok () := by
    rw [← validate_settle graph finalized modules]
    exact validate_congr d.describedModules_publication fun e => Iff.rfl
  rw [← hv]
  refine ⟨fun h => h.valid, fun h => ⟨rfl, ?_, d.nodup_upserted, ?_, ?_, h⟩⟩
  · exact (nodup_ids d.finalizedIds).sublist (List.filter_sublist.map _)
  · exact fun n hn => d.not_mem_removed (d.mem_upserted.mp hn).1
  · exact distinctPaths_of_validate (g := finalized.described _) d.finalizedIds.described h

end Diff

/-- A module gets the path that another module of the graph has in the finalised graph. -/
def MovesPath (graph finalized : BytecodeGraph) : Prop :=
  ∃ a b n old, a ≠ b ∧ graph.modules.lookup a = some n ∧ (graph.modules.lookup b).isSome ∧
    finalized.modules.lookup b = some old ∧ old.path = n.path

namespace Diff

variable (d : Diff graph finalized modules c)
include d

theorem takesMovedPath_iff :
    finalized.TakesMovedPath (publication graph finalized c semanticRevision) ↔
      MovesPath graph finalized := by
  constructor
  · rintro ⟨n, hn, m, hm, hne, o, h, hpt⟩
    obtain ⟨g, hg, hdr⟩ := d.derives _ _ (d.mem_upserted.mp hn).1
    obtain ⟨g', hg', -⟩ := d.derives _ _ (d.mem_upserted.mp hm).1
    exact ⟨n.id, m.id, g, o, hne.symm, hg, isSome_of_eq_some hg', h, hpt.trans hdr.path⟩
  · rintro ⟨a, b, g, o, hne, hg, hb, h, hpt⟩
    obtain ⟨g', hg'⟩ := Option.isSome_iff_exists.mp hb
    obtain ⟨n, hn⟩ := d.optimized a g hg
    obtain ⟨m, hm⟩ := d.optimized b g' hg'
    obtain rfl := d.modulesIds a n hn
    obtain rfl := d.modulesIds b m hm
    obtain ⟨_, hg₁, hdr⟩ := d.derives _ _ hn
    obtain rfl := Option.some.inj (hg.symm.trans hg₁)
    obtain ⟨_, hg₂, hdr'⟩ := d.derives _ _ hm
    obtain rfl := Option.some.inj (hg'.symm.trans hg₂)
    have hnC : unchangedIn finalized n = false := by
      by_contra hun
      obtain ⟨o', hol', hsm, -⟩ :=
        lookup_of_unchangedIn (Bool.eq_true_of_not_eq_false hun)
      refine hne (d.finalizedPaths _ _ _ _ hol' h ?_)
      rw [path_eq_of_sameNode hsm, hdr.path, hpt]
    have hmC : unchangedIn finalized m = false := by
      by_contra hun
      obtain ⟨o', hol', hsm, -⟩ :=
        lookup_of_unchangedIn (Bool.eq_true_of_not_eq_false hun)
      obtain rfl := Option.some.inj (h.symm.trans hol')
      refine hne (d.paths _ _ _ _ hg hg' ?_)
      rw [← hpt, path_eq_of_sameNode hsm, hdr'.path]
    exact ⟨n, d.mem_upserted.mpr ⟨hn, hnC⟩, m, d.mem_upserted.mpr ⟨hm, hmC⟩,
      hne.symm, o, h, hpt.trans hdr.path.symm⟩

end Diff

/-- The modules and the edges of the graph are those of the finalised graph, as far as modules
compare equal. -/
def Unchanged (graph finalized : BytecodeGraph) (modules : OrderedTable ModuleId BytecodeNode) :
    Prop :=
  (∀ id n, modules.lookup id = some n → unchangedIn finalized n) ∧
    (∀ id, (finalized.modules.lookup id).isSome → (graph.modules.lookup id).isSome) ∧
    finalized.edges = graph.edges

namespace Diff

variable (d : Diff graph finalized modules c)
include d

theorem unchanged_iff : (c.entries = [] ∧ removedModules graph finalized = [] ∧
    finalized.edges = graph.edges) ↔ Unchanged graph finalized modules := by
  have hc : c.entries = [] ↔ ∀ id n, modules.lookup id = some n → unchangedIn finalized n := by
    rw [List.eq_nil_iff_forall_not_mem]
    constructor
    · intro h id n hn
      by_contra hd
      have hl := (d.changed id n).mpr ⟨hn, Bool.eq_false_of_not_eq_true hd⟩
      exact h _ (OrderedTable.lookup_eq_some.mp hl)
    · intro h e he
      obtain ⟨hn, hd⟩ := (d.changed e.1 e.2).mp (OrderedTable.lookup_eq_some.mpr he)
      rw [h e.1 e.2 hn] at hd
      cases hd
  have hr : removedModules graph finalized = [] ↔
      ∀ id, (finalized.modules.lookup id).isSome → (graph.modules.lookup id).isSome := by
    rw [List.eq_nil_iff_forall_not_mem]
    refine forall_congr' fun id => ?_
    rw [d.mem_removed, not_and, ← ne_eq, Option.ne_none_iff_isSome]
  rw [hc, hr]
  rfl

theorem outline_settle :
    outline (modules.mapValues (settle finalized)) = outline graph.modules := by
  refine ext_lookup fun id => ?_
  simp only [outline, lookup_mapValues, map_map]
  cases hn : modules.lookup id with
  | none =>
    rw [d.lookup_none hn]
    rfl
  | some n =>
    obtain ⟨g, hg, hd⟩ := d.derives id n hn
    rw [hg, map_some, map_some, Function.comp_apply, ← hd.id, ← hd.path]
    cases hu : unchangedIn finalized n with
    | false => rw [settle_eq_self hu]
    | true =>
      obtain ⟨o, h, hs, heq⟩ := lookup_of_unchangedIn hu
      rw [heq, d.finalizedIds _ _ h, path_eq_of_sameNode hs]

end Diff

end Diff

section Packages

open PackageImage

variable {σ π : Type} [LinearOrder σ] [LinearOrder π]

structure Built (p : PackageImage σ π) : Prop where
  graph : p.graph.Reachable
  format : p.graph.formatVersion = CURRENT_BYTECODE_FORMAT_VERSION
  image : ∃ adapters providers, tryNew p.graph p.target p.entryPoint p.metadata p.limits adapters
    providers = .ok p

/-- The packages that publication leads to. -/
inductive Finalized (passes : Passes) : PackageImage σ π → Prop
  | scratch {p q : PackageImage σ π} {semanticRevision : ℕ} (hp : Built p)
      (h : optimizePackage passes p none semanticRevision = some (.ok q)) : Finalized passes q
  | incremental {p previous q : PackageImage σ π} {semanticRevision : ℕ} (hp : Built p)
      (hprevious : Finalized passes previous)
      (h : optimizePackage passes p (some previous) semanticRevision = some (.ok q)) :
      Finalized passes q

variable {passes : Passes} {p q x : PackageImage σ π} {previous : Option (PackageImage σ π)}
  {semanticRevision : ℕ} {modules : OrderedTable ModuleId BytecodeNode}

/-- The requirements of a package fit every graph with the same ids, paths and dependencies. -/
theorem Built.tryNew_graph (hp : Built p) {g : BytecodeGraph}
    (hm : outline g.modules = outline p.graph.modules)
    (hd : g.dependencies = p.graph.dependencies)
    (hf : g.formatVersion = p.graph.formatVersion) :
    tryNew g p.target p.entryPoint p.metadata p.limits p.adapterRequirements
      p.providerRequirements = .ok { p with graph := g } := by
  obtain ⟨a, ps, hi⟩ := hp.image
  obtain ⟨ha, hpr, heq⟩ := tryNew_eq_ok.mp hi
  have hc : p.adapterRequirements = canonicalAdapters a :=
    congrArg PackageImage.adapterRequirements heq
  have hc' : p.providerRequirements = canonicalProviders ps :=
    congrArg PackageImage.providerRequirements heq
  have hv : p.versions = .forBytecode p.graph.formatVersion :=
    congrArg PackageImage.versions heq
  rw [tryNew_eq_ok, hc, hc', canonicalAdapters_canonicalAdapters,
    canonicalProviders_canonicalProviders, hf, ← hv, ← hc, ← hc',
    validateAdapterRequirements_congr hm hd]
  rw [← hc] at ha
  rw [← hc'] at hpr
  exact ⟨ha, hpr, rfl⟩

theorem exists_diff {graph finalized : BytecodeGraph} (hg : graph.Reachable)
    (hf : finalized.Reachable) (h : optimizedModules passes graph = some modules) :
    ∃ changed, changedNodes passes graph finalized = some changed ∧
      Diff graph finalized modules changed := by
  cases hc : changedNodes passes graph finalized with
  | none =>
    rw [changedNodes_eq_none hg.ownIds hc] at h
    cases h
  | some changed =>
    obtain ⟨ms', h', hs⟩ := changedNodes_eq_some hg.ownIds hc
    obtain rfl := Option.some.inj (h.symm.trans h')
    obtain ⟨ho, hd⟩ := lookup_optimizedModules hg.ownIds h
    exact ⟨changed, rfl, hg.ownIds, hg.distinctPaths, hf.ownIds, hf.distinctPaths, ho, hd, hs⟩

def republish (p : PackageImage σ π) (version : UInt64)
    (modules : OrderedTable ModuleId BytecodeNode) : PackageImage σ π :=
  { p with graph := snapshot version p.graph.formatVersion modules p.graph.edges }

def finalizedGraph (p : PackageImage σ π) (previous : Option (PackageImage σ π)) : BytecodeGraph :=
  (previous.map (·.graph)).getD p.graph

theorem optimizePackage_eq_none (hp : Built p) (h : optimizedModules passes p.graph = none) :
    optimizePackage passes p previous semanticRevision = none := by
  have hc : changedNodes passes p.graph (finalizedGraph p previous) = none := by
    rw [eq_none_iff_forall_ne_some]
    intro changed hc
    obtain ⟨modules, hm, -⟩ := changedNodes_eq_some hp.graph.ownIds hc
    rw [h] at hm
    cases hm
  simp only [optimizePackage, bind_eq_bind]
  rw [← finalizedGraph, hc]
  rfl

theorem optimizePackage_unchanged (previous : Option (PackageImage σ π)) (hp : Built p)
    (hf : (finalizedGraph p previous).Reachable)
    (h : optimizedModules passes p.graph = some modules)
    (hs : Unchanged p.graph (finalizedGraph p previous) modules) :
    optimizePackage passes p previous semanticRevision = some (.ok (previous.getD p)) := by
  obtain ⟨changed, hc, d⟩ := exists_diff hp.graph hf h
  simp only [optimizePackage, bind_eq_bind]
  rw [← finalizedGraph, hc]
  exact if_pos (d.unchanged_iff.mpr hs)

theorem optimizePackage_changed (previous : Option (PackageImage σ π)) (hp : Built p)
    (hfn : (finalizedGraph p previous).Reachable)
    (hfr : (finalizedGraph p previous).formatVersion = p.graph.formatVersion)
    (h : optimizedModules passes p.graph = some modules)
    (hdf : ¬Unchanged p.graph (finalizedGraph p previous) modules) :
    optimizePackage passes p previous semanticRevision = some (.ok x) ↔
      { p.graph with modules }.validate = .ok () ∧ ¬MovesPath p.graph (finalizedGraph p previous) ∧
        x = republish p ((finalizedGraph p previous).version + 1)
          (modules.mapValues (settle (finalizedGraph p previous))) := by
  obtain ⟨changed, hch, d⟩ := exists_diff hp.graph hfn h
  have hap := BytecodeGraph.exists_apply_iff hfn.ownIds hfn.distinctPaths
    (t := publication p.graph (finalizedGraph p previous) changed semanticRevision)
  rw [d.acceptable_iff, d.takesMovedPath_iff] at hap
  simp only [optimizePackage, bind_eq_bind]
  rw [← finalizedGraph, hch, Option.bind_some, ← removedModules,
    if_neg fun hsm => hdf (d.unchanged_iff.mp hsm), ← publication, ← and_assoc, ← hap]
  cases hg : (finalizedGraph p previous).apply
      (publication p.graph (finalizedGraph p previous) changed semanticRevision) with
  | error e => simp
  | ok g =>
    have hsn := eq_snapshot_of_apply hg
    rw [d.describedModules_publication, hfr] at hsn
    have hdp : g.dependencies = p.graph.dependencies := by
      rw [hsn]
      exact (congrArg dependencies hp.graph.eq_snapshot).symm
    have hmd : outline g.modules = outline p.graph.modules := by
      rw [hsn]
      exact d.outline_settle
    have hnw := hp.tryNew_graph hmd hdp (by rw [hsn]; rfl)
    rw [hsn] at hnw ⊢
    dsimp only
    rw [hnw]
    constructor
    · rintro ⟨⟩
      exact ⟨⟨_, rfl⟩, rfl⟩
    · rintro ⟨-, rfl⟩
      rfl

/-- Optimisation settles every module with respect to its own graph. -/
theorem settle_optimized (hp : Built p) (h : optimizedModules passes p.graph = some modules) :
    modules.mapValues (settle p.graph) = modules := by
  obtain ⟨changed, -, d⟩ := exists_diff hp.graph hp.graph h
  refine (settle_eq_self_iff p.graph d.modulesIds).mpr fun id o n hl hn hs => ?_
  obtain ⟨g, hg, hd⟩ := d.derives id n hn
  obtain rfl := Option.some.inj (hl.symm.trans hg)
  exact hd.eq_of_same hs

theorem not_movesPath_self {g : BytecodeGraph} (hg : g.Reachable) : ¬MovesPath g g := by
  rintro ⟨a, b, n, o, hne, hn, -, h, hp⟩
  exact hne (hg.distinctPaths a b n o hn h hp.symm)

/-- With the modules and edges of the finalised graph there is nothing to settle. -/
theorem modules_eq_of_unchanged {graph finalized : BytecodeGraph}
    {changed : OrderedTable ModuleId BytecodeNode} (d : Diff graph finalized modules changed)
    (hs : Unchanged graph finalized modules) :
    finalized.modules = modules.mapValues (settle finalized) := by
  refine ext_lookup fun id => ?_
  rw [lookup_mapValues]
  cases hn : modules.lookup id with
  | none =>
    rw [map_none, eq_none_iff_forall_ne_some]
    intro o h
    have hsm := hs.2.1 id (isSome_of_eq_some h)
    rw [d.lookup_none hn] at hsm
    cases hsm
  | some n =>
    obtain ⟨o, h, -, heq⟩ := lookup_of_unchangedIn (hs.1 id n hn)
    rw [d.modulesIds id n hn] at h
    rw [map_some, heq, h]

theorem optimizePackage_scratch (semanticRevision : ℕ) (hp : Built p)
    (h : optimizedModules passes p.graph = some modules) :
    ∃ v, ∀ x, optimizePackage passes p none semanticRevision = some (.ok x) ↔
      { p.graph with modules }.validate = .ok () ∧ x = republish p v modules := by
  by_cases hs : Unchanged p.graph p.graph modules
  · obtain ⟨changed, -, d⟩ := exists_diff hp.graph hp.graph h
    have hm := modules_eq_of_unchanged d hs
    rw [settle_optimized hp h] at hm
    subst hm
    refine ⟨p.graph.version, fun x => ?_⟩
    rw [optimizePackage_unchanged none hp hp.graph h hs, republish, ← hp.graph.eq_snapshot]
    constructor
    · rintro ⟨⟩
      exact ⟨hp.graph.validate, rfl⟩
    · rintro ⟨-, rfl⟩
      rfl
  · refine ⟨p.graph.version + 1, fun x => ?_⟩
    rw [optimizePackage_changed none hp hp.graph rfl h hs]
    change _ ∧ ¬MovesPath p.graph p.graph ∧
      x = republish p (p.graph.version + 1) (modules.mapValues (settle p.graph)) ↔ _
    rw [settle_optimized hp h, and_iff_right (not_movesPath_self hp.graph)]

theorem built_of_optimizePackage (hp : Built p) (hpr : ∀ r ∈ previous, Built r)
    (h : optimizePackage passes p previous semanticRevision = some (.ok x)) : Built x := by
  have hf : (finalizedGraph p previous).Reachable ∧
      (finalizedGraph p previous).formatVersion = CURRENT_BYTECODE_FORMAT_VERSION := by
    cases previous with
    | none => exact ⟨hp.graph, hp.format⟩
    | some r => exact ⟨(hpr r rfl).graph, (hpr r rfl).format⟩
  simp only [optimizePackage, bind_eq_bind, Option.bind_eq_some_iff] at h
  obtain ⟨changed, -, h⟩ := h
  split at h
  · cases h
    cases previous with
    | none => exact hp
    | some r => exact hpr r rfl
  split at h
  · cases h
  next g hg =>
  split at h
  · cases h
  next image hi =>
  cases h
  obtain ⟨-, -, rfl⟩ := tryNew_eq_ok.mp hi
  refine ⟨.apply hf.1 hg, ?_, _, _, hi⟩
  rw [eq_snapshot_of_apply hg]
  exact hf.2

theorem Finalized.built (hq : Finalized passes q) : Built q := by
  induction hq with
  | scratch hp h => exact built_of_optimizePackage hp (fun _ hr => by cases hr) h
  | incremental hp _ h ih =>
    refine built_of_optimizePackage hp (fun r hr => ?_) h
    obtain rfl := Option.some.inj hr
    exact ih

end Packages

section Incremental

open PackageImage

variable {σ π : Type} [LinearOrder σ] [LinearOrder π] {c : OrderedTable ModuleId BytecodeNode}

/-- Both publications succeed or none does, and their packages are the same up to the version of
the graph. -/
def SamePublication (x y : Option (Except OptimizeError (PackageImage σ π))) : Prop :=
  ((∃ a, x = some (.ok a)) ↔ ∃ b, y = some (.ok b)) ∧ ∀ a b, x = some (.ok a) → y = some (.ok b) →
      a = { b with graph := { b.graph with version := a.graph.version } }

/-- The packages agree apart from their graphs. -/
def SameData (p q : PackageImage σ π) : Prop :=
  q.target = p.target ∧ q.entryPoint = p.entryPoint ∧ q.metadata = p.metadata ∧
    q.limits = p.limits ∧ q.adapterRequirements = p.adapterRequirements ∧
    q.providerRequirements = p.providerRequirements

/-- If the optimised modules are valid, then no path moves between modules, no module compares equal
to a different published one, and the rest of the package changes only together with its modules or
edges. -/
def RepublishableModules (p q : PackageImage σ π) (modules : OrderedTable ModuleId BytecodeNode) :
    Prop :=
  { p.graph with modules }.validate = .ok () → ¬MovesPath p.graph q.graph ∧
    (∀ id old n, q.graph.modules.lookup id = some old → modules.lookup id = some n →
      sameNode old n → old = n) ∧
    (Unchanged p.graph q.graph modules → SameData p q)

def Republishable (passes : Passes) (p q : PackageImage σ π) : Prop :=
  ∀ modules, optimizedModules passes p.graph = some modules → RepublishableModules p q modules

variable {passes : Passes} {p q : PackageImage σ π} {semanticRevision : ℕ}
  {modules : OrderedTable ModuleId BytecodeNode}

omit [LinearOrder σ] [LinearOrder π] in
theorem republishable_iff (h : optimizedModules passes p.graph = some modules) :
    Republishable passes p q ↔ RepublishableModules p q modules := by
  constructor
  · exact fun hr => hr modules h
  · intro hm ms' h'
    obtain rfl := Option.some.inj (h.symm.trans h')
    exact hm

theorem Built.versions (hp : Built p) :
    p.versions = .forBytecode CURRENT_BYTECODE_FORMAT_VERSION := by
  obtain ⟨a, ps, hi⟩ := hp.image
  obtain ⟨-, -, heq⟩ := tryNew_eq_ok.mp hi
  rw [← hp.format]
  exact congrArg PackageImage.versions heq

theorem eq_republish_iff (hp : Built p) (hq : Built q) : q = republish p q.graph.version modules ↔
      q.graph.modules = modules ∧ q.graph.edges = p.graph.edges ∧ SameData p q := by
  have hed : p.graph.edges = sortEdges p.graph.edges :=
    congrArg BytecodeGraph.edges hp.graph.eq_snapshot
  constructor
  · intro heq
    refine ⟨congrArg (·.graph.modules) heq, (congrArg (·.graph.edges) heq).trans hed.symm,
      congrArg (·.target) heq, congrArg (·.entryPoint) heq, congrArg (·.metadata) heq,
      congrArg (·.limits) heq, congrArg (·.adapterRequirements) heq,
      congrArg (·.providerRequirements) heq⟩
  · rintro ⟨hmd, hed', ht, hen, hm, hl, ha, hpr⟩
    have hg : q.graph = snapshot q.graph.version p.graph.formatVersion modules p.graph.edges := by
      rw [hp.format, ← hq.format, ← hmd, ← hed']
      exact hq.graph.eq_snapshot
    have hv : q.versions = p.versions := hq.versions.trans hp.versions.symm
    rw [republish, ← hg, ← ht, ← hen, ← hm, ← hl, ← ha, ← hpr, ← hv]

theorem validate_of_unchanged {graph finalized : BytecodeGraph}
    (d : Diff graph finalized modules c) (hf : finalized.Reachable)
    (hs : Unchanged graph finalized modules) : { graph with modules }.validate = .ok () := by
  rw [← validate_settle graph finalized, ← modules_eq_of_unchanged d hs]
  refine (BytecodeGraph.validate_congr ?_ fun e => ?_).mp hf.validate
  · rfl
  · rw [hs.2.2]

theorem not_movesPath_of_unchanged {graph finalized : BytecodeGraph}
    (d : Diff graph finalized modules c) (hs : Unchanged graph finalized modules) :
    ¬MovesPath graph finalized := by
  intro hm
  obtain ⟨n, hn, -⟩ : finalized.TakesMovedPath (publication graph finalized c 0) :=
    d.takesMovedPath_iff.mpr hm
  obtain ⟨hl, hd⟩ := d.mem_upserted.mp hn
  rw [hs.1 _ n hl] at hd
  cases hd

omit [LinearOrder σ] [LinearOrder π] in
theorem samePublication_iff {x y : Option (Except OptimizeError (PackageImage σ π))} {A B : Prop}
    {a b : PackageImage σ π} (hx : ∀ c, x = some (.ok c) ↔ A ∧ c = a)
    (hy : ∀ c, y = some (.ok c) ↔ B ∧ c = b) :
    SamePublication x y ↔ (A ↔ B) ∧
      (A → B → a = { b with graph := { b.graph with version := a.graph.version } }) := by
  unfold SamePublication
  simp only [hx, hy, exists_and_left, exists_eq, and_true]
  refine and_congr_right fun _ => ⟨fun h hA hB => h a b ⟨hA, rfl⟩ ⟨hB, rfl⟩, ?_⟩
  rintro h _ _ ⟨hA, rfl⟩ ⟨hB, rfl⟩
  exact h hA hB

theorem samePublication_unchanged (hp : Built p) (hq : Built q)
    (h : optimizedModules passes p.graph = some modules)
    (hsm : Unchanged p.graph q.graph modules) :
    SamePublication (optimizePackage passes p (some q) semanticRevision)
      (optimizePackage passes p none semanticRevision) ↔ RepublishableModules p q modules := by
  obtain ⟨v, hsc⟩ := optimizePackage_scratch semanticRevision hp h
  obtain ⟨c, -, d⟩ := exists_diff hp.graph hq.graph h
  have hvl := validate_of_unchanged d hq.graph hsm
  have hic (x : PackageImage σ π) :
      optimizePackage passes p (some q) semanticRevision = some (.ok x) ↔ True ∧ x = q := by
    rw [optimizePackage_unchanged (some q) hp hq.graph h hsm]
    simp [eq_comm]
  have hst : q.graph.modules = modules ↔ ∀ id o n, q.graph.modules.lookup id = some o →
      modules.lookup id = some n → sameNode o n → o = n := by
    rw [← settle_eq_self_iff q.graph d.modulesIds, ← modules_eq_of_unchanged d hsm]
  rw [samePublication_iff hic hsc]
  constructor
  · rintro ⟨-, heq⟩ -
    obtain ⟨hmd, -, hdt⟩ := (eq_republish_iff hp hq).mp (heq trivial hvl)
    exact ⟨not_movesPath_of_unchanged d hsm, hst.mp hmd, fun _ => hdt⟩
  · intro hmd
    obtain ⟨-, heq, hdt⟩ := hmd hvl
    refine ⟨iff_of_true trivial hvl, fun _ _ => ?_⟩
    exact (eq_republish_iff hp hq).mpr ⟨hst.mpr heq, hsm.2.2, hdt hsm⟩

theorem samePublication_changed (hp : Built p) (hq : Built q)
    (h : optimizedModules passes p.graph = some modules)
    (hdf : ¬Unchanged p.graph q.graph modules) :
    SamePublication (optimizePackage passes p (some q) semanticRevision)
      (optimizePackage passes p none semanticRevision) ↔ RepublishableModules p q modules := by
  obtain ⟨v, hsc⟩ := optimizePackage_scratch semanticRevision hp h
  obtain ⟨c, -, d⟩ := exists_diff hp.graph hq.graph h
  have hst := settle_eq_self_iff q.graph d.modulesIds
  rw [samePublication_iff (fun _ => (optimizePackage_changed (some q) hp hq.graph
    (hq.format.trans hp.format.symm) h hdf).trans and_assoc.symm) hsc]
  constructor
  · rintro ⟨hi, heq⟩ hvl
    obtain ⟨-, hpt⟩ := hi.mpr hvl
    have hmd := congrArg (·.graph.modules) (heq ⟨hvl, hpt⟩ hvl)
    exact ⟨hpt, hst.mp hmd, fun hsm => absurd hsm hdf⟩
  · intro hmd
    refine ⟨⟨And.left, fun hvl => ⟨hvl, (hmd hvl).1⟩⟩, fun _ hvl => ?_⟩
    have heq : modules.mapValues (settle q.graph) = modules :=
      hst.mpr (hmd hvl).2.1
    simp only [finalizedGraph, map_some, Option.getD_some, heq]
    rfl

/-- Incremental publication gives what publication from scratch gives if and only if the package
is republishable. -/
theorem optimizePackage_incremental (passes : Passes) (p q : PackageImage σ π) (hp : Built p)
    (hq : Finalized passes q) (semanticRevision : ℕ) :
    SamePublication (optimizePackage passes p (some q) semanticRevision)
      (optimizePackage passes p none semanticRevision) ↔ Republishable passes p q := by
  obtain h | ⟨modules, h⟩ := (optimizedModules passes p.graph).eq_none_or_eq_some
  · rw [optimizePackage_eq_none hp h, optimizePackage_eq_none hp h]
    refine ⟨fun _ modules hm => ?_, fun _ => ⟨Iff.rfl, fun a b ha => ?_⟩⟩
    · rw [h] at hm
      cases hm
    · cases ha
  · rw [republishable_iff h]
    by_cases hs : Unchanged p.graph q.graph modules
    · exact samePublication_unchanged hp hq.built h hs
    · exact samePublication_changed hp hq.built h hs

end Incremental

def plainPasses : Passes :=
  ⟨fun module _ => (.range module.functions.length, .range module.constants.length),
    fun func => some (func, [])⟩

def twoModulePackage (target : ExecutionTarget) : PackageImage ℕ ℕ where
  graph := twoModuleGraph
  target
  entryPoint := none
  metadata := ⟨[]⟩
  limits := ⟨[]⟩
  adapterRequirements := []
  providerRequirements := []
  versions := .forBytecode BytecodeGraph.twoModuleGraph.formatVersion

theorem built_twoModulePackage (tr : ExecutionTarget) : Built (twoModulePackage tr) where
  graph := .apply (.empty _) BytecodeGraph.apply_twoModules
  format := by
    change BytecodeGraph.twoModuleGraph.formatVersion = _
    decide +kernel
  image := by
    refine ⟨[], [], tryNew_eq_ok.mpr ⟨?_, rfl, rfl⟩⟩
    change PackageImage.validateAdapterRequirements (σ := ℕ) twoModuleGraph none [] = .ok ()
    decide +kernel

theorem optimizedModules_twoModuleGraph : optimizedModules plainPasses twoModuleGraph =
      some BytecodeGraph.twoModuleGraph.modules := by
  decide +kernel

theorem unchanged_twoModuleGraph : Unchanged twoModuleGraph
    twoModuleGraph BytecodeGraph.twoModuleGraph.modules := by
  have hen : ∀ e ∈ BytecodeGraph.twoModuleGraph.modules.entries,
      unchangedIn twoModuleGraph e.2 := by
    decide +kernel
  exact ⟨fun id n hn => hen (id, n) (OrderedTable.lookup_eq_some.mp hn), fun _ h => h, rfl⟩

theorem finalized_twoModulePackage (tr : ExecutionTarget) :
    Finalized plainPasses (twoModulePackage tr) := by
  have hp := built_twoModulePackage tr
  have h : optimizePackage plainPasses (twoModulePackage tr) none 0 =
      some (.ok (twoModulePackage tr)) :=
    optimizePackage_unchanged none hp hp.graph optimizedModules_twoModuleGraph
      unchanged_twoModuleGraph
  exact .scratch hp h

/-- Publishing the same package again changes nothing. -/
theorem optimizePackage_incremental_again : SamePublication
      (optimizePackage plainPasses (twoModulePackage "a") (some (twoModulePackage "a")) 0)
      (optimizePackage plainPasses (twoModulePackage "a") none 0) := by
  refine (optimizePackage_incremental plainPasses _ _ (built_twoModulePackage "a")
    (finalized_twoModulePackage "a") 0).mpr fun modules h _ => ⟨?_, ?_, fun _ => ?_⟩
  · exact not_movesPath_self (built_twoModulePackage "a").graph
  · intro id o n hl hn _
    obtain rfl := Option.some.inj (optimizedModules_twoModuleGraph.symm.trans h)
    exact Option.some.inj (hl.symm.trans hn)
  · exact ⟨rfl, rfl, rfl, rfl, rfl, rfl⟩

/-- A package that differs from the published one only in its target is published for the old
target. -/
theorem optimizePackage_keeps_target :
    Built (twoModulePackage "b") ∧ Finalized plainPasses (twoModulePackage "a") ∧ ¬SamePublication
        (optimizePackage plainPasses (twoModulePackage "b") (some (twoModulePackage "a")) 0)
        (optimizePackage plainPasses (twoModulePackage "b") none 0) := by
  have hb := built_twoModulePackage "b"
  have hi : optimizePackage plainPasses (twoModulePackage "b")
      (some (twoModulePackage "a")) 0 = some (.ok (twoModulePackage "a")) :=
    optimizePackage_unchanged (some (twoModulePackage "a")) hb (built_twoModulePackage "a").graph
      optimizedModules_twoModuleGraph unchanged_twoModuleGraph
  have hs : optimizePackage plainPasses (twoModulePackage "b") none 0 =
      some (.ok (twoModulePackage "b")) :=
    optimizePackage_unchanged none hb hb.graph optimizedModules_twoModuleGraph
      unchanged_twoModuleGraph
  refine ⟨hb, finalized_twoModulePackage "a", fun h => ?_⟩
  have := congrArg PackageImage.target (h.2 _ _ hi hs)
  exact absurd this (by decide)

end Galfus.Package
