import Galfus.Package.Image

/-! # The capability manifest

The manifest of a loaded package is checked against the modules that the declared edges reach
from the entry point, while code follows the import slots.
-/

namespace Galfus.Package.PackageImage

variable {σ π : Type}

section Search

variable {g : BytecodeGraph}

theorem adds_noteDependency (f : Graph.Frontier ModuleId) (d : ModuleId) :
    Graph.Adds [d] f (noteDependency f d) := by
  unfold noteDependency
  split
  · next h => exact .old h
  · next h => exact .new h (.refl _)

theorem adds_noteDependencies (ds : List ModuleId) (f : Graph.Frontier ModuleId) :
    Graph.Adds ds f (ds.foldl noteDependency f) := by
  induction ds generalizing f with
  | nil => exact .nil f
  | cons d ds ih => exact (adds_noteDependency f d).trans (ih _)

/-- The loop ends with the modules that can be reached, as all of them are in a known set. -/
theorem mem_reachableLoop {k : Finset ModuleId} {R : Set ModuleId}
    (hk : ∀ id, ∀ d ∈ g.depsOf id, d ∈ k) {fl : ℕ} {f : Graph.Frontier ModuleId}
    (hf : Graph.Searched g.depsOf R (fun _ => True) f) (hs : f.1 ⊆ k)
    (hfl : f.2.length + (k.card - f.1.card) < fl) (x : ModuleId) :
    x ∈ reachableLoop g fl f ↔ ∃ r ∈ R, Graph.Reaches g.depsOf r x := by
  induction fl generalizing f with
  | zero => omega
  | succ fl ih =>
    obtain ⟨s, pn⟩ := f
    cases pn with
    | nil => exact hf.done.1 x
    | cons id pn =>
      have ha := adds_noteDependencies (g.depsOf id) (s, pn)
      have hsb : ((g.depsOf id).foldl noteDependency (s, pn)).1 ⊆ k := by
        intro y hy
        rcases (ha.seen y).mp hy with hy | hy
        · exact hs hy
        · exact hk id y hy
      refine ih (hf.visit trivial ha) hsb ?_
      have hl := ha.length
      have hc := Finset.card_le_card hsb
      have hc' := Finset.card_le_card hs
      simp only [List.length_cons] at hfl
      dsimp only at hl hc' hfl ⊢
      omega

theorem mem_reachableModules (g : BytecodeGraph) (entry x : ModuleId) :
    x ∈ reachableModules g entry ↔ Graph.Reaches g.depsOf entry x := by
  have hk : ∀ id, ∀ d ∈ g.depsOf id, d ∈ insert entry g.dependencies.values.flatten.toFinset := by
    intro id d hd
    refine Finset.mem_insert_of_mem (List.mem_toFinset.mpr ?_)
    unfold BytecodeGraph.depsOf at hd
    cases h : g.dependencies.lookup id with
    | none => rw [h] at hd; cases hd
    | some ids =>
      rw [h] at hd
      exact List.mem_flatten.mpr ⟨ids, OrderedTable.mem_values.mpr ⟨id, h⟩, hd⟩
  have hc := Finset.card_insert_le entry g.dependencies.values.flatten.toFinset
  have hl := List.toFinset_card_le g.dependencies.values.flatten
  have hi : Graph.Searched g.depsOf {entry} (fun _ => True) ({entry}, [entry]) :=
    .init (by simp) (by simp)
  rw [reachableModules, mem_reachableLoop hk hi (by simp)]
  · simp
  · simp only [List.length_singleton, Finset.card_singleton]
    omega

end Search

section Declared

variable {requirements : List (AdapterModuleRequirement σ)}

theorem insertDistinct_ok {ε : Type} {e : String → ε} {ts : List String} {s r : TextSet}
    (h : insertDistinct e s ts = .ok r) :
    ts.Nodup ∧ (∀ tx ∈ ts, s.lookup tx = none) ∧
      ∀ tx, (r.lookup tx).isSome ↔ (s.lookup tx).isSome ∨ tx ∈ ts := by
  induction ts generalizing s with
  | nil =>
    cases h
    simp
  | cons tx ts ih =>
    unfold insertDistinct at h
    split at h
    · cases h
    next hnw =>
    obtain ⟨hn, hf, hr⟩ := ih h
    have hne : ∀ t ∈ ts, t ≠ tx ∧ s.lookup t = none := by
      intro t ht
      have := hf t ht
      rw [OrderedTable.lookup_insert] at this
      split at this
      · cases this
      · next hne => exact ⟨hne, this⟩
    refine ⟨List.nodup_cons.mpr ⟨fun hm => (hne tx hm).1 rfl, hn⟩, ?_, fun t => ?_⟩
    · refine List.forall_mem_cons.mpr ⟨?_, fun t ht => (hne t ht).2⟩
      simpa using hnw
    · rw [hr, OrderedTable.lookup_insert, List.mem_cons]
      by_cases ht : t = tx <;> simp [ht]

theorem lookup_reachableProxies {graph : BytecodeGraph} {ms : Finset ModuleId}
    {pt : ModulePath} : ((reachableProxies graph ms).lookup pt).isSome ↔
      isProxy pt ∧ ∃ id ∈ ms, ∃ n, graph.modules.lookup id = some n ∧ n.path = pt := by
  have hm : (pt, ()) ∈ (((graph.modules.entries.filter (·.1 ∈ ms)).map
      (·.2.path)).filter isProxy).map (fun pt => (pt, ())) ↔
        isProxy pt ∧ ∃ id ∈ ms, ∃ n, graph.modules.lookup id = some n ∧ n.path = pt := by
    simp only [List.mem_map, List.mem_filter, decide_eq_true_eq, Prod.mk.injEq, and_true,
      exists_eq_right, Prod.exists, OrderedTable.lookup_eq_some]
    constructor
    · rintro ⟨⟨id, n, ⟨hn, hid⟩, hpt⟩, hp⟩
      exact ⟨hp, id, hid, n, hn, hpt⟩
    · rintro ⟨hp, id, hid, n, hn, hpt⟩
      exact ⟨⟨id, n, ⟨hn, hid⟩, hpt⟩, hp⟩
  rw [Option.isSome_iff_exists, ← hm]
  constructor
  · rintro ⟨⟨⟩, h⟩
    exact OrderedTable.mem_of_lookup_ofList h
  · exact OrderedTable.lookup_ofList_isSome

/-- An accepted manifest declares each proxy of the manifest's modules once, and nothing else. -/
theorem validateAdapterRequirements_ok {graph : BytecodeGraph} {ep : Option PackageEntryPoint}
    (h : validateAdapterRequirements graph ep requirements = .ok ()) :
    (requirements.map (·.proxyModule)).Nodup ∧ ∀ pt, pt ∈ requirements.map (·.proxyModule) ↔
        isProxy pt ∧ ∃ id ∈ manifestModules graph ep,
          ∃ n, graph.modules.lookup id = some n ∧ n.path = pt := by
  unfold validateAdapterRequirements at h
  split at h
  · cases h
  next declared hd =>
  obtain ⟨hn, -, hmm⟩ := insertDistinct_ok hd
  dsimp only at h
  split at h
  · cases h
  next hm =>
  split at h
  · cases h
  next hu =>
  refine ⟨hn, fun pt => ?_⟩
  rw [← lookup_reachableProxies]
  simp only [List.find?_eq_none, OrderedTable.mem_keys, Option.isNone_iff_eq_none,
    ← Option.isSome_iff_exists, ← Option.ne_none_iff_isSome] at hm hu
  have hp := hmm pt
  simp only [OrderedTable.lookup_empty, Option.isSome_none, Bool.false_eq_true, false_or,
    ← Option.ne_none_iff_isSome] at hp
  rw [← hp, ← Option.ne_none_iff_isSome]
  exact ⟨hu pt, hm pt⟩

theorem declaredOnce_iff (hn : (requirements.map (·.proxyModule)).Nodup) (pt : String) :
    (requirements.filter (·.proxyModule = pt)).length = 1 ↔
      pt ∈ requirements.map (·.proxyModule) := by
  have hc : (requirements.filter (·.proxyModule = pt)).length =
      (requirements.map (·.proxyModule)).count pt := by
    rw [List.count, List.countP_map, List.countP_eq_length_filter]
    rfl
  rw [hc]
  constructor
  · intro h
    exact List.count_pos_iff.mp (by omega)
  · exact List.count_eq_one_of_mem hn

end Declared

section

variable (p : PackageImage σ π)

def Starts (id : ModuleId) : Prop :=
  ∃ entryPoint n, p.entryPoint = some entryPoint ∧ p.graph.modules.lookup id = some n ∧
    n.path = entryPoint.modulePath

/-- Code started at the module `id` can call `m` through import slots. -/
def Calls : ModuleId → ModuleId → Prop :=
  Relation.ReflTransGen fun m k => k ∈ p.graph.importedModules m

/-- The declared edges lead from the module `id` to `m`. -/
def EdgesLead : ModuleId → ModuleId → Prop :=
  Relation.ReflTransGen fun m k => ⟨m, k⟩ ∈ p.graph.edges

/-- Modules are stored under their own ids, and every proxy that code from the entry point can call
is declared exactly once. -/
def CompleteManifest : Prop :=
  BytecodeGraph.OwnIds p.graph.modules ∧ ∀ entry id n, p.Starts entry → p.Calls entry id →
    p.graph.modules.lookup id = some n → isProxy n.path →
      (p.adapterRequirements.filter (·.proxyModule = n.path)).length = 1

/-- Modules are stored under their own ids, and every proxy that code from the entry point can call
is reached by the declared edges. -/
def EdgesCoverImports : Prop :=
  BytecodeGraph.OwnIds p.graph.modules ∧ ∀ entry id n, p.Starts entry → p.Calls entry id →
    p.graph.modules.lookup id = some n → isProxy n.path → p.EdgesLead entry id

end

section Loaded

variable {p : PackageImage σ π} {pr : List (BitVec 8) → Option (PackageImage σ π)}

theorem fromBytecode_ok {bs : List (BitVec 8)} (h : fromBytecode pr bs = .ok p) :
    (∃ r : BytecodeGraph, p.graph = r.reindex) ∧ p.graph.validate = .ok () ∧
      validateAdapterRequirements p.graph p.entryPoint p.adapterRequirements = .ok () := by
  unfold fromBytecode at h
  split at h
  · cases h
  next package _ =>
  split at h
  · cases h
  split at h
  · cases h
  split at h
  · cases h
  split at h
  · cases h
  next graph hg =>
  split at h
  · cases h
  next ha =>
  split at h
  · cases h
  cases h
  unfold BytecodeGraph.rebuildTransientIndexes at hg
  split at hg
  · next hv =>
    cases hg
    exact ⟨⟨_, rfl⟩, hv, ha⟩
  · cases hg

theorem fromBytecode_eq_ok {bs : List (BitVec 8)} {pk : PackageImage σ π} (hpr : pr bs = some pk)
    (hpc : compatible CURRENT_PACKAGE_FORMAT_VERSION pk.versions.packageFormat)
    (hf : compatible CURRENT_BYTECODE_FORMAT_VERSION pk.graph.formatVersion)
    (hs : pk.versions.bytecodeFormat = pk.graph.formatVersion)
    (hv : pk.graph.reindex.validate = .ok ())
    (ha : validateAdapterRequirements pk.graph.reindex pk.entryPoint
      pk.adapterRequirements = .ok ())
    (hp : validateProviderRequirements pk.providerRequirements = .ok ()) :
    fromBytecode pr bs = .ok { pk with graph := pk.graph.reindex } := by
  simp [fromBytecode, hpr, hpc, hf, hs, BytecodeGraph.rebuildTransientIndexes, hv, ha, hp]

theorem mem_depsOf_reindex (g : BytecodeGraph) (m k : ModuleId) :
    k ∈ g.reindex.depsOf m ↔ ⟨m, k⟩ ∈ g.reindex.edges := by
  unfold BytecodeGraph.depsOf
  rw [show g.reindex.dependencies.lookup m =
    BytecodeGraph.neighbours g.reindex.edges (fun e => (e.src, e.dst)) m from
      BytecodeGraph.lookup_adjacencyIndex _ _ _, BytecodeGraph.getD_neighbours]
  simp only [List.mem_map, List.mem_filter, decide_eq_true_eq]
  constructor
  · rintro ⟨_, ⟨⟨e, he, rfl⟩, rfl⟩, rfl⟩
    exact he
  · intro h
    exact ⟨_, ⟨⟨_, h, rfl⟩, rfl⟩, rfl⟩

/-- With distinct paths, the modules of the manifest are those that the edges reach from the
entry point. -/
theorem mem_manifestModules (hi : BytecodeGraph.OwnIds p.graph.modules)
    (hpt : BytecodeGraph.DistinctPaths p.graph.modules)
    (hd : ∀ m k, k ∈ p.graph.depsOf m ↔ ⟨m, k⟩ ∈ p.graph.edges) {e : ModuleId}
    (hen : p.Starts e) (id : ModuleId) :
    id ∈ manifestModules p.graph p.entryPoint ↔ p.EdgesLead e id := by
  obtain ⟨ep, n, hpn, hn, hp⟩ := hen
  have hf : ∃ n', p.graph.modules.values.find? (·.path = ep.modulePath) = some n' ∧ n'.id = e := by
    have hs : (p.graph.modules.values.find? (·.path = ep.modulePath)).isSome := by
      rw [List.find?_isSome]
      exact ⟨n, OrderedTable.mem_values.mpr ⟨e, hn⟩, by simpa using hp⟩
    obtain ⟨n', hn'⟩ := Option.isSome_iff_exists.mp hs
    obtain ⟨k, hk⟩ := OrderedTable.mem_values.mp (List.mem_of_find?_eq_some hn')
    have hp' : n'.path = ep.modulePath := by simpa using List.find?_some hn'
    refine ⟨n', hn', ?_⟩
    rw [hi k n' hk]
    exact hpt k e n' n hk hn (hp'.trans hp.symm)
  obtain ⟨n', hf, rfl⟩ := hf
  rw [hpn, manifestModules, hf, mem_reachableModules]
  simp only [Graph.Reaches, hd]
  rfl

end Loaded

/-- An accepted package has a complete manifest just if its modules are stored under their own ids
and its edges cover the import slots that lead to proxies. -/
theorem fromBytecode_completeManifest (parse : List (BitVec 8) → Option (PackageImage σ π))
    (bytes : List (BitVec 8)) (p : PackageImage σ π) (h : fromBytecode parse bytes = .ok p) :
    p.CompleteManifest ↔ p.EdgesCoverImports := by
  obtain ⟨⟨r, hr⟩, hv, ha⟩ := fromBytecode_ok h
  obtain ⟨hnd, hd⟩ := validateAdapterRequirements_ok ha
  refine and_congr_right fun hi => ?_
  have hp := BytecodeGraph.distinctPaths_of_validate hi hv
  have hdp : ∀ m k, k ∈ p.graph.depsOf m ↔ ⟨m, k⟩ ∈ p.graph.edges := by
    rw [hr]
    exact mem_depsOf_reindex r
  refine forall₅_congr fun e id n hen _ => forall₂_congr fun hn hpr => ?_
  rw [declaredOnce_iff hnd, hd]
  simp only [mem_manifestModules hi hp hdp hen]
  constructor
  · rintro ⟨-, k, hk, n', hn', hpt⟩
    rwa [hp k id n' n hn' hn hpt] at hk
  · intro hl
    exact ⟨hpr, id, hl, n, hn, rfl⟩

section

variable (edges : List ImportEdge) (requirements : List (AdapterModuleRequirement ℕ))

/-- A package whose module `a.gfs` imports from the proxy `p.gfp`. -/
def proxyPackage : PackageImage ℕ ℕ where
  graph := { BytecodeGraph.new with
    modules := .ofList [(1, BytecodeGraph.importingNode 1 "a.gfs" "p.gfp"),
      (2, BytecodeGraph.exportingNode 2 "p.gfp")]
    edges }
  target := "default"
  entryPoint := some ⟨"a.gfs", "main"⟩
  metadata := ⟨[]⟩
  limits := ⟨[]⟩
  adapterRequirements := requirements
  providerRequirements := []
  versions := .forBytecode CURRENT_BYTECODE_FORMAT_VERSION

def loadedPackage : PackageImage ℕ ℕ :=
  { proxyPackage edges requirements with graph := (proxyPackage edges requirements).graph.reindex }

theorem starts_loadedPackage : (loadedPackage edges requirements).Starts 1 :=
  ⟨_, BytecodeGraph.importingNode 1 "a.gfs" "p.gfp", rfl, rfl, rfl⟩

end

def proxyRequirement : AdapterModuleRequirement ℕ :=
  ⟨"p.gfp", ⟨"adapter", ⟨[]⟩, [], []⟩, CURRENT_BOUNDARY_ABI_VERSION⟩

/-- The edge to the proxy is declared, and so is the requirement. -/
theorem fromBytecode_completeManifest_loadedPackage :
    (loadedPackage [⟨1, 2⟩] [proxyRequirement]).CompleteManifest := by
  have hok : fromBytecode (fun _ => some (proxyPackage [⟨1, 2⟩] [proxyRequirement])) [] =
      .ok (loadedPackage [⟨1, 2⟩] [proxyRequirement]) :=
    fromBytecode_eq_ok rfl (by decide) (by decide) rfl (by decide +kernel) (by decide +kernel)
      (by decide)
  have hed : ∀ e ∈ (loadedPackage [⟨1, 2⟩] [proxyRequirement]).graph.modules.entries,
      ∀ k ∈ (loadedPackage [⟨1, 2⟩] [proxyRequirement]).graph.importedModules e.1,
        ⟨e.1, k⟩ ∈ (loadedPackage [⟨1, 2⟩] [proxyRequirement]).graph.edges := by
    decide +kernel
  refine (fromBytecode_completeManifest _ _ _ hok).mpr ⟨?_, fun en id n _ hc _ _ => ?_⟩
  · exact BytecodeGraph.ownIds_iff.mpr (by decide +kernel)
  · refine .mono (fun m k hk => ?_) _ _ hc
    cases hm : (loadedPackage [⟨1, 2⟩] [proxyRequirement]).graph.modules.lookup m with
    | none => rw [BytecodeGraph.importedModules, hm] at hk; cases hk
    | some i => exact hed (m, i) (OrderedTable.lookup_eq_some.mp hm) k hk

/-- A proxy that no edge leads to can be called and is not declared. -/
theorem fromBytecode_accepts_undeclared :
    fromBytecode (fun _ => some (proxyPackage [] [])) [] = .ok (loadedPackage [] []) ∧
      ¬(loadedPackage [] []).CompleteManifest := by
  refine ⟨fromBytecode_eq_ok rfl (by decide) (by decide) rfl (by decide +kernel)
    (by decide +kernel) (by decide), fun h => ?_⟩
  have hc : (loadedPackage [] []).Calls 1 2 := .single (by decide +kernel)
  have := h.2 1 2 (BytecodeGraph.exportingNode 2 "p.gfp") (starts_loadedPackage [] []) hc
    rfl (by decide +kernel)
  simp [loadedPackage, proxyPackage] at this

end Galfus.Package.PackageImage
