import Galfus.Package.Graph

/-! # Graph transactions

What a transaction describes, and that `apply` gives exactly that.
-/

namespace Galfus.Package.BytecodeGraph

open List (find?_eq_none foldl_cons mem_filter mem_map)
open OrderedTable (lookup_eq_some mem_values lookup_ofList_eq_some lookup_inserts ofList
  mem_of_lookup_ofList ext_lookup)

/-- The modules that a transaction describes: those that are retained and not upserted, and the
upserted ones. -/
def describedModules (g : BytecodeGraph) (t : BytecodeGraphTransaction) :
    OrderedTable ModuleId BytecodeNode :=
  .ofList (g.modules.entries.filter (fun entry =>
      entry.1 ∉ t.removedModules ∧ entry.1 ∉ t.upsertedModules.map (·.id)) ++
    t.upsertedModules.map fun node => (node.id, node))

def described (g : BytecodeGraph) (t : BytecodeGraphTransaction) : BytecodeGraph :=
  { g with modules := g.describedModules t, edges := t.edges }

def DistinctPaths (modules : OrderedTable ModuleId BytecodeNode) : Prop :=
  ∀ a b n n', modules.lookup a = some n → modules.lookup b = some n' → n.path = n'.path → a = b

def OwnIds (modules : OrderedTable ModuleId BytecodeNode) : Prop :=
  ∀ id n, modules.lookup id = some n → n.id = id

theorem ownIds_iff {ms : OrderedTable ModuleId BytecodeNode} :
    OwnIds ms ↔ ∀ e ∈ ms.entries, e.2.id = e.1 := by
  simp [OwnIds, lookup_eq_some]

/-- The transactions that should succeed. -/
structure Acceptable (g : BytecodeGraph) (t : BytecodeGraphTransaction) : Prop where
  base : t.baseVersion = g.version
  removed : t.removedModules.Nodup
  upserted : (t.upsertedModules.map (·.id)).Nodup
  disjoint : ∀ n ∈ t.upsertedModules, n.id ∉ t.removedModules
  paths : DistinctPaths (g.describedModules t)
  valid : (g.described t).validate = .ok ()

def neighbours (edges : List ImportEdge) (endpoints : ImportEdge → ModuleId × ModuleId)
    (id : ModuleId) : Option (List ModuleId) :=
  let found := ((edges.map endpoints).filter (·.1 = id)).map (·.2)
  if found = [] then none else some found

/-- The indexes agree with the modules and the edges. An export is found at its last slot. -/
structure Indexed (g : BytecodeGraph) : Prop where
  ids : ∀ path id, g.idsByPath.lookup path = some id ↔
    ∃ n, g.modules.lookup id = some n ∧ n.path = path
  dependencies : ∀ id, g.dependencies.lookup id = neighbours g.edges (fun e => (e.src, e.dst)) id
  dependents : ∀ id, g.dependents.lookup id = neighbours g.edges (fun e => (e.dst, e.src)) id
  modules : ∀ id, (g.exportIndexes.lookup id).isSome = (g.modules.lookup id).isSome
  exports : ∀ id symbol idx, (g.exportIndexes.lookup id).bind (·.lookup symbol) = some idx ↔
      ∃ n, g.modules.lookup id = some n ∧
        (n.module.exports.map (·.symbolName))[idx]? = some symbol ∧
          ∀ j, (n.module.exports.map (·.symbolName))[j]? = some symbol → j ≤ idx

/-- The next snapshot is what the transaction describes. -/
structure Exact (g : BytecodeGraph) (t : BytecodeGraphTransaction) (next : BytecodeGraph) :
    Prop where
  modules : next.modules = g.describedModules t
  ownIds : OwnIds next.modules
  edges : next.edges = sortEdges t.edges
  indexed : next.Indexed
  version : next.version = g.version + 1

inductive Reachable : BytecodeGraph → Prop
  | empty (formatVersion : Version) : Reachable (withFormatVersion formatVersion)
  | apply {g next : BytecodeGraph} {t : BytecodeGraphTransaction} (hg : Reachable g)
      (h : g.apply t = .ok next) : Reachable next

/-- An upserted module gets the path that the graph gives to another upserted module. -/
def TakesMovedPath (g : BytecodeGraph) (t : BytecodeGraphTransaction) : Prop :=
  ∃ n ∈ t.upsertedModules, ∃ m ∈ t.upsertedModules, m.id ≠ n.id ∧
    ∃ old, g.modules.lookup m.id = some old ∧ old.path = n.path

section

variable (ed : List ImportEdge) (es : ImportEdge → ModuleId × ModuleId) (id : ModuleId)

theorem getD_neighbours : (neighbours ed es id).getD [] =
      ((ed.map es).filter (·.1 = id)).map (·.2) := by
  unfold neighbours
  dsimp only
  split
  · next h => rw [h]; rfl
  · rfl

theorem lookup_adjacencyIndex : (adjacencyIndex ed es).lookup id = neighbours ed es id := by
  unfold adjacencyIndex
  induction ed using List.reverseRecOn with
  | nil => rfl
  | append_singleton ed e ih =>
    rw [List.foldl_append, foldl_cons, List.foldl_nil, OrderedTable.lookup_insert]
    by_cases h : id = (es e).1
    · subst h
      rw [ih, getD_neighbours]
      simp [neighbours]
    · rw [if_neg h, ih]
      simp [neighbours, Ne.symm h]

end

theorem lookup_exportIndex (m : BytecodeModule) (s : String) (i : ℕ) :
    (exportIndex m).lookup s = some i ↔ (m.exports.map (·.symbolName))[i]? = some s ∧
        ∀ j, (m.exports.map (·.symbolName))[j]? = some s → j ≤ i :=
  OrderedTable.lookup_ofList_zipIdx _ _ _ _

section Validation

variable {g : BytecodeGraph}

theorem mem_sortEdges {edges : List ImportEdge} {e : ImportEdge} :
    e ∈ sortEdges edges ↔ e ∈ edges :=
  List.mem_insertionSort _

theorem mem_sortImports {i : List ImportSlot} {s : ImportSlot} : s ∈ sortImports i ↔ s ∈ i :=
  List.mem_insertionSort _

def validatedIds (g : BytecodeGraph) : Table ModulePath ModuleId :=
  (g.modules.values.foldl g.checkNode (∅, [])).1

theorem validate_eq_ok : g.validate = .ok () ↔ g.validationErrors = [] := by
  unfold validate
  split
  · next h => exact ⟨fun _ => List.isEmpty_iff.mp h, fun _ => rfl⟩
  · next h => exact ⟨nofun, fun hn => absurd (List.isEmpty_iff.mpr hn) h⟩

theorem validate_ok_iff : g.validate = .ok () ↔
    (g.modules.values.foldl g.checkNode (∅, [])).2 = [] ∧ (∀ e ∈ g.edges, g.checkEdge e = []) ∧
      ∀ nd ∈ g.modules.values, ∀ s ∈ nd.module.imports,
        g.checkImport g.validatedIds nd.id s = [] := by
  rw [validate_eq_ok]
  simp [validationErrors, validatedIds, mem_sortEdges, mem_sortImports]

/-- Validation reads only the modules and the set of the edges. -/
theorem validate_congr {g' : BytecodeGraph} (hm : g.modules = g'.modules)
    (hed : ∀ e, e ∈ g.edges ↔ e ∈ g'.edges) : g.validate = .ok () ↔ g'.validate = .ok () := by
  have hn : g.checkNode = g'.checkNode := by
    funext state node
    simp only [checkNode, checkGlobals, checkGlobal, hm]
  simp only [validate_ok_iff, validatedIds, checkEdge, checkImport, hn, hm, hed]

theorem lookup_checkNodes (ns : List BytecodeNode)
    (s : Table ModulePath ModuleId × List BytecodeGraphValidationError) (p : ModulePath) :
    (ns.foldl g.checkNode s).1.lookup p =
      ((ns.reverse.find? (·.path = p)).map (·.id)).or (s.1.lookup p) := by
  induction ns generalizing s with
  | nil => rfl
  | cons nd ns ih =>
    rw [foldl_cons, ih, checkNode, Table.lookup_insert_eq, List.reverse_cons, List.find?_append]
    cases ns.reverse.find? (·.path = p) with
    | some _ => rfl
    | none => by_cases h : p = nd.path <;> simp [h, eq_comm]

theorem id_eq_of_checkNodes {ns : List BytecodeNode}
    {s : Table ModulePath ModuleId × List BytecodeGraphValidationError}
    (h : (ns.foldl g.checkNode s).2 = []) :
    s.2 = [] ∧ ∀ n ∈ ns, (∀ first, s.1.lookup n.path = some first → first = n.id) ∧
      ∀ n' ∈ ns, n.path = n'.path → n.id = n'.id := by
  induction ns generalizing s with
  | nil => exact ⟨h, fun _ hn => absurd hn List.not_mem_nil⟩
  | cons nd ns ih =>
    obtain ⟨hst, hrs⟩ := ih h
    simp only [checkNode, List.append_eq_nil_iff] at hst
    obtain ⟨⟨⟨hes, hdp⟩, -⟩, -⟩ := hst
    have hfr : ∀ first, s.1.lookup nd.path = some first → first = nd.id := by
      intro first hlk
      by_contra hne
      simp [duplicatePath, hlk, hne] at hdp
    have hsm : ∀ n ∈ ns, n.path = nd.path → nd.id = n.id := by
      intro n hn hpt
      refine (hrs n hn).1 nd.id ?_
      rw [checkNode, hpt, AList.lookup_insert]
    refine ⟨hes, List.forall_mem_cons.mpr ⟨⟨hfr, ?_⟩, fun n hn => ⟨?_, ?_⟩⟩⟩
    · refine List.forall_mem_cons.mpr ⟨fun _ => rfl, fun n hn hpt => ?_⟩
      exact hsm n hn hpt.symm
    · intro first hlk
      by_cases hpt : n.path = nd.path
      · rw [hpt] at hlk
        rw [hfr first hlk, hsm n hn hpt]
      · refine (hrs n hn).1 first ?_
        rw [checkNode, Table.lookup_insert_eq, if_neg hpt, hlk]
    · exact List.forall_mem_cons.mpr ⟨fun hpt => (hsm n hn hpt).symm, (hrs n hn).2⟩

theorem distinctPaths_of_validate (hi : OwnIds g.modules) (h : g.validate = .ok ()) :
    DistinctPaths g.modules := by
  intro a b n n' hn hn' hp
  have hnd := (id_eq_of_checkNodes (validate_ok_iff.mp h).1).2
  have := (hnd n (OrderedTable.mem_values.mpr ⟨a, hn⟩)).2 n'
    (OrderedTable.mem_values.mpr ⟨b, hn'⟩) hp
  rwa [hi a n hn, hi b n' hn'] at this

end Validation

section Checks

variable {g : BytecodeGraph} {t : BytecodeGraphTransaction}

instance : Std.Total fun left right : BytecodeNode => left.id ≤ right.id :=
  ⟨fun a b => le_total a.id b.id⟩

instance : IsTrans BytecodeNode fun left right => left.id ≤ right.id :=
  ⟨fun _ _ _ => le_trans⟩

theorem rejectSome_ok_iff {α ε : Type} {f : Option α} {e : α → ε} :
    rejectSome f e = .ok () ↔ f = none := by
  cases f with
  | none => exact ⟨fun _ => rfl, fun _ => rfl⟩
  | some a => exact ⟨nofun, nofun⟩

theorem rejectSome_bind_ok_iff {α ε : Type} {f : Option α} {e : α → ε} {k : Unit → Except ε Unit} :
    (rejectSome f e >>= k) = .ok () ↔ f = none ∧ k () = .ok () := by
  cases f with
  | none => exact ⟨fun h => ⟨rfl, h⟩, fun h => h.2⟩
  | some a => exact ⟨nofun, nofun⟩

theorem validateTransaction_ok_iff : g.validateTransaction t = .ok () ↔
    t.removedModules.Nodup ∧ (t.upsertedModules.map (·.id)).Nodup ∧
      (∀ n ∈ t.upsertedModules, n.id ∉ t.removedModules) ∧
      (t.upsertedModules.map (·.path)).Nodup ∧
      ∀ n ∈ t.upsertedModules, g.pathConflict t.removedModules n = none := by
  have hc (n : BytecodeNode) : g.pathConflict (t.removedModules.insertionSort (· ≤ ·)) n =
        g.pathConflict t.removedModules n := by
    simp [pathConflict]
  simp only [validateTransaction, rejectSome_bind_ok_iff, rejectSome_ok_iff]
  rw [equalNeighbours_sort id (· ≤ ·) (fun _ _ h => h), List.map_id,
    equalNeighbours_sort BytecodeNode.id _ (fun _ _ h => h),
    equalNeighbours_sort BytecodeNode.path _ (fun _ _ h => h.elim le_of_lt fun h => h.1.le)]
  simp [hc]

end Checks

section Modules

variable {g : BytecodeGraph} {t : BytecodeGraphTransaction} {n : BytecodeNode}

theorem lookup_removeModule (g : BytecodeGraph) (id k : ModuleId) :
    (g.removeModule id).modules.lookup k = if k = id then none else g.modules.lookup k := by
  unfold removeModule
  split
  · exact OrderedTable.lookup_erase _ _ _
  · next h =>
    split
    · next hk => rw [hk, h]
    · rfl

theorem lookup_removeModules (i : List ModuleId) (g : BytecodeGraph) (k : ModuleId) :
    (i.foldl removeModule g).modules.lookup k =
      if k ∈ i then none else g.modules.lookup k := by
  induction i generalizing g with
  | nil => rfl
  | cons id i ih =>
    rw [foldl_cons, ih, lookup_removeModule]
    by_cases hk : k = id <;> by_cases hm : k ∈ i <;> simp [hk, hm]

theorem upsertModules_modules (ns : List BytecodeNode) (g : BytecodeGraph) :
    (ns.foldl upsertModule g).modules =
      (ns.map fun nd => (nd.id, nd)).foldl (fun t e => t.insert e.1 e.2) g.modules := by
  induction ns generalizing g with
  | nil => rfl
  | cons nd ns ih => exact ih _

theorem version_removeModules (i : List ModuleId) (g : BytecodeGraph) :
    (i.foldl removeModule g).version = g.version := by
  induction i generalizing g with
  | nil => rfl
  | cons id i ih =>
    rw [foldl_cons, ih, removeModule]
    split <;> rfl

theorem version_upsertModules (ns : List BytecodeNode) (g : BytecodeGraph) :
    (ns.foldl upsertModule g).version = g.version := by
  induction ns generalizing g with
  | nil => rfl
  | cons nd ns ih => exact ih _

theorem lookup_retained {k : ModuleId} : (ofList (g.modules.entries.filter fun e =>
        e.1 ∉ t.removedModules ∧ e.1 ∉ t.upsertedModules.map (·.id))).lookup k = some n ↔
      g.modules.lookup k = some n ∧ k ∉ t.removedModules ∧ k ∉ t.upsertedModules.map (·.id) := by
  rw [lookup_ofList_eq_some]
  · rw [mem_filter, lookup_eq_some, decide_eq_true_eq]
  · intro k a b ha hb
    have ha := OrderedTable.lookup_eq_some.mpr (mem_filter.mp ha).1
    rw [OrderedTable.lookup_eq_some.mpr (mem_filter.mp hb).1] at ha
    exact (Option.some.inj ha).symm

theorem describedModules_eq : g.describedModules t =
    (t.upsertedModules.map fun nd => (nd.id, nd)).foldl (fun t e => t.insert e.1 e.2)
      (.ofList (g.modules.entries.filter fun en =>
        en.1 ∉ t.removedModules ∧ en.1 ∉ t.upsertedModules.map (·.id))) := by
  rw [describedModules, ofList, List.foldl_append]
  rfl

theorem upsertModules_removeModules :
    (t.upsertedModules.foldl upsertModule (t.removedModules.foldl removeModule g)).modules =
      g.describedModules t := by
  refine ext_lookup fun k => ?_
  rw [upsertModules_modules, describedModules_eq, lookup_inserts,
    lookup_inserts, lookup_removeModules]
  cases hf : (t.upsertedModules.map fun nd => (nd.id, nd)).reverse.find? (·.1 = k) with
  | some e => rfl
  | none =>
    have hk : k ∉ t.upsertedModules.map (·.id) := by
      intro hk
      obtain ⟨n, hn, rfl⟩ := mem_map.mp hk
      simp only [find?_eq_none, List.mem_reverse, mem_map, decide_eq_true_eq] at hf
      exact hf _ ⟨n, hn, rfl⟩ rfl
    simp only [Option.map_none, Option.none_or]
    ext n
    rw [lookup_retained]
    split
    · next h => simp [h]
    · next h => simp only [h, hk, not_false_eq_true, and_true]

theorem lookup_describedModules_retained {k : ModuleId} (h : g.modules.lookup k = some n)
    (hr : k ∉ t.removedModules) (hu : k ∉ t.upsertedModules.map (·.id)) :
    (g.describedModules t).lookup k = some n := by
  rw [describedModules_eq, lookup_inserts, lookup_retained.mpr ⟨h, hr, hu⟩]
  have hn : (t.upsertedModules.map fun nd => (nd.id, nd)).reverse.find? (·.1 = k) = none := by
    simp only [find?_eq_none, List.mem_reverse, mem_map, decide_eq_true_eq]
    rintro _ ⟨nd, hnd, rfl⟩ rfl
    exact hu (mem_map.mpr ⟨nd, hnd, rfl⟩)
  rw [hn]
  rfl

theorem describedModules_cases {k : ModuleId} (h : (g.describedModules t).lookup k = some n) :
    (n ∈ t.upsertedModules ∧ n.id = k) ∨ g.modules.lookup k = some n ∧ k ∉ t.removedModules := by
  rcases List.mem_append.mp (mem_of_lookup_ofList h) with h | h
  · obtain ⟨hm, hr⟩ := mem_filter.mp h
    exact .inr ⟨OrderedTable.lookup_eq_some.mpr hm, (decide_eq_true_eq.mp hr).1⟩
  · obtain ⟨nd, hn, heq⟩ := mem_map.mp h
    obtain ⟨rfl, rfl⟩ := Prod.mk.inj heq
    exact .inl ⟨hn, rfl⟩

theorem lookup_describedModules_upserted (hi : (t.upsertedModules.map (·.id)).Nodup)
    (hn : n ∈ t.upsertedModules) : (g.describedModules t).lookup n.id = some n := by
  have hm : (n.id, n) ∈ t.upsertedModules.map fun nd => (nd.id, nd) :=
    mem_map.mpr ⟨n, hn, rfl⟩
  obtain ⟨n', hn'⟩ := OrderedTable.lookup_ofList_isSome (List.mem_append_right
    (g.modules.entries.filter fun e =>
      e.1 ∉ t.removedModules ∧ e.1 ∉ t.upsertedModules.map (·.id)) hm)
  rcases List.mem_append.mp (mem_of_lookup_ofList hn') with h | h
  · have hnt := (decide_eq_true_eq.mp (mem_filter.mp h).2).2
    exact absurd (mem_map.mpr ⟨n, hn, rfl⟩) hnt
  · obtain ⟨nd, hnd, heq⟩ := mem_map.mp h
    obtain ⟨hid, rfl⟩ := Prod.mk.inj heq
    rw [List.inj_on_of_nodup_map hi hnd hn hid] at hn'
    exact hn'

theorem OwnIds.described (hg : OwnIds g.modules) : OwnIds (g.describedModules t) := by
  intro id n hn
  rcases describedModules_cases hn with ⟨_, hid⟩ | ⟨h, _⟩
  · exact hid
  · exact hg id n h

end Modules

section Apply

variable {g next : BytecodeGraph} {t : BytecodeGraphTransaction}

/-- The graph before its indexes are rebuilt. -/
def changed (g : BytecodeGraph) (t : BytecodeGraphTransaction) : BytecodeGraph :=
  { t.upsertedModules.foldl upsertModule (t.removedModules.foldl removeModule g) with
    edges := sortEdges t.edges }

theorem apply_eq_ok : g.apply t = .ok next ↔
    t.baseVersion = g.version ∧ g.validateTransaction t = .ok () ∧
      (g.changed t).reindex.validate = .ok () ∧
      next = { (g.changed t).reindex with version := (g.changed t).version + 1 } := by
  unfold apply
  by_cases hb : t.baseVersion = g.version
  · rw [if_neg (not_not_intro hb)]
    cases g.validateTransaction t with
    | error e => simp
    | ok _ =>
      dsimp only
      rw [← changed]
      unfold rebuildTransientIndexes
      cases (g.changed t).reindex.validate with
      | error es => simp
      | ok _ => simp [hb, reindex, eq_comm]
  · simp [hb]

theorem validate_changed : (g.changed t).reindex.validate = .ok () ↔
    (g.described t).validate = .ok () := by
  refine validate_congr upsertModules_removeModules fun e => ?_
  change e ∈ sortEdges (sortEdges t.edges) ↔ e ∈ t.edges
  rw [mem_sortEdges, mem_sortEdges]

theorem sortEdges_sortEdges (edges : List ImportEdge) :
    sortEdges (sortEdges edges) = sortEdges edges :=
  (List.pairwise_insertionSort _ edges).insertionSort_eq

theorem lookup_reindex_idsByPath (hp : DistinctPaths g.modules) (p : ModulePath)
    (id : ModuleId) : g.reindex.idsByPath.lookup p = some id ↔
      ∃ n, g.modules.lookup id = some n ∧ n.path = p := by
  have hm {p : ModulePath} {id : ModuleId} :
      (p, id) ∈ g.modules.entries.map (fun e => (e.2.path, e.1)) ↔
        ∃ n, g.modules.lookup id = some n ∧ n.path = p := by
    simp [lookup_eq_some, and_comm]
  refine (lookup_ofList_eq_some fun p a b ha hb => ?_).trans hm
  obtain ⟨n, hn, rfl⟩ := hm.mp ha
  obtain ⟨n', hn', hpt⟩ := hm.mp hb
  exact hp a b n n' hn hn' hpt.symm

theorem lookup_reindex_exportIndexes (g : BytecodeGraph) (id : ModuleId) :
    g.reindex.exportIndexes.lookup id =
      (g.modules.lookup id).map fun n => exportIndex n.module := by
  have hm {id : ModuleId} {es : OrderedTable String ℕ} :
      (id, es) ∈ g.modules.entries.map (fun e => (e.1, exportIndex e.2.module)) ↔
        ∃ n, g.modules.lookup id = some n ∧ exportIndex n.module = es := by
    simp [lookup_eq_some]
  ext es
  rw [Option.map_eq_some_iff, ← hm]
  refine lookup_ofList_eq_some fun id a b ha hb => ?_
  obtain ⟨n, hn, rfl⟩ := hm.mp ha
  obtain ⟨n', hn', rfl⟩ := hm.mp hb
  rw [hn] at hn'
  rw [Option.some.inj hn']

theorem Indexed.reindex (hp : DistinctPaths g.modules) : g.reindex.Indexed where
  ids := lookup_reindex_idsByPath hp
  dependencies := lookup_adjacencyIndex _ _
  dependents := lookup_adjacencyIndex _ _
  modules id := by
    rw [lookup_reindex_exportIndexes, Option.isSome_map]
    rfl
  exports id symbol idx := by
    rw [lookup_reindex_exportIndexes, Option.bind_map, Option.bind_eq_some_iff]
    simp only [Function.comp_apply, lookup_exportIndex]
    rfl

theorem Exact.of_apply (hg : OwnIds g.modules) (h : g.apply t = .ok next) : Exact g t next := by
  obtain ⟨-, -, hv, rfl⟩ := apply_eq_ok.mp h
  have hm : (g.changed t).modules = g.describedModules t := upsertModules_removeModules
  have hid : OwnIds (g.changed t).modules := hm ▸ hg.described
  have hp : DistinctPaths (g.changed t).modules :=
    distinctPaths_of_validate (g := (g.changed t).reindex) hid hv
  have hi := Indexed.reindex hp
  exact {
    modules := hm
    ownIds := hid
    edges := sortEdges_sortEdges t.edges
    indexed := ⟨hi.ids, hi.dependencies, hi.dependents, hi.modules, hi.exports⟩
    version := by
      rw [changed, version_upsertModules, version_removeModules] }

end Apply

section Reachable

variable {g next : BytecodeGraph} {t : BytecodeGraphTransaction}

theorem Reachable.ownIds (hg : Reachable g) : OwnIds g.modules := by
  induction hg with
  | empty _ => intro id n hn; cases hn
  | apply _ h ih => exact (Exact.of_apply ih h).ownIds

theorem Reachable.distinctPaths (hg : Reachable g) : DistinctPaths g.modules := by
  cases hg with
  | empty _ => intro a b n n' hn; cases hn
  | @apply g _ t hg h =>
    obtain ⟨-, -, hv, rfl⟩ := apply_eq_ok.mp h
    have hi : OwnIds (g.changed t).modules :=
      upsertModules_removeModules (g := g) (t := t) ▸ hg.ownIds.described
    exact distinctPaths_of_validate (g := (g.changed t).reindex) hi hv

theorem pathConflict_eq_none (hd : OwnIds g.modules) (hpa : DistinctPaths g.modules)
    {r : List ModuleId} {n : BytecodeNode} : g.pathConflict r n = none ↔
      ∀ id o, g.modules.lookup id = some o → o.path = n.path → id = n.id ∨ id ∈ r := by
  unfold pathConflict
  split
  · next existing hfn =>
    have hpt : existing.path = n.path := by simpa using List.find?_some hfn
    obtain ⟨id, hid⟩ := OrderedTable.mem_values.mp (List.mem_of_find?_eq_some hfn)
    obtain rfl := hd id existing hid
    have hon {id : ModuleId} {o : BytecodeNode} (h : g.modules.lookup id = some o)
        (hl : o.path = n.path) : id = existing.id :=
      hpa id existing.id o existing h hid (hl.trans hpt.symm)
    split
    · next hcn =>
      refine ⟨nofun, fun h => ?_⟩
      rcases h existing.id existing hid hpt with h | h
      · exact absurd h hcn.1
      · exact absurd h hcn.2
    · next hnt =>
      refine ⟨fun _ id o h hl => ?_, fun _ => rfl⟩
      rw [hon h hl]
      by_contra hor
      exact hnt (not_or.mp hor)
  · next hnn =>
    refine ⟨fun _ id o h hl => ?_, fun _ => rfl⟩
    have := find?_eq_none.mp hnn o (OrderedTable.mem_values.mpr ⟨id, h⟩)
    exact absurd hl (by simpa using this)

theorem Acceptable.of_apply (hi : OwnIds g.modules) (h : g.apply t = .ok next) :
    g.Acceptable t := by
  obtain ⟨hb, ht, hv, -⟩ := apply_eq_ok.mp h
  obtain ⟨hr, hu, hds, -, -⟩ := validateTransaction_ok_iff.mp ht
  have hd := validate_changed.mp hv
  exact ⟨hb, hr, hu, hds, distinctPaths_of_validate (g := g.described t) hi.described hd, hd⟩

/-- `apply` takes the transactions it should, apart from those that move a path. -/
theorem exists_apply_iff (hd : OwnIds g.modules) (hpa : DistinctPaths g.modules) :
    (∃ next, g.apply t = .ok next) ↔ g.Acceptable t ∧ ¬g.TakesMovedPath t := by
  constructor
  · rintro ⟨next, h⟩
    refine ⟨.of_apply hd h, ?_⟩
    rintro ⟨n, hn, m, hm, hne, o, hl, hpt⟩
    obtain ⟨-, -, hds, -, hcn⟩ :=
      validateTransaction_ok_iff.mp (apply_eq_ok.mp h).2.1
    rcases (pathConflict_eq_none hd hpa).mp (hcn n hn) m.id o hl hpt with h | h
    · exact hne h
    · exact hds m hm h
  · rintro ⟨hok, hmv⟩
    have hir {n : BytecodeNode} (hn : n ∈ t.upsertedModules) :=
      lookup_describedModules_upserted (g := g) hok.upserted hn
    have hun : (t.upsertedModules.map (·.path)).Nodup := by
      refine .map_on (fun n hn m hm hpt => ?_) hok.upserted.of_map
      have hid := hok.paths n.id m.id n m (hir hn) (hir hm) hpt
      exact List.inj_on_of_nodup_map hok.upserted hn hm hid
    have hcn : ∀ n ∈ t.upsertedModules, g.pathConflict t.removedModules n = none := by
      refine fun n hn => (pathConflict_eq_none hd hpa).mpr fun id o hl hpt => ?_
      by_contra hor
      obtain ⟨hne, hrt⟩ := not_or.mp hor
      by_cases hid : id ∈ t.upsertedModules.map (·.id)
      · obtain ⟨m, hm, rfl⟩ := mem_map.mp hid
        exact hmv ⟨n, hn, m, hm, hne, o, hl, hpt⟩
      · refine hne (hok.paths id n.id o n ?_ (hir hn) hpt)
        exact lookup_describedModules_retained hl hrt hid
    refine ⟨_, apply_eq_ok.mpr ⟨hok.base, ?_, validate_changed.mpr hok.valid, rfl⟩⟩
    exact validateTransaction_ok_iff.mpr ⟨hok.removed, hok.upserted, hok.disjoint, hun, hcn⟩

end Reachable

/-- What `apply` returns is what the transaction describes. It succeeds for the acceptable
transactions, unless they move a path from one upserted module to another. -/
theorem apply_exact (g : BytecodeGraph) (hg : Reachable g) (t : BytecodeGraphTransaction) :
    (∀ next, g.apply t = .ok next → Exact g t next) ∧
      (((∃ next, g.apply t = .ok next) ↔ g.Acceptable t) ↔
        (g.Acceptable t → ¬g.TakesMovedPath t)) := by
  refine ⟨fun next h => .of_apply hg.ownIds h, ?_⟩
  rw [exists_apply_iff hg.ownIds hg.distinctPaths]
  constructor
  · exact fun h hok => (h.mpr hok).2
  · exact fun h => ⟨And.left, fun hok => ⟨hok, h hok⟩⟩

def emptyNode (id : ModuleId) (path : ModulePath) : BytecodeNode :=
  ⟨id, path, 0, ⟨path, 0, [], [], [], [], [], [], [], none⟩, none⟩

def twoModules (baseVersion : UInt64) (first second : ModulePath) : BytecodeGraphTransaction :=
  ⟨baseVersion, 0, [emptyNode 1 first, emptyNode 2 second], [], []⟩

def twoModuleGraph : BytecodeGraph :=
  (new.apply (twoModules 0 "a.gfs" "b.gfs")).toOption.getD new

theorem apply_twoModules : new.apply (twoModules 0 "a.gfs" "b.gfs") = .ok twoModuleGraph := by
  decide +kernel

theorem apply_exact_twoModules : Exact new (twoModules 0 "a.gfs" "b.gfs") twoModuleGraph :=
  (apply_exact new (.empty _) _).1 _ apply_twoModules

/-- The two modules cannot exchange their paths. -/
theorem apply_refuses_exchange :
    Reachable twoModuleGraph ∧ twoModuleGraph.Acceptable (twoModules 1 "b.gfs" "a.gfs") ∧
      ¬∃ next, twoModuleGraph.apply (twoModules 1 "b.gfs" "a.gfs") = .ok next := by
  have hg : Reachable twoModuleGraph := .apply (.empty _) apply_twoModules
  have hv : (twoModuleGraph.described (twoModules 1 "b.gfs" "a.gfs")).validate = .ok () := by
    decide +kernel
  have hp := distinctPaths_of_validate (g := twoModuleGraph.described _) hg.ownIds.described hv
  refine ⟨hg, ⟨by decide +kernel, by decide, by decide, by decide, hp, hv⟩, ?_⟩
  rw [exists_apply_iff hg.ownIds hg.distinctPaths]
  rintro ⟨-, hm⟩
  exact hm ⟨emptyNode 1 "b.gfs", List.mem_cons_self, emptyNode 2 "a.gfs", by
    simp [twoModules], by decide, emptyNode 2 "b.gfs", by decide +kernel, rfl⟩

end Galfus.Package.BytecodeGraph
