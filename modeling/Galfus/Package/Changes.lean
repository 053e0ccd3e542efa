import Galfus.Package.Publication

/-! # The modules that publication changes

What becomes of the modules of a graph does not depend on the finalised graph. The nodes that
are upserted are those that differ from the finalised ones.
-/

namespace Galfus.Package

open OrderedTable (lookup_eq_some lookup_insert lookup_ofList_eq_some mem_values ofList)
open List (map_cons map_map mem_cons mem_map)
open Option (bind_eq_some_iff bind_eq_bind map_eq_some_iff bind_eq_none_iff getD_some getD_none
  bind_some)

section Lists

variable {α β : Type}

theorem mapM_eq_some {f : α → Option β} {l : List α} {l' : List β} :
    l.mapM f = some l' ↔ List.Forall₂ (fun a b => f a = some b) l l' := by
  induction l generalizing l' with
  | nil => simp [eq_comm]
  | cons a l ih =>
    simp only [List.mapM_cons, bind_eq_bind, bind_eq_some_iff, ih]
    constructor
    · rintro ⟨b, hb, bs, hbs, heq⟩
      obtain rfl := Option.some.inj heq
      exact .cons hb hbs
    · rintro ⟨⟩
      next b bs hb hbs => exact ⟨b, hb, bs, hbs, rfl⟩

theorem forall₂_left {r : α → β → Prop} {l : List α} {l' : List β} (h : List.Forall₂ r l l')
    {a : α} (ha : a ∈ l) : ∃ b ∈ l', r a b := by
  induction h with
  | nil => cases ha
  | cons hr _ ih =>
    rcases mem_cons.mp ha with rfl | ha
    · exact ⟨_, List.mem_cons_self, hr⟩
    · obtain ⟨b, hb, hab⟩ := ih ha
      exact ⟨b, List.mem_cons_of_mem _ hb, hab⟩

theorem forall₂_imp_of_mem {r s : α → β → Prop} {l : List α} {l' : List β}
    (h : List.Forall₂ r l l') (hs : ∀ a, ∀ b ∈ l', r a b → s a b) : List.Forall₂ s l l' := by
  induction h with
  | nil => exact .nil
  | cons hr _ ih =>
    exact .cons (hs _ _ List.mem_cons_self hr) (ih fun a b hb => hs a b (List.mem_cons_of_mem _ hb))

theorem keep_length (k : Finset ℕ) (l : List α) : (keep k l).length ≤ l.length := by
  have := List.length_filter_le (fun e : α × ℕ => decide (e.2 ∈ k)) l.zipIdx
  rwa [List.length_zipIdx, ← List.length_map (f := Prod.fst)] at this

theorem keep_eq_self {k : Finset ℕ} {l : List α} (h : (keep k l).length = l.length) :
    keep k l = l := by
  unfold keep at h ⊢
  rw [List.length_map] at h
  rw [List.filter_eq_self.mpr, List.zipIdx_map_fst]
  exact List.length_filter_eq_length_iff.mp (h.trans List.length_zipIdx.symm)

end Lists

section Constants

variable {cs' : List Constant}

def isFloat : Constant → Bool
  | .float32 _ | .float64 _ => true
  | _ => false

/-- A floating-point constant is still the same one. -/
def FloatKept (c c' : Constant) : Prop := isFloat c ∨ isFloat c' → c = c'

theorem FloatKept.trans {c c' c'' : Constant} (h : FloatKept c c') (h' : FloatKept c' c'') :
    FloatKept c c'' := by
  rintro (hc | hc)
  · obtain rfl := h (.inl hc)
    exact h' (.inl hc)
  · obtain rfl := h' (.inr hc)
    exact h (.inr hc)

theorem FloatKept.eq_of_same {c c' : Constant} (h : FloatKept c c') (hs : sameConstant c c') :
    c = c' := by
  unfold sameConstant at hs
  split at hs
  · exact h (.inl rfl)
  · exact h (.inl rfl)
  · exact beq_iff_eq.mp hs

theorem floatKept_remapConstant {function : ℕ → Option ℕ} {c c' : Constant}
    (h : remapConstant function c = some c') : FloatKept c c' := by
  cases c with
  | function idx =>
    obtain ⟨idx', -, rfl⟩ := Option.map_eq_some_iff.mp h
    simp [FloatKept, isFloat]
  | _ => exact fun _ => Option.some.inj h

/-- No constants are added, and if none is left out the floating-point ones are the same. -/
def Shrinks (cs cs' : List Constant) : Prop :=
  cs'.length ≤ cs.length ∧ (cs'.length = cs.length → List.Forall₂ FloatKept cs cs')

theorem Shrinks.refl (cs : List Constant) : Shrinks cs cs :=
  ⟨le_rfl, fun _ => List.forall₂_same.mpr fun _ _ _ => rfl⟩

theorem forall₂_trans {α : Type} {r : α → α → Prop} (hr : ∀ a b c, r a b → r b c → r a c)
    {l l' l'' : List α} (h : List.Forall₂ r l l') (h' : List.Forall₂ r l' l'') :
    List.Forall₂ r l l'' := by
  induction h generalizing l'' with
  | nil => exact h'
  | cons hab _ ih =>
    cases h' with
    | cons hbc h' => exact .cons (hr _ _ _ hab hbc) (ih h')

theorem Shrinks.trans {cs cs'' : List Constant} (h : Shrinks cs cs') (h' : Shrinks cs' cs'') :
    Shrinks cs cs'' := by
  refine ⟨h'.1.trans h.1, fun heq => ?_⟩
  have hl : cs'.length = cs.length := le_antisymm h.1 (heq ▸ h'.1)
  exact forall₂_trans (r := FloatKept) (fun _ _ _ => .trans) (h.2 hl) (h'.2 (heq.trans hl.symm))

theorem length_eq_of_sameConstants {cs : List Constant} (h : sameConstants cs cs') :
    cs.length = cs'.length := by
  induction cs generalizing cs' with
  | nil =>
    cases cs' with
    | nil => rfl
    | cons _ _ => cases h
  | cons c cs ih =>
    cases cs' with
    | nil => cases h
    | cons c' cs' =>
      simp only [sameConstants, Bool.and_eq_true] at h
      rw [List.length_cons, List.length_cons, ih h.2]

theorem Shrinks.eq_of_same {cs : List Constant} (h : Shrinks cs cs') (hs : sameConstants cs cs') :
    cs = cs' := by
  have hl := length_eq_of_sameConstants hs
  have hk := h.2 hl.symm
  clear h hl
  induction hk with
  | nil => rfl
  | cons hc _ ih =>
    simp only [sameConstants, Bool.and_eq_true] at hs
    rw [hc.eq_of_same hs.1, ih hs.2]

end Constants

section Nodes

variable {passes : Passes} {n n' : BytecodeNode} {ns : Finset String}

theorem sameNode_iff : sameNode n n' ↔ sameConstants n.module.constants n'.module.constants ∧
      { n with module := { n.module with constants := [] } } =
        { n' with module := { n'.module with constants := [] } } := by
  simp [sameNode]

theorem eq_of_sameNode (h : sameNode n n') (hc : n.module.constants = n'.module.constants) :
    n = n' := by
  obtain ⟨id, p, r, m, md⟩ := n
  obtain ⟨id', p', r', m', md'⟩ := n'
  have hr := (sameNode_iff.mp h).2
  cases m
  cases m'
  simp_all

theorem path_eq_of_sameNode (h : sameNode n n') : n.path = n'.path := by
  have := congrArg BytecodeNode.path (sameNode_iff.mp h).2
  exact this

theorem shrinks_pruneNode (h : pruneNode passes n ns = some n') :
    Shrinks n.module.constants n'.module.constants ∧ n'.id = n.id ∧ n'.path = n.path := by
  obtain ⟨⟨m, r⟩, hp, rfl⟩ := Option.map_eq_some_iff.mp h
  refine ⟨?_, rfl, rfl⟩
  simp only [pruneModule, bind_eq_bind, bind_eq_some_iff, Option.some.injEq] at hp
  obtain ⟨i, -, es, -, cs, hc, fs, -, hm⟩ := hp
  obtain ⟨rfl, -⟩ := Prod.mk.inj hm
  have hf := mapM_eq_some.mp hc
  have hl := hf.length_eq
  refine ⟨hl ▸ keep_length _ _, fun heq => ?_⟩
  rw [keep_eq_self (hl.trans heq)] at hf
  exact hf.imp fun _ _ => floatKept_remapConstant

/-- What the optimisation of a module leaves alone. -/
structure Derives (n n' : BytecodeNode) : Prop where
  constants : Shrinks n.module.constants n'.module.constants
  id : n'.id = n.id
  path : n'.path = n.path

theorem Derives.refl (n : BytecodeNode) : Derives n n := ⟨.refl _, rfl, rfl⟩

theorem Derives.trans {n'' : BytecodeNode} (h : Derives n n') (h' : Derives n' n'') :
    Derives n n'' :=
  ⟨h.constants.trans h'.constants, h'.id.trans h.id, h'.path.trans h.path⟩

/-- A module that is optimised to one that compares equal is not changed. -/
theorem Derives.eq_of_same (h : Derives n n') (hs : sameNode n n') : n = n' :=
  eq_of_sameNode hs (h.constants.eq_of_same (sameNode_iff.mp hs).1)

theorem derives_pruneNode (h : pruneNode passes n ns = some n') : Derives n n' :=
  ⟨(shrinks_pruneNode h).1, (shrinks_pruneNode h).2.1, (shrinks_pruneNode h).2.2⟩

theorem optimizeFunctions_unchanged {fs : List BytecodeFunction} {s s' : OptimizedFunctions}
    (h : fs.foldlM (optimizeFunctionAt passes) s = some s') (hs : s'.changed = false) :
    s.changed = false ∧ s'.functions = s.functions ++ fs ∧ s'.metadata = s.metadata := by
  induction fs generalizing s with
  | nil =>
    obtain rfl := Option.some.inj h
    simp [hs]
  | cons f fs ih =>
    obtain ⟨m, hmd, hr⟩ := Option.bind_eq_some_iff.mp h
    obtain ⟨hc, hf, hm⟩ := ih hr
    obtain ⟨optimized, -, rfl⟩ := Option.map_eq_some_iff.mp hmd
    split at hc
    · next heq =>
      rw [if_pos heq] at hf hm
      exact ⟨hc, by simp [hf], hm⟩
    · cases hc

theorem derives_pruneIfNeeded (h : pruneIfNeeded passes ns n = some n') : Derives n n' := by
  unfold pruneIfNeeded at h
  split at h
  · exact derives_pruneNode h
  · obtain rfl := Option.some.inj h
    exact .refl n

theorem optimizeNode_spec {o : OptimizedNode} (h : optimizeNode passes ns n = some o) :
    Derives n o.node ∧ (o.changed = false → o.node = n) := by
  simp only [optimizeNode, bind_eq_bind, bind_eq_some_iff, Option.some.injEq] at h
  obtain ⟨nn, hn, s, hs, rfl⟩ := h
  refine ⟨(derives_pruneIfNeeded hn).trans ⟨.refl _, rfl, rfl⟩, fun hc => ?_⟩
  obtain ⟨hp, hf, hm⟩ := optimizeFunctions_unchanged hs hc
  dsimp only at hp hf hm
  rw [pruneIfNeeded, if_neg (by simp [hp])] at hn
  obtain rfl := Option.some.inj hn
  rw [hf, hm]
  rfl

end Nodes

section Modules

variable (passes : Passes) {nodes : List BytecodeNode}

def secondPass (callGraphChanged : Bool) (nodes : List BytecodeNode) : Option (List BytecodeNode) :=
  if callGraphChanged then
    nodes.mapM (pruneIfNeeded passes (globalMethodNames (nodes.map (·.module))))
  else some nodes

def optimizedNodes (graph : BytecodeGraph) : Option (List BytecodeNode) :=
  (graph.modules.values.mapM
    (optimizeNode passes (globalMethodNames (graph.modules.values.map (·.module))))).bind
    fun optimized => secondPass passes (optimized.any (·.callGraphChanged)) (optimized.map (·.node))

def optimizedModules (graph : BytecodeGraph) : Option (OrderedTable ModuleId BytecodeNode) :=
  (optimizedNodes passes graph).map fun nodes => .ofList (nodes.map fun n => (n.id, n))

variable {passes} {gr finalized : BytecodeGraph}

theorem derives_secondPass {b : Bool} {ns' : List BytecodeNode}
    (h : secondPass passes b nodes = some ns') : List.Forall₂ Derives nodes ns' := by
  unfold secondPass at h
  split at h
  · exact (mapM_eq_some.mp h).imp fun _ _ => derives_pruneIfNeeded
  · obtain rfl := Option.some.inj h
    exact List.forall₂_same.mpr fun n _ => .refl n

theorem derives_firstPass {names : Finset String} {optimized : List OptimizedNode}
    (h : gr.modules.values.mapM (optimizeNode passes names) = some optimized) :
    List.Forall₂ Derives gr.modules.values (optimized.map (·.node)) := by
  rw [List.forall₂_map_right_iff]
  exact (mapM_eq_some.mp h).imp fun _ _ h => (optimizeNode_spec h).1

theorem derives_optimizedNodes (h : optimizedNodes passes gr = some nodes) :
    List.Forall₂ Derives gr.modules.values nodes := by
  obtain ⟨optimized, ho, hn⟩ := Option.bind_eq_some_iff.mp h
  exact forall₂_trans (r := Derives) (fun _ _ _ => .trans) (derives_firstPass ho)
    (derives_secondPass hn)

theorem nodup_ids {modules : OrderedTable ModuleId BytecodeNode}
    (hown : BytecodeGraph.OwnIds modules) : (modules.values.map (·.id)).Nodup := by
  have hk : modules.values.map (·.id) = modules.keys := by
    rw [OrderedTable.values, map_map]
    exact List.map_congr_left (BytecodeGraph.ownIds_iff.mp hown)
  rw [hk]
  exact List.pairwise_map.mpr (modules.sorted.imp ne_of_lt)

theorem nodup_ids_of_derives (hown : BytecodeGraph.OwnIds gr.modules)
    (h : List.Forall₂ Derives gr.modules.values nodes) : (nodes.map (·.id)).Nodup := by
  have hi : nodes.map (·.id) = gr.modules.values.map (·.id) :=
    List.forall₂_eq_eq_eq ▸ List.forall₂_map_left_iff.mpr (List.forall₂_map_right_iff.mpr
      (h.flip.imp fun _ _ h => h.id))
  rw [hi]
  exact nodup_ids hown

theorem lookup_ofList_filter {t : OrderedTable ModuleId BytecodeNode} {p : BytecodeNode → Bool}
    {id : ModuleId} {n : BytecodeNode} :
    (ofList (t.entries.filter fun e => p e.2)).lookup id = some n ↔
      t.lookup id = some n ∧ p n = true := by
  rw [lookup_ofList_eq_some, List.mem_filter, lookup_eq_some]
  intro k a b ha hb
  have ha := lookup_eq_some.mpr (List.mem_of_mem_filter ha)
  have hb := lookup_eq_some.mpr (List.mem_of_mem_filter hb)
  exact Option.some.inj (ha.symm.trans hb)

theorem lookup_table (hi : (nodes.map (·.id)).Nodup) {id : ModuleId} {n : BytecodeNode} :
    (ofList (nodes.map fun n => (n.id, n))).lookup id = some n ↔ n ∈ nodes ∧ n.id = id := by
  rw [lookup_ofList_eq_some]
  · simp only [mem_map, Prod.mk.injEq]
    constructor
    · rintro ⟨n', hn', rfl, rfl⟩
      exact ⟨hn', rfl⟩
    · rintro ⟨hn, rfl⟩
      exact ⟨n, hn, rfl, rfl⟩
  · intro k a b ha hb
    obtain ⟨a', ha', heq⟩ := mem_map.mp ha
    obtain ⟨b', hb', heb⟩ := mem_map.mp hb
    obtain ⟨rfl, rfl⟩ := Prod.mk.inj heq
    obtain ⟨hid, rfl⟩ := Prod.mk.inj heb
    exact List.inj_on_of_nodup_map hi ha' hb' hid.symm

section SecondPass

variable {ns : Finset String} {t t' : OrderedTable ModuleId BytecodeNode}

theorem pruneAgain_map (n : BytecodeNode) : (pruneAgain passes ns t n).map (currentNode · n) =
      pruneIfNeeded passes ns (currentNode t n) := by
  dsimp only [pruneAgain]
  unfold pruneIfNeeded
  split
  · simp [currentNode, lookup_insert, Function.comp_def]
  · rfl

theorem pruneAgain_kept {n : BytecodeNode} (h : pruneAgain passes ns t n = some t') :
    (∀ id ≠ n.id, t'.lookup id = t.lookup id) ∧ (t'.lookup n.id = none → t.lookup n.id = none) := by
  dsimp only [pruneAgain] at h
  split at h
  · obtain ⟨p, -, rfl⟩ := Option.map_eq_some_iff.mp h
    refine ⟨fun id hid => ?_, fun h => ?_⟩
    · rw [lookup_insert, if_neg hid]
    · rw [lookup_insert, if_pos rfl] at h
      cases h
  · obtain rfl := Option.some.inj h
    exact ⟨fun _ _ => rfl, fun h => h⟩

theorem currentNode_congr {n : BytecodeNode} (h : t'.lookup n.id = t.lookup n.id) :
    currentNode t' n = currentNode t n := by
  rw [currentNode, currentNode, h]

theorem foldlM_pruneAgain_kept (h : nodes.foldlM (pruneAgain passes ns) t = some t') :
    (∀ id ∉ nodes.map (·.id), t'.lookup id = t.lookup id) ∧
      ∀ id, t'.lookup id = none → t.lookup id = none := by
  induction nodes generalizing t with
  | nil =>
    obtain rfl := Option.some.inj h
    simp
  | cons n nodes ih =>
    obtain ⟨m, hm, hr⟩ := Option.bind_eq_some_iff.mp h
    obtain ⟨hkp, hnn⟩ := pruneAgain_kept hm
    obtain ⟨hk, hn⟩ := ih hr
    refine ⟨fun id hid => ?_, fun id hid => ?_⟩
    · rw [map_cons, mem_cons, not_or] at hid
      rw [hk id hid.2, hkp id hid.1]
    · have := hn id hid
      by_cases heq : id = n.id
      · subst heq
        exact hnn this
      · rwa [hkp id heq] at this

/-- Pruning the nodes in the table is pruning each of them. -/
theorem foldlM_pruneAgain (hi : (nodes.map (·.id)).Nodup) :
    (nodes.foldlM (pruneAgain passes ns) t).map (fun t' => nodes.map (currentNode t')) =
      (nodes.map (currentNode t)).mapM (pruneIfNeeded passes ns) := by
  induction nodes generalizing t with
  | nil => rfl
  | cons n nodes ih =>
    rw [map_cons, List.nodup_cons] at hi
    rw [List.foldlM_cons, map_cons, List.mapM_cons, ← pruneAgain_map]
    cases hm : pruneAgain passes ns t n with
    | none => rfl
    | some m =>
      have hr : nodes.map (currentNode t) = nodes.map (currentNode m) := by
        refine List.map_congr_left fun n' hn' => (currentNode_congr ?_).symm
        exact (pruneAgain_kept hm).1 _ fun heq => hi.1 (heq ▸ List.mem_map_of_mem hn')
      rw [hr, ← ih hi.2]
      cases hl : nodes.foldlM (pruneAgain passes ns) m with
      | none => simp [hl]
      | some t' =>
        simp [hl, currentNode_congr ((foldlM_pruneAgain_kept hl).1 _ hi.1)]

theorem pruneAfterCalls_map (hown : BytecodeGraph.OwnIds gr.modules) (b : Bool) :
    (pruneAfterCalls passes gr b t).map (fun t' => gr.modules.values.map (currentNode t')) =
      secondPass passes b (gr.modules.values.map (currentNode t)) := by
  unfold pruneAfterCalls secondPass
  split
  · rw [foldlM_pruneAgain (nodup_ids hown), map_map]
    rfl
  · rfl

theorem pruneAfterCalls_kept {b : Bool} (h : pruneAfterCalls passes gr b t = some t') :
    (∀ id ∉ gr.modules.values.map (·.id), t'.lookup id = t.lookup id) ∧
      ∀ id, t'.lookup id = none → t.lookup id = none := by
  unfold pruneAfterCalls at h
  split at h
  · exact foldlM_pruneAgain_kept h
  · obtain rfl := Option.some.inj h
    exact ⟨fun _ _ => rfl, fun _ h => h⟩

end SecondPass

section FirstPass

variable {ns : Finset String} {optimized : List OptimizedNode}

def firstChanges (finalized : BytecodeGraph) (optimized : List OptimizedNode) :
    OrderedTable ModuleId BytecodeNode :=
  .ofList ((optimized.filter fun o => o.changed || !unchangedIn finalized o.node).map
    fun o => (o.node.id, o.node))

section

variable (hw : BytecodeGraph.OwnIds gr.modules)
  (h : gr.modules.values.mapM (optimizeNode passes ns) = some optimized)
include hw h

theorem nodup_ids_firstPass : (optimized.map (·.node.id)).Nodup := by
  have hi := nodup_ids_of_derives hw (derives_firstPass h)
  rwa [map_map] at hi

theorem lookup_firstChanges {id : ModuleId} {m : BytecodeNode} :
    (firstChanges finalized optimized).lookup id = some m ↔
      ∃ o ∈ optimized, (o.changed = true ∨ unchangedIn finalized o.node = false) ∧
        o.node = m ∧ m.id = id := by
  have ht : firstChanges finalized optimized = .ofList
      (((optimized.filter fun o => o.changed || !unchangedIn finalized o.node).map
        (·.node)).map fun n => (n.id, n)) := by
    rw [map_map]
    rfl
  rw [ht, lookup_table]
  · simp only [mem_map, List.mem_filter, Bool.or_eq_true, Bool.not_eq_true', and_assoc]
    constructor
    · rintro ⟨⟨o, ho, hs, rfl⟩, hid⟩
      exact ⟨o, ho, hs, rfl, hid⟩
    · rintro ⟨o, ho, hs, rfl, hid⟩
      exact ⟨⟨o, ho, hs, rfl⟩, hid⟩
  · rw [map_map]
    exact (nodup_ids_firstPass hw h).sublist (List.filter_sublist.map _)

end

theorem currentNode_firstChanges (finalized : BytecodeGraph)
    (hown : BytecodeGraph.OwnIds gr.modules)
    (h : gr.modules.values.mapM (optimizeNode passes ns) = some optimized) :
    gr.modules.values.map (currentNode (firstChanges finalized optimized)) =
      optimized.map (·.node) := by
  rw [← List.forall₂_eq_eq_eq, List.forall₂_map_left_iff, List.forall₂_map_right_iff]
  refine forall₂_imp_of_mem (mapM_eq_some.mp h) fun n o ho hno => ?_
  obtain ⟨hdr, hun⟩ := optimizeNode_spec hno
  by_cases hsl : o.changed = true ∨ unchangedIn finalized o.node = false
  · have hlk : (firstChanges finalized optimized).lookup n.id = some o.node :=
      (lookup_firstChanges hown h).mpr ⟨o, ho, hsl, rfl, hdr.id⟩
    rw [currentNode, hlk, getD_some]
  · have hlk : (firstChanges finalized optimized).lookup n.id = none := by
      rw [Option.eq_none_iff_forall_ne_some]
      intro m hm
      obtain ⟨o', ho', hsl', rfl, hid⟩ := (lookup_firstChanges hown h).mp hm
      obtain rfl : o' = o := List.inj_on_of_nodup_map (nodup_ids_firstPass hown h) ho' ho
        (hid.trans hdr.id.symm)
      exact hsl hsl'
    rw [currentNode, hlk]
    exact (hun (by simpa using fun hc => hsl (.inl hc))).symm

end FirstPass

variable (hw : BytecodeGraph.OwnIds gr.modules)
include hw

theorem lookup_optimizedModules {M : OrderedTable ModuleId BytecodeNode}
    (h : optimizedModules passes gr = some M) :
    (∀ id g, gr.modules.lookup id = some g → ∃ n, M.lookup id = some n) ∧
      ∀ id n, M.lookup id = some n → ∃ g, gr.modules.lookup id = some g ∧ Derives g n := by
  obtain ⟨nodes, hnd, rfl⟩ := Option.map_eq_some_iff.mp h
  have hd := derives_optimizedNodes hnd
  have hi := nodup_ids_of_derives hw hd
  constructor
  · intro id g hg
    obtain ⟨n, hn, hgn⟩ := forall₂_left hd (mem_values.mpr ⟨id, hg⟩)
    exact ⟨n, (lookup_table hi).mpr ⟨hn, hgn.id.trans (hw id g hg)⟩⟩
  · intro id n hn
    obtain ⟨hm, rfl⟩ := (lookup_table hi).mp hn
    obtain ⟨g, hg, hgn⟩ := forall₂_left hd.flip hm
    obtain ⟨id, hid⟩ := mem_values.mp hg
    rw [hgn.id, hw id g hid]
    exact ⟨g, hid, hgn⟩

theorem optimizedNodes_eq {names : Finset String} {optimized : List OptimizedNode}
    (h : gr.modules.values.mapM (optimizeNode passes names) = some optimized) (b : Bool) :
    secondPass passes b (optimized.map (·.node)) =
      (pruneAfterCalls passes gr b (firstChanges finalized optimized)).map
        fun t => gr.modules.values.map (currentNode t) := by
  rw [pruneAfterCalls_map hw, currentNode_firstChanges finalized hw h]

theorem changedNodes_eq_none (h : changedNodes passes gr finalized = none) :
    optimizedModules passes gr = none := by
  rw [optimizedModules, Option.map_eq_none_iff, optimizedNodes, bind_eq_none_iff]
  intro optimized ho
  simp only [changedNodes, bind_eq_bind, ho, bind_some] at h
  rw [bind_eq_none_iff] at h
  rw [optimizedNodes_eq hw ho, Option.map_eq_none_iff, Option.eq_none_iff_forall_ne_some]
  intro t ht
  cases h t ht

/-- The upserted nodes are those of the optimised modules that are not in the finalised
graph. -/
theorem changedNodes_eq_some {c : OrderedTable ModuleId BytecodeNode}
    (h : changedNodes passes gr finalized = some c) :
    ∃ M, optimizedModules passes gr = some M ∧ ∀ id n,
      c.lookup id = some n ↔ M.lookup id = some n ∧ unchangedIn finalized n = false := by
  simp only [changedNodes, bind_eq_bind, bind_eq_some_iff] at h
  obtain ⟨optimized, hop, t, ht, hch⟩ := h
  change pruneAfterCalls passes gr _ (firstChanges finalized optimized) = some t at ht
  obtain ⟨hkp, hnn⟩ := pruneAfterCalls_kept ht
  have hnd : optimizedNodes passes gr = some (gr.modules.values.map (currentNode t)) := by
    rw [optimizedNodes, hop, bind_some, optimizedNodes_eq hw hop, ht, Option.map_some]
  have hdr (g : BytecodeNode) (hg : g ∈ gr.modules.values) : Derives g (currentNode t g) := by
    have := derives_optimizedNodes hnd
    rw [List.forall₂_map_right_iff, List.forall₂_same] at this
    exact this g hg
  refine ⟨_, by rw [optimizedModules, hnd, Option.map_some], fun id n => ?_⟩
  obtain rfl := Option.some.inj hch
  rw [lookup_ofList_filter (p := fun n => !unchangedIn finalized n), Bool.not_eq_true',
    lookup_table (nodup_ids_of_derives hw (derives_optimizedNodes hnd)),
    mem_map]
  refine and_congr_left fun hdf => ⟨fun hlk => ?_, ?_⟩
  · have hmm : id ∈ gr.modules.values.map (·.id) := by
      by_contra hid
      rw [hkp id hid, lookup_firstChanges hw hop] at hlk
      obtain ⟨o, ho, -, rfl, rfl⟩ := hlk
      obtain ⟨g, hg, hgo⟩ := forall₂_left (mapM_eq_some.mp hop).flip ho
      exact hid (mem_map.mpr ⟨g, hg, (optimizeNode_spec hgo).1.id.symm⟩)
    obtain ⟨g, hg, rfl⟩ := mem_map.mp hmm
    have heq : currentNode t g = n := by rw [currentNode, hlk, getD_some]
    exact ⟨⟨g, hg, heq⟩, heq ▸ (hdr g hg).id⟩
  · rintro ⟨⟨g, hg, rfl⟩, rfl⟩
    rw [(hdr g hg).id]
    cases hlk : t.lookup g.id with
    | some m => rw [currentNode, hlk, getD_some]
    | none =>
      have hfr := hnn g.id hlk
      have hcr : g ∈ optimized.map (·.node) := by
        rw [← currentNode_firstChanges finalized hw hop]
        exact mem_map.mpr ⟨g, hg, by rw [currentNode, hfr, getD_none]⟩
      obtain ⟨o, ho, rfl⟩ := mem_map.mp hcr
      rw [currentNode, hlk] at hdf
      cases hfr.symm.trans ((lookup_firstChanges hw hop).mpr ⟨o, ho, .inr hdf, rfl, rfl⟩)

end Modules

end Galfus.Package
