import Galfus.Dataflow.RoundRobin
import Galfus.Mir.Basic

/-! # Dominators

A block dominates another one if every path from the entry to that one passes through it. The
sets of dominators are found by iteration, from sets that contain every block. Blocks have
distinct ids, so that a vector with an entry for each block is a function of the id.
-/

namespace Galfus.Mir

structure Dominators where
  indices : List BlockId
  sets : BlockId → Finset BlockId

def Dominators.dominates (d : Dominators) (block candidate : BlockId) : Bool :=
  decide (block ∈ d.indices ∧ candidate ∈ d.indices ∧ candidate ∈ d.sets block)

namespace MirFunction

variable (f : MirFunction)

def ids : List BlockId :=
  f.blocks.map (·.id)

/-- The sources of the edges into a block, in the order in which they are pushed. -/
def predecessors (target : BlockId) : List BlockId :=
  f.blocks.flatMap fun block =>
    (block.terminator.successors.filter fun s => s.1 = target ∧ target ∈ f.ids).map
      fun _ => block.id

/-- The entry, and a block without predecessors, keep their first sets. -/
abbrev Skipped (block : BlockId) : Prop :=
  f.ids.head? = some block ∨ f.predecessors block = []

def initialSet (block : BlockId) : Finset BlockId :=
  if f.Skipped block then {block} else f.ids.toFinset

def nextSet (sets : BlockId → Finset BlockId) (block : BlockId) : Finset BlockId :=
  if f.ids.head? = some block then sets block
  else match f.predecessors block with
    | [] => sets block
    | first :: rest =>
      insert block (rest.foldl (fun next predecessor => next ∩ sets predecessor) (sets first))

/-- Sets only lose members, so there are at most as many rounds as members, and a last one. -/
def dominators : Option Dominators := do
  let sets ← RoundRobin.solve f.nextSet f.ids (f.ids.length * f.ids.length + 1) f.initialSet
  some ⟨f.ids, sets⟩

/-- A block may jump to another block of the function. -/
def Edge (a b : BlockId) : Prop :=
  ∃ block ∈ f.blocks, block.id = a ∧ b ∈ block.terminator.successors.map Prod.fst ∧ b ∈ f.ids

/-- A path from the entry to a block, with the blocks that it passes through. -/
inductive PathTo : BlockId → List BlockId → Prop
  | entry {b : BlockId} : f.ids.head? = some b → PathTo b [b]
  | edge {a b : BlockId} {visited : List BlockId} :
      PathTo a visited → f.Edge a b → PathTo b (b :: visited)

variable {f} {s r : BlockId → Finset BlockId} {b c : BlockId} {visited : List BlockId}

theorem mem_foldl_inter {next : Finset BlockId} {ps : List BlockId} :
    c ∈ ps.foldl (fun next p => next ∩ s p) next ↔ c ∈ next ∧ ∀ p ∈ ps, c ∈ s p := by
  induction ps generalizing next with
  | nil => simp
  | cons p ps ih => rw [List.foldl_cons, ih, Finset.mem_inter, List.forall_mem_cons, and_assoc]

theorem nextSet_of_skipped (h : f.Skipped b) : f.nextSet s b = s b := by
  unfold nextSet
  split
  · rfl
  · next hne => rw [h.resolve_left hne]

theorem mem_nextSet (h : ¬f.Skipped b) :
    c ∈ f.nextSet s b ↔ c = b ∨ ∀ p ∈ f.predecessors b, c ∈ s p := by
  obtain ⟨hen, hn⟩ := not_or.mp h
  rw [nextSet, if_neg hen]
  cases hp : f.predecessors b with
  | nil => exact absurd hp hn
  | cons first rs =>
    rw [Finset.mem_insert, mem_foldl_inter, List.forall_mem_cons]

theorem monotone_nextSet : Monotone f.nextSet := by
  intro s s' hs b c hc
  by_cases h : f.Skipped b
  · rw [nextSet_of_skipped h] at hc ⊢
    exact hs b hc
  · rw [mem_nextSet h] at hc ⊢
    exact hc.imp_right fun ha p hp => hs p (ha p hp)

theorem mem_predecessors {a : BlockId} : a ∈ f.predecessors b ↔ f.Edge a b := by
  simp only [predecessors, Edge, List.mem_flatMap, List.mem_map, List.mem_filter, decide_eq_true_eq]
  constructor
  · rintro ⟨bl, hbl, s, ⟨hs, rfl, hb⟩, rfl⟩
    exact ⟨bl, hbl, rfl, ⟨s, hs, rfl⟩, hb⟩
  · rintro ⟨bl, hbl, rfl, ⟨s, hs, rfl⟩, hb⟩
    exact ⟨bl, hbl, s, ⟨hs, rfl, hb⟩, rfl⟩

theorem Edge.mem {a : BlockId} (h : f.Edge a b) : a ∈ f.ids ∧ b ∈ f.ids := by
  obtain ⟨bl, hbl, rfl, -, hb⟩ := h
  exact ⟨List.mem_map_of_mem hbl, hb⟩

theorem PathTo.mem (h : f.PathTo b visited) (hc : c ∈ visited) : c ∈ f.ids := by
  induction h with
  | entry hb => exact List.mem_of_mem_head? (List.mem_singleton.mp hc ▸ hb)
  | edge _ hab ih =>
    rcases List.mem_cons.mp hc with rfl | hc
    · exact hab.mem.2
    · exact ih hc

theorem nextSet_initialSet_le : f.nextSet f.initialSet ≤ f.initialSet := by
  intro b c hc
  by_cases h : f.Skipped b
  · rwa [nextSet_of_skipped h] at hc
  · obtain ⟨p, hp⟩ := List.exists_mem_of_ne_nil _ (not_or.mp h).2
    obtain ⟨hpm, hb⟩ := (mem_predecessors.mp hp).mem
    rw [initialSet, if_neg h, List.mem_toFinset]
    rcases (mem_nextSet h).mp hc with rfl | ha
    · exact hb
    · have hc := ha p hp
      unfold initialSet at hc
      split at hc
      · rwa [Finset.mem_singleton.mp hc]
      · exact List.mem_toFinset.mp hc

theorem size_initialSet : RoundRobin.size f.ids f.initialSet ≤ f.ids.length * f.ids.length := by
  have hc (b : BlockId) (hb : b ∈ f.ids.toFinset) : (f.initialSet b).card ≤ f.ids.length := by
    unfold initialSet
    split
    · rw [Finset.card_singleton]
      exact List.length_pos_of_mem (List.mem_toFinset.mp hb)
    · exact f.ids.toFinset_card_le
  exact (Finset.sum_le_card_nsmul _ _ _ hc).trans (Nat.mul_le_mul_right _ f.ids.toFinset_card_le)

/-- Along a path, what is in the set of a block has been passed. -/
theorem PathTo.mem_of_mem_set (hr : r ≤ f.initialSet) (hf : ∀ b ∈ f.ids, f.nextSet r b = r b)
    (h : f.PathTo b visited) (hc : c ∈ r b) : c ∈ visited := by
  have hs {b : BlockId} {visited : List BlockId} (hb : f.Skipped b) (hc : c ∈ r b) :
      c ∈ b :: visited := by
    have hc := hr b hc
    rw [initialSet, if_pos hb, Finset.mem_singleton] at hc
    exact hc ▸ List.mem_cons_self
  induction h with
  | entry hb => exact hs (.inl hb) hc
  | @edge a b visited _ hab ih =>
    by_cases hb : f.Skipped b
    · exact hs hb hc
    · rw [← hf b hab.mem.2, mem_nextSet hb] at hc
      rcases hc with rfl | ha
      · exact List.mem_cons_self
      · exact List.mem_cons_of_mem _ (ih (ha a (mem_predecessors.mpr hab)))

open scoped Classical in
/-- The blocks that all paths to a block pass through. -/
noncomputable def passed (f : MirFunction) (b : BlockId) : Finset BlockId :=
  f.ids.toFinset.filter fun c => b ∈ f.ids ∧ ∀ visited, f.PathTo b visited → c ∈ visited

theorem mem_passed : c ∈ f.passed b ↔
    c ∈ f.ids ∧ b ∈ f.ids ∧ ∀ visited, f.PathTo b visited → c ∈ visited := by
  simp [passed]

theorem passed_le_nextSet : f.passed ≤ f.nextSet f.passed := by
  intro b c hc
  by_cases hb : f.Skipped b
  · rwa [nextSet_of_skipped hb]
  · rw [mem_nextSet hb, or_iff_not_imp_left]
    intro hne p hp
    have hpb := mem_predecessors.mp hp
    obtain ⟨hcm, -, ha⟩ := mem_passed.mp hc
    refine mem_passed.mpr ⟨hcm, hpb.mem.1, fun visited hpt => ?_⟩
    exact (List.mem_cons.mp (ha _ (hpt.edge hpb))).resolve_left hne

theorem passed_le_initialSet (ha : ∀ b ∈ f.ids, ∃ visited, f.PathTo b visited) :
    f.passed ≤ f.initialSet := by
  intro b c hc
  obtain ⟨hcm, hb, hps⟩ := mem_passed.mp hc
  unfold initialSet
  split
  · next hs =>
    have hp : f.PathTo b [b] := by
      rcases hs with hen | hn
      · exact .entry hen
      · obtain ⟨visited, hp⟩ := ha b hb
        cases hp with
        | entry hen => exact .entry hen
        | edge _ hab => exact absurd (hn ▸ mem_predecessors.mpr hab) List.not_mem_nil
    exact Finset.mem_singleton.mpr (List.mem_singleton.mp (hps _ hp))
  · exact List.mem_toFinset.mpr hcm

/-- The computation ends. What it takes for a dominator of a reachable block is on every path to it,
and when all blocks are reachable, it finds all dominators. -/
theorem dominates_spec (f : MirFunction) :
    ∃ d, f.dominators = some d ∧ ∀ b, (∃ visited, f.PathTo b visited) → ∀ c,
      (d.dominates b c = true → ∀ visited, f.PathTo b visited → c ∈ visited) ∧
      ((∀ b ∈ f.ids, ∃ visited, f.PathTo b visited) →
        (d.dominates b c = true ↔ ∀ visited, f.PathTo b visited → c ∈ visited)) := by
  obtain ⟨r, hsl, hr, hf, hg⟩ := RoundRobin.solve_spec monotone_nextSet
    nextSet_initialSet_le (Nat.lt_succ_of_le (size_initialSet (f := f)))
  refine ⟨⟨f.ids, r⟩, by rw [dominators, hsl]; rfl, fun b ⟨visited, hb⟩ c => ?_⟩
  have hs : Dominators.dominates ⟨f.ids, r⟩ b c = true →
      ∀ visited, f.PathTo b visited → c ∈ visited := fun hd visited hp =>
    hp.mem_of_mem_set hr hf (of_decide_eq_true hd).2.2
  refine ⟨hs, fun ha => ⟨hs, fun hc => decide_eq_true ?_⟩⟩
  have hbm : b ∈ f.ids := by
    cases hb with
    | entry hb => exact List.mem_of_mem_head? hb
    | edge _ hab => exact hab.mem.2
  have hcm := hb.mem (hc visited hb)
  exact ⟨hbm, hcm, hg f.passed passed_le_nextSet (passed_le_initialSet ha) b
    (mem_passed.mpr ⟨hcm, hbm, hc⟩)⟩

/-- A loop of two blocks. -/
def twoBlocks : MirFunction where
  id := 0
  name := "loop"
  returnType := 0
  parameterTypes := []
  locals := []
  blocks := [⟨0, [], [], .jump 1 []⟩, ⟨1, [], [], .jump 0 []⟩]
  isAsync := false

theorem dominates_spec_twoBlocks :
    ∃ d, twoBlocks.dominators = some d ∧ ∀ visited, twoBlocks.PathTo 1 visited → 0 ∈ visited := by
  obtain ⟨d, hd, hs⟩ := dominates_spec twoBlocks
  have hen : twoBlocks.PathTo 0 [0] := .entry rfl
  have hp := hen.edge (b := 1) ⟨_, .head _, rfl, by decide, by decide⟩
  refine ⟨d, hd, (hs 1 ⟨_, hp⟩ 0).1 ?_⟩
  cases hd.symm.trans (show twoBlocks.dominators = some _ from rfl)
  rfl

end MirFunction

end Galfus.Mir
