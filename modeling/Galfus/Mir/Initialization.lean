import Galfus.Mir.Validator

/-! # Initialised locals on the paths of a function

A path from the entry block makes a sequence of accesses to locals. A read is justified if
the local was written before it and not dropped since. The locals that the validator takes as
initialised are, on every path.
-/

namespace Galfus.Mir

open List (append_assoc append_eq_nil_iff cons mem_append_left mem_append_right mem_cons
  mem_cons_self mem_filterMap mem_map mem_singleton mem_toFinset not_mem_nil)
open Dataflow

inductive Access where
  | read (id : LocalId)
  | write (id : LocalId)
  | drop (id : LocalId)
  deriving DecidableEq, Repr

def reads (ops : List Operand) : List Access :=
  (ops.filterMap Operand.local?).map .read

def Instruction.accesses : Instruction → List Access
  | .drop id => [.drop id]
  | inst => reads inst.operands ++ inst.destination?.toList.map .write

/-- What a terminator reads besides its block arguments: the branch condition, the returned
value or the arguments of a tail call. -/
def Terminator.values : Terminator → List Operand
  | ret value => value.toList
  | branch cond _ _ _ _ => [cond]
  | tailCall _ args _ => args
  | jump _ _ | panic _ => []

def BasicBlock.accesses (b : BasicBlock) : List Access :=
  b.parameters.map (fun param => .write param.id) ++
    (b.instructions.flatMap Instruction.accesses ++ reads b.terminator.values)

/-- The accesses on a path from the entry of the function to the entry of a block. -/
inductive Path (f : MirFunction) : List Access → BasicBlock → Prop
  | entry {b : BasicBlock} (hb : b ∈ f.blocks) (hid : b.id = 0) :
      Path f ((Validator.parameterIds f).map .write) b
  | edge {τ : List Access} {b c : BasicBlock} {args : List Operand} (hp : Path f τ b)
      (he : (c.id, args) ∈ b.terminator.successors) (hc : c ∈ f.blocks) :
      Path f (τ ++ b.accesses ++ reads args) c

theorem Path.mem {f : MirFunction} {τ : List Access} {b : BasicBlock} (hp : Path f τ b) :
    b ∈ f.blocks := by
  cases hp with
  | entry hb _ => exact hb
  | edge _ _ hc => exact hc

def Initialized (τ : List Access) (id : LocalId) : Prop :=
  ∃ before after, τ = before ++ .write id :: after ∧ .drop id ∉ after

/-- After `τ`, every read in `σ` is of an initialised local. -/
def Justified (τ σ : List Access) : Prop :=
  ∀ before id after, σ = before ++ .read id :: after → Initialized (τ ++ before) id

/-- Every read on every path is justified: in the blocks, and in the arguments of the
edges between them. -/
def MirFunction.ReadsJustified (f : MirFunction) : Prop :=
  ∀ τ b, Path f τ b → Justified [] (τ ++ b.accesses) ∧
    ∀ e ∈ b.terminator.successors, Justified [] (τ ++ b.accesses ++ reads e.2)

/-- On every path, the locals passed as arguments to the next block are initialised. -/
def MirFunction.ArgumentsInitialized (f : MirFunction) : Prop :=
  ∀ τ b, Path f τ b → ∀ e ∈ b.terminator.successors, ∀ id, .loc id ∈ e.2 →
    Initialized (τ ++ b.accesses) id

section Traces

variable {τ σ : List Access}

theorem Initialized.append {id : LocalId} (h : Initialized τ id) (hσ : .drop id ∉ σ) :
    Initialized (τ ++ σ) id := by
  obtain ⟨bf, a, rfl, ha⟩ := h
  refine ⟨bf, a ++ σ, by simp, ?_⟩
  simp [ha, hσ]

theorem initialized_of_mem {id : LocalId} (h : .write id ∈ σ) (hσ : .drop id ∉ σ) :
    Initialized (τ ++ σ) id := by
  obtain ⟨bf, a, rfl⟩ := List.append_of_mem h
  refine ⟨τ ++ bf, a, by simp, ?_⟩
  intro hd
  exact hσ (mem_append_right _ (List.mem_cons_of_mem _ hd))

theorem Initialized.of_append {id : LocalId} (h : Initialized (τ ++ σ) id) (hσ : .write id ∉ σ) :
    Initialized τ id := by
  obtain ⟨bf, af, heq, ha⟩ := h
  rcases List.append_eq_append_iff.mp heq with ⟨r, rfl, ht⟩ | ⟨r, rfl, ht⟩
  · exact absurd (by rw [ht]; simp) hσ
  · cases r with
    | nil => exact absurd (by rw [← List.nil_append σ, ← ht]; simp) hσ
    | cons a r =>
      obtain ⟨rfl, rfl⟩ := cons.inj ht
      exact ⟨bf, r, rfl, fun hd => ha (mem_append_left _ hd)⟩

theorem justified_append {σ' : List Access} :
    Justified τ (σ ++ σ') ↔ Justified τ σ ∧ Justified (τ ++ σ) σ' := by
  constructor
  · intro h
    constructor
    · rintro bf id af rfl
      exact h bf id (af ++ σ') (by simp)
    · rintro bf id af rfl
      rw [append_assoc]
      exact h (σ ++ bf) id af (by simp)
  · rintro ⟨h, h'⟩ bf id af heq
    rcases List.append_eq_append_iff.mp heq with ⟨r, rfl, ht⟩ | ⟨r, rfl, ht⟩
    · have := h' r id af ht
      rwa [append_assoc] at this
    · cases r with
      | nil =>
        have := h' [] id af (by simpa using ht.symm)
        simpa using this
      | cons a r =>
        obtain ⟨rfl, _⟩ := cons.inj ht
        exact h bf id r (by simp)

theorem justified_of_no_read (h : ∀ id, .read id ∉ σ) : Justified τ σ := by
  rintro bf id a rfl
  exact absurd (by simp) (h id)

theorem mem_reads {o : List Operand} {a : Access} :
    a ∈ reads o ↔ ∃ id, .loc id ∈ o ∧ a = .read id := by
  unfold reads
  rw [mem_map]
  constructor
  · rintro ⟨id, hid, rfl⟩
    obtain ⟨op, hop, hl⟩ := mem_filterMap.mp hid
    cases op with
    | loc id' =>
      obtain rfl := Option.some.inj hl
      exact ⟨_, hop, rfl⟩
    | constant c | constRef i => cases hl
  · rintro ⟨id, hid, rfl⟩
    exact ⟨id, mem_filterMap.mpr ⟨_, hid, rfl⟩, rfl⟩

theorem drop_notMem_reads (o : List Operand) (id : LocalId) : .drop id ∉ reads o := by
  rw [mem_reads]
  rintro ⟨_, _, h⟩
  cases h

theorem write_notMem_reads (o : List Operand) (id : LocalId) : .write id ∉ reads o := by
  rw [mem_reads]
  rintro ⟨_, _, h⟩
  cases h

theorem justified_reads {o : List Operand} :
    Justified τ (reads o) ↔ ∀ id, .loc id ∈ o → Initialized τ id := by
  constructor
  · intro h id hid
    obtain ⟨bf, a, hs⟩ := List.append_of_mem (mem_reads.mpr ⟨id, hid, rfl⟩)
    refine (h bf id a hs).of_append fun hw => write_notMem_reads o id ?_
    rw [hs]
    exact mem_append_left _ hw
  · rintro h bf id a hs
    have hm : .read id ∈ reads o := hs ▸ mem_append_right bf mem_cons_self
    obtain ⟨id', hid', heq⟩ := mem_reads.mp hm
    obtain rfl := Access.read.inj heq
    refine (h _ hid').append fun hd => drop_notMem_reads o id ?_
    rw [hs]
    exact mem_append_left _ hd

end Traces

def AllInitialized (τ : List Access) (ids : Finset LocalId) : Prop :=
  ∀ id ∈ ids, Initialized τ id

namespace Validator

section Instructions

variable {f : MirFunction} {initialized : Finset LocalId} {i : Instruction} {id : LocalId}

theorem drop_mem_accesses (h : .drop id ∈ i.accesses) : i = .drop id := by
  cases i with
  | drop id' =>
    rw [Instruction.accesses, mem_singleton] at h
    rw [Access.drop.inj h]
  | _ =>
    rcases List.mem_append.mp h with h | h
    · exact absurd h (drop_notMem_reads _ id)
    · simp [Instruction.destination?] at h

theorem write_mem_accesses (h : i.destination? = some id) : .write id ∈ i.accesses := by
  cases i with
  | drop id' => cases h
  | _ => exact mem_append_right _ (by simp [h])

theorem mem_insertDestination (h : id ∈ insertDestination initialized i) :
    i.destination? = some id ∨ id ∈ initialized := by
  unfold insertDestination at h
  split at h
  · next dest hd =>
    rcases Finset.mem_insert.mp h with rfl | h
    · exact .inl hd
    · exact .inr h
  · exact .inr h

theorem eraseOperand_subset (op : Operand) : eraseOperand initialized op ⊆ initialized := by
  cases op with
  | loc id => exact Finset.erase_subset _ _
  | _ => exact subset_rfl

theorem eraseOperands_subset (o : List Operand) :
    o.foldl eraseOperand initialized ⊆ initialized := by
  induction o generalizing initialized with
  | nil => exact subset_rfl
  | cons op o ih => exact ih.trans (eraseOperand_subset op)

theorem eraseMoved_subset : eraseMoved initialized i ⊆ initialized := by
  unfold eraseMoved
  split
  all_goals first
    | exact eraseOperand_subset _
    | exact eraseOperands_subset _
    | exact Finset.erase_subset _ _
    | exact subset_rfl

theorem mem_applyInstruction (h : id ∈ applyInstruction initialized i) :
    i.destination? = some id ∨ id ∈ initialized ∧ i ≠ .drop id := by
  refine (mem_insertDestination h).imp_right fun h => ⟨eraseMoved_subset h, ?_⟩
  rintro rfl
  exact Finset.notMem_erase id initialized h

theorem mem_afterInstruction (h : id ∈ afterInstruction initialized i) :
    i.destination? = some id ∨ id ∈ initialized ∧ i ≠ .drop id := by
  cases i with
  | drop id' =>
    obtain ⟨hne, hm⟩ := Finset.mem_erase.mp h
    exact .inr ⟨hm, fun heq => hne (Instruction.drop.inj heq).symm⟩
  | _ => exact (mem_insertDestination h).imp_right fun h => ⟨h, Instruction.noConfusion⟩

theorem allInitialized_accesses {τ : List Access} {a : Finset LocalId}
    (hτ : AllInitialized τ initialized)
    (ha : ∀ id ∈ a, i.destination? = some id ∨ id ∈ initialized ∧ i ≠ .drop id) :
    AllInitialized (τ ++ i.accesses) a := by
  intro id hid
  rcases ha id hid with hd | ⟨hm, hne⟩
  · refine initialized_of_mem (write_mem_accesses hd) fun hdr => ?_
    rw [drop_mem_accesses hdr] at hd
    cases hd
  · exact (hτ id hm).append fun hdr => hne (drop_mem_accesses hdr)

theorem mem_of_validateOperands {o : List Operand}
    (h : validateOperands f initialized o = []) (hid : .loc id ∈ o) : id ∈ initialized := by
  have hop := List.flatMap_eq_nil_iff.mp h _ hid
  by_contra hn
  simp [validateOperand, hn] at hop

theorem mem_of_validateInstruction (h : validateInstruction f initialized i = [])
    (hid : .loc id ∈ i.operands) : id ∈ initialized := by
  cases i with
  | drop id' => cases hid
  | storeGlobal _ _ | storeIndex _ _ _ | storeField _ _ _ => exact mem_of_validateOperands h hid
  | assign _ _ => exact mem_of_validateOperands (append_eq_nil_iff.mp h).2 hid
  | _ => exact mem_of_validateOperands (append_eq_nil_iff.mp h).1 hid

theorem justified_accesses {τ : List Access} (hτ : AllInitialized τ initialized)
    (h : validateInstruction f initialized i = []) : Justified τ i.accesses := by
  have hr : Justified τ (reads i.operands) :=
    justified_reads.mpr fun id hid => hτ id (mem_of_validateInstruction h hid)
  cases i with
  | drop id => exact justified_of_no_read (by simp [Instruction.accesses])
  | _ => exact justified_append.mpr ⟨hr, justified_of_no_read (by simp)⟩

end Instructions

section Blocks

variable {f : MirFunction} {b : BasicBlock} {τ : List Access} {initialized : Finset LocalId}

theorem allInitialized_after (i : List Instruction) (hτ : AllInitialized τ initialized)
    {a : Finset LocalId → Instruction → Finset LocalId}
    (ha : ∀ initialized inst, ∀ id ∈ a initialized inst,
      inst.destination? = some id ∨ id ∈ initialized ∧ inst ≠ .drop id) :
    AllInitialized (τ ++ i.flatMap Instruction.accesses) (i.foldl a initialized) := by
  induction i generalizing τ initialized with
  | nil => simpa using hτ
  | cons inst i ih =>
    have := ih (allInitialized_accesses hτ (ha initialized inst))
    rwa [append_assoc] at this

variable (hτ : AllInitialized τ initialized)
include hτ

theorem justified_instructions {i : List Instruction}
    (h : validateInstructions f initialized i = []) :
    Justified τ (i.flatMap Instruction.accesses) := by
  induction i generalizing τ initialized with
  | nil => exact justified_of_no_read (by simp)
  | cons inst i ih =>
    obtain ⟨hi, hr⟩ := append_eq_nil_iff.mp h
    exact justified_append.mpr ⟨justified_accesses hτ hi,
      ih (allInitialized_accesses hτ fun _ => mem_afterInstruction) hr⟩

omit hτ in
theorem mem_insertParameters {ps : List LocalDecl} {id : LocalId}
    (h : id ∈ ps.foldl (fun initialized p => insert p.id initialized) initialized) :
    id ∈ initialized ∨ ∃ p ∈ ps, p.id = id := by
  induction ps generalizing initialized with
  | nil => exact .inl h
  | cons p ps ih =>
    rcases ih h with h | ⟨p', hm, heq⟩
    · rcases Finset.mem_insert.mp h with rfl | h
      · exact .inr ⟨p, mem_cons_self, rfl⟩
      · exact .inl h
    · exact .inr ⟨p', List.mem_cons_of_mem _ hm, heq⟩

theorem allInitialized_insertParameters :
    AllInitialized (τ ++ b.parameters.map fun p => .write p.id)
      (insertParameters initialized b) := by
  intro id hid
  have hd : Access.drop id ∉ b.parameters.map fun p => Access.write p.id := by simp
  rcases mem_insertParameters hid with h | ⟨p, hm, rfl⟩
  · exact (hτ id h).append hd
  · exact initialized_of_mem (mem_map.mpr ⟨p, hm, rfl⟩) hd

/-- Every read of a block that passes its check is justified, on any path on which the
locals it is checked with are initialised. -/
theorem justified_block (h : validateBasicBlock f b (insertParameters initialized b) = []) :
    Justified τ b.accesses := by
  have hp := allInitialized_insertParameters (b := b) hτ
  obtain ⟨hi, ht⟩ := append_eq_nil_iff.mp h
  have hv : checkedOperands b.terminator = b.terminator.values := by
    cases b.terminator <;> rfl
  refine justified_append.mpr ⟨justified_of_no_read (by simp), justified_append.mpr ⟨?_, ?_⟩⟩
  · exact justified_instructions hp hi
  · refine justified_reads.mpr fun id hid => ?_
    refine allInitialized_after _ hp (fun _ _ _ => mem_afterInstruction) id ?_
    exact mem_of_validateOperands ht (hv ▸ hid)

omit hτ in
theorem effects_subset : applyInitializationEffects b initialized ⊆
    b.instructions.foldl applyInstruction (insertParameters initialized b) := by
  unfold applyInitializationEffects
  split
  · exact eraseOperand_subset _
  · exact subset_rfl

theorem allInitialized_effects :
    AllInitialized (τ ++ b.accesses) (applyInitializationEffects b initialized) := by
  have hp := allInitialized_insertParameters (b := b) hτ
  have hi := allInitialized_after b.instructions hp fun _ _ _ => mem_applyInstruction
  intro id hid
  have := (hi id (effects_subset hid)).append (drop_notMem_reads b.terminator.values id)
  simpa only [BasicBlock.accesses, append_assoc] using this

end Blocks

section Functions

variable {f : MirFunction}

theorem collectBlock_keeps {bs : List BasicBlock} {s : Blocks × List ValidationError}
    (h : (bs.foldl (collectBlock f) s).2 = []) :
    s.2 = [] ∧ (∀ id b, s.1.lookup id = some b →
        (bs.foldl (collectBlock f) s).1.lookup id = some b) ∧
      ∀ b ∈ bs, (bs.foldl (collectBlock f) s).1.lookup b.id = some b := by
  induction bs generalizing s with
  | nil => exact ⟨h, fun _ _ => id, fun _ hb => absurd hb not_mem_nil⟩
  | cons b bs ih =>
    obtain ⟨hr, hl, hn⟩ := ih h
    simp only [collectBlock] at hr
    split at hr
    · simp at hr
    next hf =>
    refine ⟨hr, fun id b' hb' => hl id b' ?_, fun b' hb' => ?_⟩
    · have hne : id ≠ b.id := by
        rintro rfl
        exact hf (by rw [hb']; rfl)
      rw [collectBlock, Table.lookup_insert_eq, if_neg hne, hb']
    · rcases mem_cons.mp hb' with rfl | hb'
      · exact hl b'.id b' (AList.lookup_insert _)
      · exact hn b' hb'

theorem toResult_ok {es : List ValidationError} : toResult es = .ok () ↔ es = [] := by
  cases es with
  | nil => exact ⟨fun _ => rfl, fun _ => rfl⟩
  | cons e es => exact ⟨nofun, nofun⟩

/-- An accepted function has no errors, with the facts that the analysis ended with. -/
theorem validateFunction_ok (h : validateFunction f = some (.ok ())) :
    ∃ es, initializedAtBlockEntries (collectBlocks f).1 (parameterLocals f) =
      some es ∧ functionErrors f es = [] := by
  unfold validateFunction at h
  split at h
  · cases h
  · obtain ⟨es, hen, hr⟩ := Option.map_eq_some_iff.mp h
    refine ⟨es, hen, ?_⟩
    exact toResult_ok.mp hr

theorem allInitialized_parameters :
    AllInitialized ((parameterIds f).map .write) (parameterLocals f) := by
  intro id hid
  rw [parameterLocals, mem_toFinset] at hid
  exact initialized_of_mem (τ := []) (mem_map.mpr ⟨id, hid, rfl⟩) (by simp)

/-- The locals that the analysis finds for a block are initialised on every path to it. -/
theorem path_initialized {es : Table BlockId (Finset LocalId)}
    (hbl : ∀ b ∈ f.blocks, (collectBlocks f).1.lookup b.id = some b)
    (hen : initializedAtBlockEntries (collectBlocks f).1 (parameterLocals f) =
      some es) {τ : List Access} {b : BasicBlock} (hp : Path f τ b) :
    ∃ initialized, es.lookup b.id = some initialized ∧ AllInitialized τ initialized := by
  obtain ⟨⟨s, hst, hsb⟩, hcl⟩ := solve_start hen
  induction hp with
  | entry hb hid =>
    refine ⟨s, by rw [hid, hst], fun id hmm => ?_⟩
    exact allInitialized_parameters id (hsb hmm)
  | @edge τ b c args hp he hc ih =>
    obtain ⟨initialized, hlk, hτ⟩ := ih
    have hb := hbl b hp.mem
    have htr : c.id ∈ declaredSuccessors (collectBlocks f).1 b.id := by
      simp only [declaredSuccessors, hb, List.mem_filter, mem_map]
      refine ⟨⟨_, he, rfl⟩, decide_eq_true (AList.lookup_isSome.mp ?_)⟩
      rw [hbl c hc]
      rfl
    obtain ⟨next, hnx, hls⟩ := hcl b.id initialized hlk c.id htr
    refine ⟨next, hnx, fun id hid => ?_⟩
    have hot := hls hid
    simp only [outgoing, hb] at hot
    exact (allInitialized_effects hτ id hot).append (drop_notMem_reads args id)

/-- What a validated function reads outside its block arguments is initialised. -/
theorem justified_of_validateFunction (h : validateFunction f = some (.ok ()))
    {τ : List Access} {b : BasicBlock} (hp : Path f τ b) : Justified τ b.accesses := by
  obtain ⟨es, hen, hes⟩ := validateFunction_ok h
  simp only [functionErrors, append_eq_nil_iff, List.flatMap_eq_nil_iff] at hes
  obtain ⟨⟨⟨hc, _⟩, _⟩, hu⟩ := hes
  obtain ⟨initialized, hl, hτ⟩ :=
    path_initialized (collectBlock_keeps hc).2.2 hen hp
  have hb := hu b hp.mem
  rw [initializedIn, hl, Option.getD_some] at hb
  exact justified_block hτ hb

theorem declaredSuccessors_mem {bs : Blocks} {id t : BlockId}
    (h : t ∈ declaredSuccessors bs id) : t ∈ bs.keys.toFinset := by
  unfold declaredSuccessors at h
  split at h
  · rw [List.mem_filter, decide_eq_true_eq] at h
    exact mem_toFinset.mpr (AList.mem_keys.mp h.2)
  · cases h

theorem mem_applyInstructions {i : List Instruction} {initialized : Finset LocalId}
    {id : LocalId} (h : id ∈ i.foldl applyInstruction initialized) :
    id ∈ initialized ∨ ∃ inst ∈ i, inst.destination? = some id := by
  induction i generalizing initialized with
  | nil => exact .inl h
  | cons inst i ih =>
    rcases ih h with h | ⟨i', hm, hd⟩
    · rcases mem_applyInstruction h with hd | ⟨h, _⟩
      · exact .inr ⟨inst, mem_cons_self, hd⟩
      · exact .inl h
    · exact .inr ⟨i', List.mem_cons_of_mem _ hm, hd⟩

theorem outgoing_subset {bs : Blocks} {id : BlockId} {e initialized : Finset LocalId}
    (h : initialized ⊆ e ∪ writtenLocals bs) :
    outgoing bs id initialized ⊆ e ∪ writtenLocals bs := by
  intro l hl
  unfold outgoing at hl
  split at hl
  · next block hb =>
    have hwr (hw : l ∈ block.parameters.map (·.id) ++
        block.instructions.filterMap (·.destination?)) : l ∈ e ∪ writtenLocals bs := by
      refine Finset.mem_union_right _ (mem_toFinset.mpr (List.mem_flatMap.mpr ?_))
      exact ⟨⟨id, block⟩, AList.mem_lookup_iff.mp hb, hw⟩
    have hi : l ∈ block.instructions.foldl applyInstruction
        (insertParameters initialized block) := effects_subset hl
    rcases mem_applyInstructions hi with hp | ⟨inst, hm, hd⟩
    · rcases mem_insertParameters hp with hold | ⟨p, hm, rfl⟩
      · exact h hold
      · exact hwr (mem_append_left _ (mem_map.mpr ⟨p, hm, rfl⟩))
    · exact hwr (mem_append_right _ (mem_filterMap.mpr ⟨inst, hm, hd⟩))
  · exact h hl

theorem validateFunction_isSome (f : MirFunction) : (validateFunction f).isSome := by
  unfold validateFunction
  split
  · rfl
  · rw [Option.isSome_map]
    exact solve_start_isSome (fun n t => declaredSuccessors_mem)
      (fun n initialized => outgoing_subset) Finset.subset_union_left (Nat.lt_succ_self _)

theorem pointwise_eraseOperand (o : Operand) : Pointwise (eraseOperand · o) := by
  intro a b x hx
  cases o <;> grind [eraseOperand]

theorem pointwise_eraseMoved (i : Instruction) : Pointwise (eraseMoved · i) := by
  unfold eraseMoved
  split
  case h_6 => exact pointwise_eraseOperand (.loc _)
  case h_7 | h_8 => exact .foldl pointwise_eraseOperand _
  case h_9 => exact fun _ _ _ hx => hx
  all_goals exact pointwise_eraseOperand _

theorem pointwise_applyInstruction (i : Instruction) : Pointwise (applyInstruction · i) := by
  intro a b x hx
  have he := pointwise_eraseMoved i a b x hx
  grind [applyInstruction, insertDestination]

theorem pointwise_outgoing (bs : Blocks) (id : BlockId) : Pointwise (outgoing bs id) := by
  unfold outgoing
  split
  · next block _ =>
    have hp : Pointwise (insertParameters · block) := .foldl (fun p a b x => by grind) _
    intro a b x hx
    have hi := Pointwise.foldl pointwise_applyInstruction block.instructions _ _ x (hp a b x hx)
    unfold applyInitializationEffects
    dsimp only
    split
    · exact pointwise_eraseOperand _ _ _ x hi
    · exact hi
  · exact fun _ _ _ hx => hx

/-- The analysis ends, and finds for each block what is initialised on all paths to it. -/
theorem initializedAtBlockEntries_exact (bs : Blocks) (s : Finset LocalId) :
    ∃ r, initializedAtBlockEntries bs s = some r ∧
      MeetsPaths (declaredSuccessors bs) (outgoing bs) 0 s r := by
  obtain ⟨r, hr⟩ := Option.isSome_iff_exists.mp (solve_start_isSome
    (fun n t => declaredSuccessors_mem) (fun n initialized => outgoing_subset)
    Finset.subset_union_left (Nat.lt_succ_self _))
  exact ⟨r, hr, solve_meetsPaths (pointwise_outgoing bs) hr⟩

end Functions

end Validator

/-- In an accepted function every read of an instruction or of a terminator is justified, and every
read on every path just if the block arguments are initialised. -/
theorem validateFunction_sound (f : MirFunction)
    (h : Validator.validateFunction f = some (.ok ())) :
    (∀ τ b, Path f τ b → Justified τ b.accesses) ∧ (f.ReadsJustified ↔ f.ArgumentsInitialized) := by
  have hb : ∀ τ b, Path f τ b → Justified τ b.accesses :=
    fun τ b hp => Validator.justified_of_validateFunction h hp
  refine ⟨hb, ?_⟩
  constructor
  · intro hr τ b hp e he
    exact justified_reads.mp (justified_append.mp ((hr τ b hp).2 e he)).2
  · intro ha
    have hpt : ∀ τ b, Path f τ b → Justified [] τ := by
      intro τ b hp
      induction hp with
      | entry _ _ => exact justified_of_no_read (by simp)
      | edge hp he _ ih =>
        refine justified_append.mpr ⟨justified_append.mpr ⟨ih, hb _ _ hp⟩, ?_⟩
        exact justified_reads.mpr (ha _ _ hp _ he)
    intro τ b hp
    have hu : Justified [] (τ ++ b.accesses) :=
      justified_append.mpr ⟨hpt τ b hp, hb τ b hp⟩
    exact ⟨hu, fun e he =>
      justified_append.mpr ⟨hu, justified_reads.mpr (ha τ b hp e he)⟩⟩

/-- A function of one parameter that hands it on to its second block. -/
def handsOn (parameters : List TypeId) : MirFunction where
  id := 0
  name := "main"
  returnType := 0
  parameterTypes := parameters
  locals := [⟨0, 0, false⟩, ⟨1, 0, false⟩]
  blocks := [⟨0, [], [], .jump 1 [.loc 0]⟩, ⟨1, [⟨1, 0, false⟩], [], .ret (some (.loc 1))⟩]
  isAsync := false

theorem mem_handsOn {ps : List TypeId} {b : BasicBlock} (h : b ∈ (handsOn ps).blocks) :
    b = ⟨0, [], [], .jump 1 [.loc 0]⟩ ∨ b = ⟨1, [⟨1, 0, false⟩], [], .ret (some (.loc 1))⟩ := by
  simpa only [handsOn, mem_cons, not_mem_nil, or_false] using h

theorem path_handsOn {ps : List TypeId} {τ : List Access} {b : BasicBlock}
    (hp : Path (handsOn ps) τ b) {e : BlockId × List Operand}
    (he : e ∈ b.terminator.successors) :
    τ ++ b.accesses = (Validator.parameterIds (handsOn ps)).map .write ∧ e.2 = [.loc 0] := by
  cases hp with
  | entry hb hid =>
    rcases mem_handsOn hb with rfl | rfl
    · simp only [Terminator.successors, mem_singleton] at he
      exact ⟨List.append_nil _, by rw [he]⟩
    · cases hid
  | edge hp he' hc =>
    rcases mem_handsOn hc with rfl | rfl
    · rcases mem_handsOn hp.mem with rfl | rfl
      · simp [Terminator.successors] at he'
      · cases he'
    · cases he

/-- The parameter is initialised when it is handed on. -/
theorem validateFunction_sound_handsOn :
    Validator.validateFunction (handsOn [0]) = some (.ok ()) ∧ (handsOn [0]).ReadsJustified := by
  have hok : Validator.validateFunction (handsOn [0]) = some (.ok ()) := by decide +kernel
  refine ⟨hok, (validateFunction_sound _ hok).2.mpr fun τ b hp e he id hid => ?_⟩
  obtain ⟨ht, ha⟩ := path_handsOn hp he
  rw [ha, mem_singleton] at hid
  rw [ht, Operand.loc.inj hid]
  exact ⟨[], [], rfl, not_mem_nil⟩

/-- Without the parameter the first block hands on a local that nothing has written. -/
theorem validateFunction_accepts_uninitialized :
    Validator.validateFunction (handsOn []) = some (.ok ()) ∧ ¬(handsOn []).ReadsJustified := by
  refine ⟨by decide +kernel, fun h => ?_⟩
  have hr := (h _ _ (.entry (b := ⟨0, [], [], .jump 1 [.loc 0]⟩) (by simp [handsOn]) rfl)).2
    (1, [.loc 0]) mem_cons_self
  obtain ⟨bf, a, heq, _⟩ := hr [] 0 [] rfl
  simp at heq

end Galfus.Mir
