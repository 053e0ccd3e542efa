import Galfus.Vm.HotLoop

/-! # Runs of the loop of `execute_with_budget`

The local variables of the loop are those of the current frame, so a run of the loop with a
budget is a run of the metered machine on threads with their program counters saved.
-/

namespace Galfus

open Exec

variable {vm : VirtualMachine} {orders : PrivateHeap → HashOrders} {l l' : HotFrame}
  {i : Instruction} {t u u' : ThreadState} {n : ℕ} {f : CallFrame} {rest : List CallFrame}
  {image : BytecodeModule} {pc : ℕ}

def CallFrame.load (f : CallFrame) (pc : ℕ) (image : BytecodeModule) : HotFrame :=
  ⟨pc, f.cachedInstructions, f.registerBase, f.moduleId, image⟩

namespace VirtualMachine

open ThreadState

namespace Standing

/-- Registers, heap and flag do not matter, as long as there are as many registers. -/
theorem update (h : vm.Standing n f rest u) {rs : List VmValue} (hp : PrivateHeap)
    (fl : Bool) (hl : u.registers.length ≤ rs.length) : vm.Standing n f rest
      { u with registers := rs, heap := hp, currentFrameHasObjects := fl } :=
  { h with
    heap := rfl
    flag := rfl
    top_le := h.top_le.trans hl
    top_le' := h.top_le'.trans hl
    registers := .refl _ _ _
    plain := fun i hi => absurd hi (Nat.not_lt_zero i) }

theorem callStack (h : vm.Standing n f rest u) : u.callStack = f :: rest :=
  h.stack'.trans (List.append_nil _)

end Standing

/-- The local variables are those of the current frame of a thread whose frames stand on each
other. -/
inductive Loaded (vm : VirtualMachine) (l : HotFrame) (u : ThreadState) : Prop where
  | intro {n : ℕ} {f : CallFrame} {rest : List CallFrame} {image : BytecodeModule}
      (standing : vm.Standing n f rest u) (himage : vm.modules f.moduleId = some image)
      (eq : l = f.load l.pc image)

namespace Loaded

theorem update (h : vm.Loaded l u) {rs : List VmValue} (hp : PrivateHeap) (fl : Bool)
    (hln : u.registers.length ≤ rs.length) : vm.Loaded l
      { u with registers := rs, heap := hp, currentFrameHasObjects := fl } := by
  obtain ⟨hu, hi, hl⟩ := h
  exact ⟨hu.update hp fl hln, hi, hl⟩

theorem setPc (h : vm.Loaded l u) (pc : ℕ) : vm.Loaded l (u.setPc pc) := by
  obtain ⟨hu, hi, hl⟩ := h
  exact ⟨.setPc hu pc, hi, hl⟩

theorem jump (h : vm.Loaded l u) (pc : ℕ) : vm.Loaded { l with pc := pc } u := by
  obtain ⟨hu, hi, hl⟩ := h
  refine ⟨hu, hi, ?_⟩
  rw [hl]
  rfl

end Loaded

end VirtualMachine

def HotStep.frame? : HotStep → Option HotFrame
  | .advance l | .spend l => some l
  | .done _ => none

namespace VirtualMachine

open ThreadState

/-- The local variables are those of the current frame, which is `f` above `rest` when the program
counter is saved. -/
structure Sits (vm : VirtualMachine) (l : HotFrame) (f : CallFrame) (rest : List CallFrame)
    (u : ThreadState) : Prop where
  loaded : vm.Loaded l u
  stack : (u.setPc l.pc).callStack = f :: rest

/-- What a round for the instruction `i` leaves, if it goes on. -/
def Resumed (vm : VirtualMachine) (i : Instruction) (f : CallFrame) (rest : List CallFrame)
    (next : HotStep) (u : ThreadState) : Prop :=
  ∀ l ∈ next.frame?, vm.Loaded l u ∧ vm.Follows i f rest (u.setPc l.pc).callStack

namespace Sits

theorem update (h : vm.Sits l f rest u) {rs : List VmValue} (hp : PrivateHeap)
    (fl : Bool) (hl : u.registers.length ≤ rs.length) : vm.Sits l f rest
      { u with registers := rs, heap := hp, currentFrameHasObjects := fl } :=
  ⟨h.loaded.update hp fl hl, h.stack⟩

theorem setPc (h : vm.Sits l f rest u) (pc : ℕ) : vm.Sits l f rest (u.setPc pc) :=
  ⟨h.loaded.setPc pc, by rw [setPc_setPc, h.stack]⟩

theorem jump (h : vm.Sits l f rest u) (pc : ℕ) :
    vm.Sits { l with pc := pc } { f with pc := pc } rest u := by
  refine ⟨h.loaded.jump pc, ?_⟩
  rw [← setPc_setPc pc l.pc, ThreadState.setPc, h.stack]
  rfl

theorem pc_eq (h : vm.Sits l f rest u) : f.pc = l.pc := by
  have hpc := (h.jump l.pc).stack
  rw [h.stack] at hpc
  exact congrArg CallFrame.pc (List.cons.inj hpc).1

theorem standing (h : vm.Sits l f rest u) : ∃ n pc image, vm.Standing n { f with pc := pc } rest u ∧
    vm.modules f.moduleId = some image ∧ l = f.load f.pc image := by
  have hpc := h.pc_eq
  obtain ⟨⟨hu, hi, hl⟩, hs⟩ := h
  rw [ThreadState.setPc, hu.callStack] at hs
  obtain ⟨rfl, rfl⟩ := List.cons.inj hs
  exact ⟨_, _, _, hu, hi, hpc ▸ hl⟩

end Sits

theorem Standing.sits (h : vm.Standing n f rest u) (hi : vm.modules f.moduleId = some image) :
    vm.Sits (f.load f.pc image) f rest u :=
  ⟨⟨h, hi, rfl⟩, by rw [CallFrame.load, setPc_of_stack h.callStack, h.callStack]⟩

theorem Loaded.sits (h : vm.Loaded l u) : ∃ f rest, vm.Sits l f rest u := by
  obtain @⟨n, f, rest, image, hu, hi, hl⟩ := id h
  exact ⟨{ f with pc := l.pc }, rest, h, by rw [ThreadState.setPc, hu.callStack]; rfl⟩

section Rounds

variable {b reg : ℕ} {v : VmValue} {E : ThreadState → Prop}

theorem triple_readRegAt :
    Triple (vm.Sits l f rest) (readRegAt b reg) (fun _ => vm.Sits l f rest) E := by
  intro u h r u' hr
  obtain ⟨v, -, ⟨⟩⟩ := Option.map_eq_some_iff.mp hr
  exact h

theorem triple_writePrimRegAt :
    Triple (vm.Sits l f rest) (writePrimRegAt b reg v) (fun _ => vm.Sits l f rest) E := by
  intro u h r u' hr
  obtain ⟨o, -, ⟨⟩⟩ := Option.bind_eq_some_iff.mp hr
  exact h.update _ _ (List.length_set ..).ge

theorem triple_writeRegAt :
    Triple (vm.Sits l f rest) (writeRegAt b reg v) (fun _ => vm.Sits l f rest) E := by
  intro u h r u' hr
  obtain ⟨o, -, ⟨⟩⟩ := Option.bind_eq_some_iff.mp hr
  exact h.update _ _ (List.length_set ..).ge

theorem triple_onHeap (g : PrivateHeap → PrivateHeap) :
    Triple (vm.Sits l f rest) (onHeap g) (fun _ => vm.Sits l f rest) E :=
  .modify fun _ h => h.update _ _ le_rfl

theorem triple_syncFrame : Triple (vm.Sits l f rest) (syncFrame pc) (fun _ => vm.Sits l f rest) E :=
  .modify fun _ h => h.setPc pc

theorem triple_goesOn {g : CallFrame} {st : List CallFrame} {next : HotStep}
    (hn : next.frame? = some l) (h : vm.Follows i f rest (g :: st)) :
    Triple (vm.Sits l g st) (pure next : ThreadExec HotStep) (vm.Resumed i f rest) E := by
  rintro u hu _ _ ⟨⟩ l' hl'
  obtain rfl := Option.some.inj (hn.symm.trans hl')
  exact ⟨hu.loaded, hu.stack ▸ h⟩

theorem triple_jump {o : ℤ} (hi : o ∈ i.offsets) : Triple (vm.Sits l f rest)
    (pure (.spend { l with pc := jumpTarget l.pc o }) : ThreadExec HotStep)
    (vm.Resumed i f rest) E := by
  intro u h
  rw [← h.pc_eq]
  exact triple_goesOn rfl (.jump hi) u (h.jump _)

theorem triple_attempt {α : Type} (o : Option (Except VmError α)) :
    Yields (vm.Sits l f rest) (Exec.attempt o) (fun _ => vm.Sits l f rest) := by
  rintro u h r u' hr
  obtain ⟨_ | a, -, ⟨⟩⟩ := Option.map_eq_some_iff.mp hr
  · trivial
  · exact h

theorem triple_executeHotOperator :
    Yields (vm.Sits l f rest) (vm.executeHotOperator b i) (fun _ => vm.Sits l f rest) := by
  cases i with
  | binaryImmediate d lh op r =>
    exact triple_readRegAt.bind fun _ => (triple_attempt _).bind fun _ => triple_writePrimRegAt
  | typedBinary | binary =>
    exact triple_readRegAt.bind fun _ => triple_readRegAt.bind fun _ =>
      (triple_attempt _).bind fun _ => triple_writePrimRegAt
  | _ => exact .stop

theorem triple_hotOperator (hen : i.ends = false) :
    Yields (vm.Sits l f rest) (vm.hotOperator l i) (vm.Resumed i f rest) := by
  have hs : Yields (vm.Sits l f rest) (vm.executeHotOperator l.registerBase i >>= fun _ =>
      pure (.advance l)) (vm.Resumed i f rest) :=
    triple_executeHotOperator.bind fun _ => triple_goesOn rfl (.stay hen)
  unfold hotOperator
  split
  · refine triple_readRegAt.bind fun _ => triple_readRegAt.bind fun _ => ?_
    split
    · exact triple_syncFrame.bind fun _ => hs
    · exact hs
  · exact hs

theorem triple_hotJumpIf {c : ℕ} {tk : Bool} {o : ℤ} (hi : o ∈ i.offsets) (hen : i.ends = false) :
    Yields (vm.Sits l f rest) (hotJumpIf l c tk o) (vm.Resumed i f rest) := by
  refine triple_readRegAt.bind fun v => ?_
  cases v with
  | bool b =>
    dsimp only
    split
    · exact triple_jump hi
    · exact triple_goesOn rfl (.stay hen)
  | _ => exact triple_syncFrame.bind fun _ => Yields.throw _

theorem triple_hotJumpNull {vl : ℕ} {o : ℤ} (hi : o ∈ i.offsets) (hen : i.ends = false) :
    Triple (vm.Sits l f rest) (hotJumpNull l vl o) (vm.Resumed i f rest) E := by
  refine triple_readRegAt.bind fun v => ?_
  split
  · exact triple_jump hi
  · exact triple_goesOn rfl (.stay hen)

theorem triple_reloadFrame (hl : vm.modules l.moduleId = some l.image) :
    Yields (vm.Standing n f rest) (vm.reloadFrame l) (fun l' => vm.Sits l' f rest) := by
  refine .get_bind fun u hu => ?_
  obtain ⟨hi, hi', -⟩ := hu.chain.codeFits
  rw [Standing.callStack hu]
  dsimp only
  split
  · next heq =>
    rintro _ rfl _ _ ⟨⟩
    exact hu.sits (heq ▸ hl)
  · rw [hi']
    rintro _ rfl _ _ ⟨⟩
    exact hu.sits hi'

theorem Sits.modules_eq (h : vm.Sits l f rest u) : vm.modules l.moduleId = some l.image := by
  obtain ⟨-, -, image, -, hi, rfl⟩ := h.standing
  exact hi

theorem triple_done {s : VmStep} {P : ThreadState → Prop} :
    Triple P (pure (.done s) : ThreadExec HotStep) (vm.Resumed i f rest) E := by
  rintro u - _ _ ⟨⟩ _ ⟨⟩

theorem not_excuses_whole (e : VmError) : ¬ Relocation.whole.Excuses e := by
  cases e with
  | resourceLimitExceeded fl => exact fun h => lt_irrefl _ h.2
  | _ => exact id

theorem Chain.fits_mem {m : Relocation} (h : vm.Chain m n f rest)
    (him : vm.modules f.moduleId = some image) (hi : i ∈ f.cachedInstructions) :
    i.Fits image.constants n := by
  obtain ⟨i', hi', hf⟩ := h.codeFits
  rw [him] at hi'
  cases hi'
  exact hf i hi

/-- What an instruction does to a thread whose frames stand on each other, unless it returns from
the lowest frame. -/
theorem triple_dispatch (hvm : vm.Framed) (hi : vm.modules f.moduleId = some image)
    (hf : i.Fits image.constants n) {orders : HashOrders}
    (hr : i = .retNull ∨ (∃ sr, i = .ret sr) → rest ≠ []) :
    Yields (vm.Standing n f rest) (vm.dispatch orders i)
      (fun _ s => vm.Stepped i .whole f rest s s) :=
  ((leads_dispatch hvm hi hf hr).triple not_excuses_whole).conseq (fun _ h => h)
    (fun _ _ h => h.2) fun _ _ => trivial

theorem triple_sync_bind {α : Type} {k : Unit → ThreadExec α} {Q : α → ThreadState → Prop}
    (hk : ∀ n image, l = f.load f.pc image → vm.modules f.moduleId = some image →
      Yields (vm.Standing n f rest) (k ()) Q) :
    Yields (vm.Sits l f rest) (syncFrame l.pc >>= k) Q := by
  intro u hu
  obtain ⟨n, pc, image, hs, hi, hl⟩ := hu.standing
  have hsy : vm.Standing n f rest (u.setPc l.pc) := hu.pc_eq ▸ .setPc hs f.pc
  exact hk n image hl hi _ hsy

theorem triple_delegate (hvm : vm.Framed) (hi : i ∈ l.instructions)
    (hr : ¬ (i = .retNull ∨ ∃ sr, i = .ret sr)) :
    Yields (vm.Sits l f rest) (vm.delegate orders l i) (vm.Resumed i f rest) := by
  refine triple_sync_bind ?_
  rintro n image rfl him
  refine .get_bind fun u hu => ?_
  have hst : Yields (vm.Standing n f rest) (vm.dispatch (orders u.heap) i) _ :=
    triple_dispatch hvm him (hu.chain.fits_mem him hi) fun h => absurd h hr
  refine (hst.conseq_pre ?_).bind fun sp => ?_
  · rintro _ rfl
    exact hu
  · cases sp with
    | «continue» =>
      rintro s ⟨n', g, st, hs, hf⟩
      exact ((triple_reloadFrame him).bind fun _ => triple_goesOn rfl hf) s hs
    | ret | suspend => exact triple_done

theorem triple_copyRegs {s d c : ℕ} :
    Triple (vm.Sits l f rest) (copyRegs s d c) (fun _ => vm.Sits l f rest) E := by
  intro u h r u' hr
  dsimp only [copyRegs] at hr
  split at hr
  · cases hr
  split at hr
  · next hl =>
    cases hr
    refine h.update _ _ (le_of_eq ?_)
    simp only [List.length_append, hl.1, List.length_take, List.length_drop]
    omega
  · cases hr

theorem triple_callLocal (hu : vm.Standing n f rest u) (hi : vm.modules f.moduleId = some image)
    {c : BytecodeFunction} {d fn a ac : ℕ} (hd : d < n)
    (hc : vm.CodeFits f.moduleId c.registerCount c.instructions) {g : CallFrame}
    (hg : g = f.above n f.moduleId fn d c false) :
    Yields (· = u) (callLocal f.moduleId b d fn c a ac)
      (fun _ => vm.Sits (g.load g.pc image) g (f :: rest)) := by
  have ho : vm.Standing c.registerCount g (f :: rest)
      (u.openFrame 0 false f.moduleId fn (some d) c) :=
    hg ▸ Relocated.openFrame hu hd hc 0 0 false
  refine Triple.get_bind ?_
  rintro u rfl
  split
  · exact Yields.throw _
  · refine (Triple.modify (Q := fun _ => vm.Sits (g.load g.pc image) g (f :: rest)) ?_).bind
      fun _ => ?_
    · rintro _ rfl
      exact ho.sits (hg ▸ hi)
    split
    · exact (Triple.pure ()).conseq_pre fun _ h => h
    · exact triple_copyRegs.bind fun vs => Triple.forM vs fun v _ =>
        Triple.modify fun _ h => h.update _ _ le_rfl

theorem triple_hotCall (hvm : vm.Framed) {d fn a ac : ℕ} (hi : .call d fn a ac ∈ l.instructions) :
    Yields (vm.Sits l f rest) (vm.hotCall orders l d fn a ac)
      (vm.Resumed (.call d fn a ac) f rest) := by
  unfold hotCall
  split
  · next callee hc =>
    refine triple_sync_bind ?_
    rintro n image rfl him
    refine .get_bind fun u hu => ?_
    have hft := hu.chain.fits_mem him hi
    have hf : vm.getFunction f.moduleId fn = .ok callee :=
      getFunction_eq_ok.mpr ⟨image, him, hc⟩
    refine (triple_callLocal hu him (hft.dest rfl) (hvm.codeFits hf) rfl).bind fun _ => ?_
    rw [hu.top']
    exact triple_goesOn rfl (.enter rfl ⟨callee, hf, rfl, rfl⟩)
  · exact triple_delegate hvm hi (by simp)

/-- The local variables fit, and there is room below `k`. -/
def Roomy (vm : VirtualMachine) (l : HotFrame) (f : CallFrame) (rest : List CallFrame) (k : ℕ)
    (u : ThreadState) : Prop :=
  vm.Sits l f rest u ∧ k ≤ u.registers.length

section TailCall

variable {k : ℕ}

theorem triple_releaseReg :
    Triple (vm.Roomy l f rest k) (releaseReg reg) (fun _ => vm.Roomy l f rest k) E := by
  intro u h r u' hr
  obtain ⟨o, -, ⟨⟩⟩ := Option.bind_eq_some_iff.mp hr
  exact ⟨h.1.update _ _ (List.length_set ..).ge, h.2.trans (List.length_set ..).ge⟩

theorem triple_clearReg :
    Triple (vm.Roomy l f rest k) (clearReg reg) (fun _ => vm.Roomy l f rest k) E := by
  intro u h r u' hr
  unfold clearReg at hr
  split at hr <;> cases hr
  exact ⟨h.1.update _ _ (List.length_set ..).ge, h.2.trans (List.length_set ..).ge⟩

theorem triple_placeArg :
    Triple (vm.Roomy l f rest k) (placeArg reg v) (fun _ => vm.Roomy l f rest k) E := by
  intro u h r u' hr
  unfold placeArg at hr
  split at hr <;> cases hr
  exact ⟨h.1.update _ _ (List.length_set ..).ge, h.2.trans (List.length_set ..).ge⟩

theorem triple_clearFrame (nt : ℕ) :
    Triple (vm.Roomy l f rest k) (clearFrame b nt) (fun _ => vm.Roomy l f rest k) E := by
  refine .get_bind fun u hu => ?_
  split
  · exact (Triple.forM _ fun _ _ => triple_releaseReg).conseq_pre fun _ h => h ▸ hu
  · exact (Triple.forM _ fun _ _ => triple_clearReg).conseq_pre fun _ h => h ▸ hu

theorem triple_placeArgs (a : List VmValue) :
    Triple (vm.Roomy l f rest k) (placeArgs b a) (fun _ => vm.Roomy l f rest k) E := by
  refine (Triple.modify (Q := fun _ => vm.Roomy l f rest k) ?_).bind fun _ =>
    .forM _ fun _ _ => triple_placeArg
  rintro u ⟨hu, hk⟩
  exact ⟨hu.update _ _ le_rfl, hk⟩

theorem triple_reuseFrame {c : BytecodeFunction} {fn : ℕ}
    (hcd : vm.CodeFits f.moduleId c.registerCount c.instructions) :
    Triple (vm.Roomy (f.load f.pc image) f rest (f.registerBase + c.registerCount))
      (reuseFrame f.moduleId fn (f.registerBase + c.registerCount) c)
      (fun _ u => ∃ s, vm.Sits { f.load 0 image with instructions := c.instructions }
        (f.reuse f.moduleId fn c s) rest u) E := by
  refine .get_bind ?_
  rintro u ⟨hu, hrm⟩
  obtain ⟨n, pc, i', hu, him, hl⟩ := hu.standing
  obtain rfl : image = i' := congrArg HotFrame.image hl
  rw [Standing.callStack hu]
  refine .modify ?_
  rintro u rfl
  have hch : vm.Chain .whole c.registerCount
      (f.reuse f.moduleId fn c u.currentFrameHasObjects) rest := hu.chain.reuse hcd _
  have hrs : vm.Standing c.registerCount (f.reuse f.moduleId fn c u.currentFrameHasObjects) rest
      { u with
        currentRegisterTop := f.registerBase + c.registerCount
        callStack := f.reuse f.moduleId fn c u.currentFrameHasObjects :: rest } :=
    { hu with
      stack := (hch.frames_whole.symm.trans (List.append_nil _).symm :)
      stack' := (List.append_nil _).symm
      top := rfl
      top' := rfl
      top_le := hrm
      top_le' := hrm
      chain := hch }
  exact ⟨_, hrs.sits him⟩

theorem triple_tailCallLocal {c : BytecodeFunction} {fn a ac : ℕ}
    (hc : vm.CodeFits f.moduleId c.registerCount c.instructions) :
    Triple (vm.Sits (f.load f.pc image) f rest) (tailCallLocal f.moduleId f.registerBase fn c a ac)
      (fun _ u => ∃ s, vm.Sits { f.load 0 image with instructions := c.instructions }
        (f.reuse f.moduleId fn c s) rest u) E := by
  refine (Triple.modify (Q := fun _ => vm.Roomy _ f rest _) fun u hu =>
    ⟨hu.update u.heap u.currentFrameHasObjects (length_le_reserve _ _ _),
      le_length_reserve _ _ _⟩).bind fun _ => ?_
  refine Triple.bind (Q := fun _ => vm.Roomy (f.load f.pc image) f rest
    (f.registerBase + c.registerCount)) ?_ fun ar => ?_
  · intro u h r u' hr
    dsimp only [readRegs] at hr
    split at hr <;> cases hr
    exact h
  refine (Triple.forM [] fun _ h => absurd h List.not_mem_nil).bind fun _ => ?_
  exact (triple_clearFrame _).bind fun _ => (triple_placeArgs ar).bind fun _ =>
    triple_reuseFrame hc

theorem triple_hotTailCall (hvm : vm.Framed) {fn a ac : ℕ}
    (hi : .tailCall fn a ac ∈ l.instructions) :
    Yields (vm.Sits l f rest) (vm.hotTailCall orders l fn a ac)
      (vm.Resumed (.tailCall fn a ac) f rest) := by
  unfold hotTailCall
  split
  · next callee hc =>
    intro u hu
    obtain ⟨-, -, image, -, him, rfl⟩ := hu.standing
    have hf : vm.getFunction f.moduleId fn = .ok callee :=
      getFunction_eq_ok.mpr ⟨image, him, hc⟩
    refine (triple_tailCallLocal (hvm.codeFits hf)).bind (fun _ => ?_) u hu
    rintro u ⟨s, hu⟩
    exact triple_goesOn rfl (.reuse ⟨callee, hf, rfl, rfl⟩) u hu
  · exact triple_delegate hvm hi (by simp)

end TailCall

theorem popFrame_of_standing (hu : vm.Standing n f rest u) {r : Except VmError (Option CallFrame)}
    (hr : popFrame u = some (r, u')) : r = .ok (some f) ∧ Popped .whole f rest u' u' := by
  have hm := sim_popFrame (X := fun _ => False) (E := fun _ _ => False) u u hu
  rw [hr] at hm
  cases hm with
  | ok hq => exact ⟨congrArg _ hq.2.1, hq.2.2⟩
  | error he => exact he.elim
  | excused hx => exact hx.elim

theorem triple_hotReturn {g : CallFrame} (hl : vm.modules l.moduleId = some l.image)
    (hc : vm.Chain .whole n f rest) :
    Yields (fun u => Popped .whole f rest u u) (vm.hotReturn l f v) (vm.Resumed i g rest) := by
  unfold hotReturn
  cases rest with
  | nil =>
    rw [show f.returnDest = none from hc.1.2]
    exact .lift_bind fun _ _ => triple_done
  | cons g rest =>
    obtain ⟨-, k, hk, -, hc⟩ := hc
    split
    · exact ((triple_reloadFrame hl).conseq_pre fun u hu => hu.relocated hk hc).bind fun l' =>
        triple_writeRegAt.bind fun _ => triple_goesOn rfl .leave
    · exact .lift_bind fun _ _ => triple_done

theorem triple_popFrame {k : Option CallFrame → ThreadExec HotStep}
    (hk : ∀ f, k (some f) = vm.hotReturn l f v) :
    Yields (vm.Sits l f rest) (popFrame >>= k) (vm.Resumed i f rest) := by
  intro u hu
  have hl := hu.modules_eq
  obtain ⟨n, pc, -, hu, -, -⟩ := hu.standing
  refine Triple.bind (P := (· = u)) (Q := fun a s => a = some { f with pc := pc } ∧
    Popped .whole { f with pc := pc } rest s s) ?_ (fun a => ?_) u rfl
  · rintro u rfl r u' hr
    obtain ⟨rfl, hp⟩ := popFrame_of_standing hu hr
    exact ⟨rfl, hp⟩
  · rintro s ⟨rfl, hp⟩
    rw [hk]
    exact triple_hotReturn hl hu.chain s hp

/-- A round that goes on leaves the local variables of a frame that may follow. -/
theorem triple_hotInstruction (hvm : vm.Framed) (hi : i ∈ l.instructions) :
    Yields (vm.Sits l f rest) (vm.hotInstruction orders l i) (vm.Resumed i f rest) := by
  cases i with
  | binaryImmediate | typedBinary =>
    rw [hotInstruction]
    exact triple_hotOperator rfl
  | binary op d lh r =>
    rw [hotInstruction]
    split
    · exact triple_hotOperator rfl
    · exact triple_delegate hvm hi (by simp)
  | loadNull d => exact triple_writePrimRegAt.bind fun _ => triple_goesOn rfl (.stay rfl)
  | jump o => exact triple_jump (.head _)
  | jumpTrue | jumpFalse => exact triple_hotJumpIf (.head _) rfl
  | jumpNull => exact triple_hotJumpNull (.head _) rfl
  | move =>
    exact triple_readRegAt.bind fun _ => (triple_onHeap _).bind fun _ =>
      triple_writeRegAt.bind fun _ => triple_goesOn rfl (.stay rfl)
  | call => exact triple_hotCall hvm hi
  | tailCall => exact triple_hotTailCall hvm hi
  | ret =>
    exact triple_readRegAt.bind fun _ => (triple_onHeap _).bind fun _ =>
      triple_popFrame fun _ => rfl
  | retNull => exact triple_popFrame fun _ => rfl
  | _ => exact triple_delegate hvm hi (by simp)

end Rounds

end VirtualMachine

/-- A round that is not charged only moves the program counter on, and one that leaves the
loop does not ask to continue. -/
def HotStep.Regular (l : HotFrame) : HotStep → Prop
  | .advance l' => l' = l
  | .spend _ => True
  | .done s => s ≠ .continue

def Regular (l : HotFrame) (x : ThreadExec HotStep) : Prop :=
  ∀ u next u', x u = some (.ok next, u') → next.Regular l

namespace Regular

theorem bind {α : Type} {x : ThreadExec α} {k : α → ThreadExec HotStep}
    (hk : ∀ a, Regular l (k a)) : Regular l (x >>= k) := by
  intro u next u' h
  obtain ⟨a, u₁, -, h⟩ := bind_eq_ok.mp h
  exact hk a u₁ next u' h

theorem pure {next : HotStep} (h : next.Regular l) : Regular l (Pure.pure next) := by
  rintro u _ u' ⟨⟩
  exact h

theorem throw (e : VmError) : Regular l (Exec.throw e) := by
  rintro u _ u' ⟨⟩

theorem stop : Regular l Exec.stop := by
  rintro u _ u' ⟨⟩

end Regular

namespace VirtualMachine

open ThreadState

theorem regular_hotReturn {v : VmValue} : Regular l (vm.hotReturn l' f v) := by
  unfold hotReturn
  split
  · exact .bind fun _ => .bind fun _ => .pure trivial
  · exact .bind fun _ => .pure (by simp [HotStep.Regular])

theorem regular_delegate : Regular l (vm.delegate orders l' i) := by
  refine .bind fun _ => .bind fun _ => .bind fun s => ?_
  cases s with
  | «continue» => exact .bind fun _ => .pure trivial
  | ret | suspend => exact .pure (by simp [HotStep.Regular])

theorem regular_hotOperator : Regular l (vm.hotOperator l i) := by
  unfold hotOperator
  split
  · refine .bind fun _ => .bind fun _ => ?_
    split
    · exact .bind fun _ => .bind fun _ => .pure rfl
    · exact .bind fun _ => .pure rfl
  · exact .bind fun _ => .pure rfl

theorem regular_hotInstruction : Regular l (vm.hotInstruction orders l i) := by
  cases i with
  | binaryImmediate | typedBinary =>
    rw [hotInstruction]
    exact regular_hotOperator
  | binary op d lh r =>
    rw [hotInstruction]
    split
    · exact regular_hotOperator
    · exact regular_delegate
  | loadNull d => exact .bind fun _ => .pure rfl
  | jump o => exact .pure trivial
  | jumpTrue | jumpFalse =>
    refine .bind fun v => ?_
    cases v with
    | bool => exact .pure trivial
    | _ => exact .bind fun _ => .throw _
  | jumpNull => exact .bind fun _ => .pure trivial
  | move => exact .bind fun _ => .bind fun _ => .bind fun _ => .pure trivial
  | call =>
    rw [hotInstruction, hotCall]
    split
    · exact .bind fun _ => .bind fun _ => .bind fun _ => .pure trivial
    · exact regular_delegate
  | tailCall =>
    rw [hotInstruction, hotTailCall]
    split
    · exact .bind fun _ => .pure trivial
    · exact regular_delegate
  | ret =>
    refine .bind fun _ => .bind fun _ => .bind fun p => ?_
    cases p with
    | none => exact .stop
    | some => exact regular_hotReturn
  | retNull =>
    refine .bind fun p => ?_
    cases p with
    | none => exact .throw _
    | some => exact regular_hotReturn
  | _ => exact regular_delegate

/-- One round of the loop on a thread with its program counter saved. -/
def hotNext (vm : VirtualMachine) (orders : PrivateHeap → HashOrders) (t : ThreadState) :
    Option (MeteredStep ThreadState (Except VmError VmStep × ThreadState)) :=
  ((do
    let l ← vm.loadFrame
    let i ← Exec.unwrap l.instructions[l.pc]?
    vm.hotInstruction orders { l with pc := l.pc + 1 } i : ThreadExec HotStep) t).map settle

/-- The instruction at the program counter of the current frame fails without writing the
program counter back. -/
def FailsUnsaved (t : ThreadState) : Prop :=
  ∃ f frames i, t.callStack = f :: frames ∧ f.cachedInstructions[f.pc]? = some i ∧
    i.failsUnsaved f.registerBase t.registers = true

/-- How the loop goes on after a round, with its local variables. -/
def resumeLoop : Except VmError HotStep × ThreadState →
    MeteredStep (HotFrame × ThreadState) (Except VmError VmStep × ThreadState)
  | (.error e, t) => .stop (.error e, t)
  | (.ok (.advance l), t) => .next false (l, t)
  | (.ok (.spend l), t) => .next true (l, t)
  | (.ok (.done s), t) => .stop (.ok s, t)

def loopNext (vm : VirtualMachine) (orders : PrivateHeap → HashOrders)
    (s : HotFrame × ThreadState) :
    Option (MeteredStep (HotFrame × ThreadState) (Except VmError VmStep × ThreadState)) :=
  (s.1.instructions[s.1.pc]?).bind fun i =>
    (vm.hotInstruction orders { s.1 with pc := s.1.pc + 1 } i s.2).map resumeLoop

theorem hotLoop_loopNext (vm : VirtualMachine) (orders : PrivateHeap → HashOrders) (b : ℕ)
    (s : HotFrame × ThreadState) :
    vm.hotLoop orders (b + 1) s.1 s.2 = (vm.loopNext orders s).bind fun
      | .next false s' => vm.hotLoop orders (b + 1) s'.1 s'.2
      | .next true s' => vm.hotLoop orders b s'.1 s'.2
      | .stop r => some r := by
  obtain ⟨l, u⟩ := s
  rw [hotLoop, loopNext]
  cases hi : l.instructions[l.pc]? with
  | none =>
    rw [List.drop_eq_nil_of_le (List.getElem?_eq_none_iff.mp hi)]
    rfl
  | some i =>
    obtain ⟨hlt, rfl⟩ := List.getElem?_eq_some_iff.mp hi
    rw [List.drop_eq_getElem_cons hlt, hotStretch]
    simp only [bind_apply, Option.bind_some]
    rcases h : vm.hotInstruction orders { l with pc := l.pc + 1 } _ u with _ | ⟨e | next, u'⟩
    · rfl
    · rfl
    · have hr := regular_hotInstruction u next u' h
      cases next with
      | advance l' =>
        cases hr
        rfl
      | spend | done => rfl

theorem loadFrame_apply (hs : t.callStack = f :: rest) (hi : vm.modules f.moduleId = some image) :
    vm.loadFrame t = some (.ok (f.load f.pc image), t) := by
  simp only [loadFrame, Exec.get_bind, hs, hi, Exec.unwrap_bind]
  rfl

theorem hotRun_of_empty (h : t.callStack = []) (b : ℕ) :
    vm.hotRun orders b t = some (.error .emptyCallStack, t) := by
  simp [hotRun, loadFrame, bind_apply, h]

theorem hotNext_of_empty (h : t.callStack = []) :
    vm.hotNext orders t = some (.stop (.error .emptyCallStack, t)) := by
  simp [hotNext, loadFrame, bind_apply, h, settle]

theorem hotNext_of_stack (hs : t.callStack = f :: rest) (hi : vm.modules f.moduleId = some image) :
    vm.hotNext orders t = (f.cachedInstructions[f.pc]?).bind fun i =>
      (vm.hotInstruction orders (f.load (f.pc + 1) image) i t).map settle := by
  simp only [hotNext, bind_apply, loadFrame_apply hs hi, Option.bind_some]
  show (Option.bind ((f.cachedInstructions[f.pc]?).map _) _).map settle = _
  cases f.cachedInstructions[f.pc]? <;> rfl

theorem hotNext_apply (hl : vm.Loaded l u) (hsv : ¬ FailsUnsaved (u.setPc l.pc)) :
    vm.hotNext orders (u.setPc l.pc) = (l.instructions[l.pc]?).bind fun i =>
      (vm.hotInstruction orders { l with pc := l.pc + 1 } i u).map settle := by
  obtain @⟨n, f, rest, image, hu, him, heq⟩ := hl
  obtain ⟨pc, rfl⟩ : ∃ pc, l = f.load pc image := ⟨_, heq⟩
  have hs : (u.setPc pc).callStack = { f with pc := pc } :: rest := by
    rw [ThreadState.setPc, hu.callStack, List.modifyHead_cons]
  refine (hotNext_of_stack hs him).trans (Option.bind_congr fun i hi => ?_)
  refine settles_hotInstruction ?_ pc
  rw [Bool.eq_false_iff]
  intro hf
  exact hsv ⟨_, _, i, hs, hi, hf⟩

def ending : Option (Except VmError VmStep × ThreadState) →
    MeteredEnd ThreadState (Except VmError VmStep × ThreadState)
  | none => .stuck
  | some (.ok .continue, t) => .paused t
  | some q => .stopped q

/-- No round from here on fails without writing the program counter back. -/
def Saves (vm : VirtualMachine) (orders : PrivateHeap → HashOrders) (t : ThreadState) : Prop :=
  ∀ t', MeteredReach (vm.hotNext orders) t t' → ¬ FailsUnsaved t'

theorem Saves.next (h : vm.Saves orders t) {p : Bool} {t' : ThreadState}
    (ht : vm.hotNext orders t = some (.next p t')) : vm.Saves orders t' :=
  fun _ hr => h _ (.head ⟨p, ht⟩ hr)

/-- What a round of the metered machine is in the loop with the local variables `l`. -/
inductive LoopRound (vm : VirtualMachine) (orders : PrivateHeap → HashOrders) (l : HotFrame)
    (u : ThreadState) :
    Option (MeteredStep ThreadState (Except VmError VmStep × ThreadState)) → Prop where
  | stuck (h : ∀ b, vm.hotLoop orders (b + 1) l u = none) : LoopRound vm orders l u none
  | free {l' : HotFrame} {u' : ThreadState} (hl : vm.Loaded l' u')
      (hless : l'.instructions.length - l'.pc < l.instructions.length - l.pc)
      (h : ∀ b, vm.hotLoop orders (b + 1) l u = vm.hotLoop orders (b + 1) l' u') :
      LoopRound vm orders l u (some (.next false (u'.setPc l'.pc)))
  | paid {l' : HotFrame} {u' : ThreadState} (hl : vm.Loaded l' u')
      (h : ∀ b, vm.hotLoop orders (b + 1) l u = vm.hotLoop orders b l' u') :
      LoopRound vm orders l u (some (.next true (u'.setPc l'.pc)))
  | leave {q : Except VmError VmStep × ThreadState} (hq : q.1 ≠ .ok .continue)
      (h : ∀ b, vm.hotLoop orders (b + 1) l u = some q) :
      LoopRound vm orders l u (some (.stop q))

theorem loopRound (hvm : vm.Framed) (hl : vm.Loaded l u) (hsv : ¬ FailsUnsaved (u.setPc l.pc)) :
    LoopRound vm orders l u (vm.hotNext orders (u.setPc l.pc)) := by
  rw [hotNext_apply hl hsv]
  cases hi : l.instructions[l.pc]? with
  | none => exact .stuck fun b => by simp [vm.hotLoop_loopNext orders b (l, u), loopNext, hi]
  | some i =>
    have hlp (b : ℕ) : vm.hotLoop orders (b + 1) l u = _ := vm.hotLoop_loopNext orders b (l, u)
    simp only [loopNext, hi, Option.bind_some] at hlp
    rw [Option.bind_some]
    obtain ⟨f, rest, hst⟩ := (hl.jump (l.pc + 1)).sits
    have hld : ∀ r u', vm.hotInstruction orders { l with pc := l.pc + 1 } i u = some (r, u') →
        After (vm.Resumed i f rest) (fun _ => True) r u' :=
      triple_hotInstruction (l := { l with pc := l.pc + 1 }) hvm (List.mem_of_getElem? hi) u hst
    rcases h : vm.hotInstruction orders { l with pc := l.pc + 1 } i u with _ | ⟨e | next, u'⟩
    · exact .stuck fun b => by rw [hlp, h]; rfl
    · exact .leave (fun he => by cases he) fun b => by rw [hlp, h]; rfl
    · have hrg := regular_hotInstruction u next u' h
      cases next with
      | advance l' =>
        cases hrg
        have hlt := (List.getElem?_eq_some_iff.mp hi).1
        refine .free (hld _ _ h _ rfl).1 ?_ fun b => by rw [hlp, h]; rfl
        show l.instructions.length - (l.pc + 1) < l.instructions.length - l.pc
        omega
      | spend l' => exact .paid (hld _ _ h _ rfl).1 fun b => by rw [hlp, h]; rfl
      | done s =>
        refine .leave ?_ fun b => by rw [hlp, h]; rfl
        intro he
        exact hrg (Except.ok.inj he)

theorem ending_of_ne {q : Except VmError VmStep × ThreadState} (hq : q.1 ≠ .ok .continue) :
    ending (some q) = .stopped q := by
  obtain ⟨e | s, t⟩ := q
  · rfl
  · cases s with
    | «continue» => exact absurd rfl hq
    | ret | suspend => rfl

/-- A run of the loop is a run of the metered machine. -/
theorem metered_hotLoop (hvm : vm.Framed) (bd : ℕ) (hl : vm.Loaded l u)
    (hs : vm.Saves orders (u.setPc l.pc)) :
    MeteredRun (vm.hotNext orders) bd (u.setPc l.pc) (ending (vm.hotLoop orders bd l u)) := by
  induction bd generalizing l u with
  | zero => exact .pause
  | succ b ih =>
    -- the rounds that are not charged go on towards the end of the function
    induction hk : l.instructions.length - l.pc using Nat.strongRecOn generalizing l u with
    | ind k ihk =>
      have hr : LoopRound vm orders l u _ := loopRound hvm hl (hs _ .refl)
      generalize hn : vm.hotNext orders (u.setPc l.pc) = next at hr
      cases hr with
      | stuck h =>
        rw [h]
        exact .stuck hn
      | free hl' hls h =>
        rw [h]
        exact .free hn (ihk _ (hk ▸ hls) hl' (hs.next hn) rfl)
      | paid hl' h =>
        rw [h]
        exact .paid hn (ih hl' (hs.next hn))
      | leave hq h =>
        rw [h, ending_of_ne hq]
        exact .stop hn

end VirtualMachine

end Galfus
