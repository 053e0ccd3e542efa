import Galfus.Vm.Budget
import Galfus.Vm.HotSteps

/-! # The two interpreters agree

`step` and the loop of `execute_with_budget` do the same with every instruction, unless it is
an operator on operands of a known type, which `step` passes over, a call or tail call of a
function of the module whose paths do not meet, or an operator that fails without writing
the program counter back. So the runs of both are the same, as long as no instruction is of
this kind and no adapter handle waits for its drop.
-/

namespace Galfus

open Exec

variable {vm : VirtualMachine} {orders : PrivateHeap → HashOrders} {l l' : HotFrame}
  {i : Instruction} {t t' s : ThreadState} {n : ℕ} {f : CallFrame} {rs : List CallFrame}
  {image : BytecodeModule} {v : VmValue}

theorem Alike.refl (t : ThreadState) : Alike t t := ⟨rfl, fun _ => rfl⟩

theorem Alike.trans (h : Alike t t') (h' : Alike t' s) : Alike t s := by
  refine ⟨?_, fun i => (h.registers i).trans (h'.registers i)⟩
  obtain ⟨heq, -⟩ := h
  obtain ⟨heq', -⟩ := h'
  rw [heq, heq']

/-- The operands and the callee are such that both interpreters do the same. -/
def Instruction.Meets (image : BytecodeModule) (t : ThreadState) : Instruction → Prop
  | .typedBinary _ _ _ _ _ => False
  | .binaryImmediate _ lhs op rhs =>
    (t.registers[t.currentRegisterBase + lhs]?).any (fun l => op.fails l rhs) = false
  | .call _ func _ argCount =>
    ∀ callee, image.functions[func]? = some callee → VirtualMachine.PathsMeet t callee argCount
  | .tailCall func _ argCount =>
    ∀ callee, image.functions[func]? = some callee → VirtualMachine.TailPathsMeet t callee argCount
  | _ => True

namespace VirtualMachine

open ThreadState

variable {q : Option (Except VmError VmStep × ThreadState)}

/-- Both interpreters do the same with the instruction at the program counter. -/
def Meets (vm : VirtualMachine) (t : ThreadState) : Prop :=
  ∀ f frames i image, t.callStack = f :: frames → f.cachedInstructions[f.pc]? = some i →
    vm.modules f.moduleId = some image → i.Meets image t

inductive StepAgrees (vm : VirtualMachine) :
    Option (MeteredStep ThreadState (Except VmError VmStep × ThreadState)) →
    Option (Except VmError VmStep × ThreadState) → Prop where
  | stuck : StepAgrees vm none none
  | next {paid : Bool} {t s : ThreadState} (h : vm.Moved .whole t s) :
      StepAgrees vm (some (.next paid t)) (some (.ok .continue, s))
  | stop {r : Except VmError VmStep} {t s : ThreadState} (hr : r ≠ .ok .continue) (h : Alike t s) :
      StepAgrees vm (some (.stop (r, t))) (some (r, s))

theorem stepAgrees_of_exact (hvm : vm.Framed) (hl : vm.Loaded l t) (hi : i ∈ l.instructions)
    (h : (vm.hotInstruction orders l i t).map stepOf = vm.dispatch (orders t.heap) i t) :
    StepAgrees vm ((vm.hotInstruction orders l i t).map settle)
      (vm.dispatch (orders t.heap) i t) := by
  rw [← h]
  obtain ⟨f, rs, hst⟩ := hl.sits
  have hld : ∀ r t', vm.hotInstruction orders l i t = some (r, t') →
      After (vm.Resumed i f rs) (fun _ => True) r t' := triple_hotInstruction hvm hi t hst
  rcases hr : vm.hotInstruction orders l i t with _ | ⟨e | next, t'⟩
  · exact .stuck
  · exact .stop (by simp) (.refl _)
  · have hrg := regular_hotInstruction t next t' hr
    have hn := hld _ _ hr
    cases next with
    | advance l' | spend l' => exact .next ((hn l' rfl).1.setPc _).moved
    | done s => exact .stop (fun hs => hrg (Except.ok.inj hs)) (.refl _)

theorem stepAgrees_call (hvm : vm.Framed) (h : vm.Standing n f rs t)
    (him : vm.modules f.moduleId = some image) {c : BytecodeFunction}
    {d fn a ac : ℕ} (hcl : image.functions[fn]? = some c)
    (hft : (Instruction.call d fn a ac).Fits image.constants n)
    (hme : PathsMeet t c ac) :
    StepAgrees vm ((vm.hotCall orders (f.load f.pc image) d fn a ac t).map settle)
      (vm.executeCall d fn a ac t) := by
  have hmt := callLocal_executeCall_moved hvm h him hcl hft hme
  have hsy : t.setPc (f.load f.pc image).pc = t := setPc_of_stack (Standing.callStack h)
  have hfr : ∀ t', callLocal f.moduleId f.registerBase d fn c a ac t =
      some (.ok (), t') → t'.setPc 0 = t' := by
    intro t' ht'
    rcases Nat.lt_or_ge t.callStack.length t.maxCallDepth with hdp | hdp
    · rw [callLocal_apply hdp (args_le_top h hft) (h.top' ▸ h.top_le')
        (hme.1.trans c.paramCount_le)] at ht'
      cases ht'
      rfl
    · rw [callLocal_depth hdp] at ht'
      cases ht'
  rw [hotCall_apply orders hcl, hsy, bind_apply]
  show StepAgrees vm (Option.map settle
    ((callLocal f.moduleId f.registerBase d fn c a ac t).bind _)) _
  generalize callLocal f.moduleId f.registerBase d fn c a ac t = p at hmt hfr
  generalize vm.executeCall d fn a ac t = q at hmt
  cases hmt with
  | stop => exact .stuck
  | ok hq =>
    obtain ⟨rfl, hmv⟩ := hq
    rw [← hfr _ rfl] at hmv
    exact .next hmv
  | error he =>
    subst he
    exact .stop (by simp) (.refl _)
  | excused hx => exact hx.elim

theorem Meets.not_failsUnsaved (hmeets : vm.Meets t) (h : vm.Standing n f rs t) :
    ¬ FailsUnsaved t := by
  rintro ⟨g, fs, i, hs, hi, hf⟩
  rw [Standing.callStack h] at hs
  cases hs
  obtain ⟨image, him, -⟩ := h.chain.codeFits
  have hm := hmeets f rs i image (Standing.callStack h) hi him
  cases i with
  | binaryImmediate d lh op r =>
    have hb : t.currentRegisterBase = f.registerBase := h.base'
    rw [Instruction.Meets, hb] at hm
    rw [Instruction.failsUnsaved, hm] at hf
    cases hf
  | typedBinary => exact hm
  | _ => cases hf

theorem moved_dispatch (hvm : vm.Framed) (h : vm.Standing n f rs t)
    (him : vm.modules f.moduleId = some image) (hi : i ∈ f.cachedInstructions)
    (hr : ¬ (i = .retNull ∨ ∃ sr, i = .ret sr)) (orders : HashOrders)
    {r : VmStep} (hrn : vm.dispatch orders i t = some (.ok r, t')) : vm.Moved .whole t' t' := by
  have hs : vm.Stepped i .whole f rs t' t' := triple_dispatch hvm him
    (h.chain.fits_mem him hi) (fun h => absurd h hr) t h _ _ hrn
  exact hs.moved

/-- Both interpreters on an instruction with which they do the same, with the program counter
moved on. -/
theorem stepAgrees_instruction (hvm : vm.Framed) (h : vm.Standing n f rs t)
    (him : vm.modules f.moduleId = some image) (hi : i ∈ f.cachedInstructions)
    (hmt : i.Meets image t) :
    StepAgrees vm ((vm.hotInstruction orders (f.load f.pc image) i t).map settle)
      (vm.dispatch (orders t.heap) i t) := by
  have hst := Standing.callStack h
  have hbs : (f.load f.pc image).registerBase = t.currentRegisterBase := h.base'.symm
  have hec : (vm.hotInstruction orders (f.load f.pc image) i t).map stepOf =
      vm.dispatch (orders t.heap) i t → _ :=
    stepAgrees_of_exact (l := f.load f.pc image) hvm ⟨h, him, rfl⟩ hi
  have hdl (hrt : ¬ (i = .retNull ∨ ∃ sr, i = .ret sr)) :
      (vm.delegate orders (f.load f.pc image) i t).map stepOf = vm.dispatch (orders t.heap) i t :=
    map_stepOf_delegate hst rfl fun _ => moved_dispatch hvm h him hi hrt _
  cases i with
  | typedBinary => exact hmt.elim
  | binaryImmediate => exact hec (map_stepOf_binaryImmediate hst rfl hbs)
  | binary op d lh r =>
    apply hec
    rw [hotInstruction]
    split
    · next hop => exact map_stepOf_binary hst rfl hbs hop
    · exact hdl (by simp)
  | loadNull => exact hec (map_stepOf_loadNull hst rfl hbs)
  | jump o =>
    apply hec
    exact (jump_apply hst o).symm
  | jumpTrue | jumpFalse => exact hec (map_stepOf_jumpIf hst rfl hbs)
  | jumpNull => exact hec (map_stepOf_jumpNull hst rfl hbs)
  | move => exact hec (map_stepOf_move hst rfl hbs)
  | call d fn a ac =>
    cases hcl : image.functions[fn]? with
    | some c =>
      exact stepAgrees_call hvm h him hcl (h.chain.fits_mem him hi) (hmt c hcl)
    | none =>
      apply hec
      rw [hotInstruction, hotCall]
      simp only [CallFrame.load, hcl]
      exact hdl (by simp)
  | tailCall fn a ac =>
    apply hec
    cases hcl : image.functions[fn]? with
    | some c => exact map_stepOf_tailCall h him hcl (hmt c hcl)
    | none =>
      rw [hotInstruction, hotTailCall]
      simp only [CallFrame.load, hcl]
      exact hdl (by simp)
  | ret => exact hec (map_stepOf_ret h hbs)
  | retNull => exact hec (map_stepOf_retNull h)
  | _ => exact hec (hdl (by simp))

theorem stepAgrees (orders : PrivateHeap → HashOrders) (hvm : vm.Framed) (h : vm.Standing n f rs t)
    (hmeets : vm.Meets t) : StepAgrees vm (vm.hotNext orders t) (vm.executeNext orders t) := by
  obtain ⟨image, him, -⟩ := h.chain.codeFits
  have hst := Standing.callStack h
  have hsv := hmeets.not_failsUnsaved h
  have hnx : vm.hotNext orders (t.setPc f.pc) = (f.cachedInstructions[f.pc]?).bind fun i =>
      (vm.hotInstruction orders (f.load (f.pc + 1) image) i t).map settle :=
    hotNext_apply (l := f.load f.pc image) ⟨h, him, rfl⟩
      (by rwa [CallFrame.load, setPc_of_stack hst])
  rw [setPc_of_stack hst] at hnx
  rw [hnx, executeNext_apply hst]
  cases hi : f.cachedInstructions[f.pc]? with
  | none => exact .stuck
  | some i =>
    have hmt := hmeets f rs i image hst hi him
    have hfl : i.failsUnsaved f.registerBase t.registers = false := by
      rw [Bool.eq_false_iff]
      exact fun hf => hsv ⟨f, rs, i, hst, hi, hf⟩
    have hse : Settles (vm.hotInstruction orders (f.load (f.pc + 1) image) i) t :=
      settles_hotInstruction hfl
    have hmt' : i.Meets image (t.setPc (f.pc + 1)) := by
      cases i with
      | call =>
        intro c hcl
        exact (pathsMeet_setPc _).mpr (hmt c hcl)
      | _ => exact hmt
    have hsn : vm.Standing n { f with pc := f.pc + 1 } rs (t.setPc (f.pc + 1)) :=
      Relocated.setPc h (f.pc + 1)
    have hsp : StepAgrees vm (Option.map settle (vm.hotInstruction orders
        (CallFrame.load { f with pc := f.pc + 1 } (f.pc + 1) image) i (t.setPc (f.pc + 1)))) _ :=
      stepAgrees_instruction hvm hsn him (List.mem_of_getElem? hi) hmt'
    rw [Option.bind_some, Option.bind_some, ← hse (f.pc + 1)]
    exact hsp

theorem Standing.of_whole (h : Relocated vm .whole n f rs t s) : vm.Standing n f rs t :=
  { h with
    heap := rfl
    moduleStates := rfl
    flag := rfl
    maxCallDepth := rfl
    stack' := h.stack.trans (congrArg (· ++ []) h.chain.frames_whole)
    base' := h.base
    top' := h.top
    top_le' := h.top_le
    registers := .refl _ _ _ }

theorem Moved.trans_whole (h : vm.Moved .whole t t') (h' : vm.Moved .whole t' s) :
    vm.Moved .whole t s := by
  obtain ⟨n, f, rs, h⟩ := h
  obtain ⟨n', f', r', h'⟩ := h'
  have hs : f :: rs ++ [] = f' :: r' ++ [] :=
    h.stack'.symm.trans (Standing.of_whole h').stack'
  rw [List.append_nil, List.append_nil, List.cons.injEq] at hs
  obtain ⟨rfl, rfl⟩ := hs
  obtain rfl : n = n' := by
    have ht := h.top'.symm.trans (Standing.of_whole h').top'
    omega
  refine ⟨n, f, rs, { h with
    heap := h.heap.trans h'.heap
    moduleStates := h.moduleStates.trans h'.moduleStates
    flag := h.flag.trans h'.flag
    maxCallDepth := h.maxCallDepth.trans h'.maxCallDepth
    stack' := h'.stack'
    base' := h'.base'
    top' := h'.top'
    top_le' := h'.top_le'
    registers := ⟨fun i hi => absurd hi (Nat.not_lt_zero i), fun i hi => ?_⟩ }⟩
  exact (h.registers.high i hi).trans (h'.registers.high i hi)

theorem StepAgrees.trans
    {p : Option (MeteredStep ThreadState (Except VmError VmStep × ThreadState))}
    {q' : Option (Except VmError VmStep × ThreadState)} (h : StepAgrees vm p q)
    (h' : Matches (fun _ => False)
      (fun a b s t => a = b ∧ Alike s t ∧ (a = .continue → vm.Moved .whole s t)) Alike q q') :
    StepAgrees vm p q' := by
  cases h with
  | stuck =>
    cases h' with
    | stop => exact .stuck
  | next hm =>
    cases h' with
    | ok hq =>
      obtain ⟨rfl, -, hmv⟩ := hq
      exact .next (hm.trans_whole (hmv rfl))
  | stop hr ha =>
    cases h' with
    | ok hq =>
      obtain ⟨rfl, ha', -⟩ := hq
      exact .stop hr (ha.trans ha')
    | error ha' => exact .stop hr (ha.trans ha')
    | excused hx => exact hx.elim

/-- A round of the loop in one thread and a step in another that differs in the room of the
register file. -/
theorem stepAgrees_moved (orders : PrivateHeap → HashOrders) (hvm : vm.Framed)
    (h : vm.Moved .whole t s) (hmeets : vm.Meets t) :
    StepAgrees vm (vm.hotNext orders t) (vm.executeNext orders s) := by
  obtain ⟨n, f, rs, h⟩ := h
  exact (stepAgrees orders hvm (.of_whole h) hmeets).trans (executeNext_whole hvm h)

/-- From here on both interpreters do the same with every instruction, and no adapter handle
waits for its drop. -/
def Agreeing (vm : VirtualMachine) (orders : PrivateHeap → HashOrders) (t : ThreadState) : Prop :=
  ∀ t', MeteredReach (vm.hotNext orders) t t' → vm.Meets t' ∧
    ∀ paid t'', vm.hotNext orders t' = some (.next paid t'') → t''.takeDrop = none

theorem Agreeing.next (h : vm.Agreeing orders t) {p : Bool}
    (ht : vm.hotNext orders t = some (.next p t')) : vm.Agreeing orders t' :=
  fun _ hr => h _ (.head ⟨p, ht⟩ hr)

theorem Meets.not_failsUnsaved_of_moved (hmeets : vm.Meets t) (h : vm.Moved .whole t t) :
    ¬ FailsUnsaved t := by
  obtain ⟨n, f, rs, h⟩ := h
  exact hmeets.not_failsUnsaved h

theorem Agreeing.moved (hvm : vm.Framed) (h : vm.Agreeing orders t) (ht : vm.Moved .whole t t)
    (hr : MeteredReach (vm.hotNext orders) t t') : vm.Moved .whole t' t' := by
  induction hr with
  | refl => exact ht
  | tail hr hn ih =>
    obtain ⟨p, hn⟩ := hn
    exact moved_next hvm ih ((h _ hr).1.not_failsUnsaved_of_moved ih) hn

theorem Agreeing.saves (hvm : vm.Framed) (h : vm.Agreeing orders t) (ht : vm.Moved .whole t t) :
    vm.Saves orders t :=
  fun t' hr => (h t' hr).1.not_failsUnsaved_of_moved (h.moved hvm ht hr)

theorem takeDrop_of_alike (h : Alike t s) (hquiet : t.takeDrop = none) : s.takeDrop = none := by
  rw [takeDrop, Option.map_eq_none_iff] at hquiet ⊢
  rw [h.eq] at hquiet
  exact hquiet

theorem Moved.alike (h : vm.Moved .whole t s) : Alike t s := by
  obtain ⟨n, f, rs, h⟩ := h
  exact h.alike

/-- How a run of the loop ends and where the steps have come to. -/
inductive EndAgrees (vm : VirtualMachine) :
    MeteredEnd ThreadState (Except VmError VmStep × ThreadState) →
    Option (Except VmError VmStep × ThreadState) → Prop where
  | stuck : EndAgrees vm .stuck none
  | paused {t s : ThreadState} (h : Alike t s) : EndAgrees vm (.paused t) (some (.ok .continue, s))
  | stopped {r : Except VmError VmStep} {t s : ThreadState} (h : Alike t s) :
      EndAgrees vm (.stopped (r, t)) (some (r, s))

theorem steps_succ_of_quiet (hquiet : s.takeDrop = none) (c : ℕ) : vm.steps orders (c + 1) s = (do
      let r ← vm.executeNext orders
      match r with
      | .continue => vm.steps orders c
      | r => pure r : ThreadExec VmStep) s := by
  rw [steps, bind_apply, step, orDrop_apply_none hquiet]
  rfl

section Run

variable (hvm : vm.Framed) (h : vm.Moved .whole t s) (ht : t.takeDrop = none) (hmeets : vm.Meets t)
include hvm h ht hmeets

theorem steps_of_next {p : Bool} (hn : vm.hotNext orders t = some (.next p t')) :
    ∃ s', vm.Moved .whole t' s' ∧ ∀ c, vm.steps orders (c + 1) s = vm.steps orders c s' := by
  have hs := stepAgrees_moved orders hvm h hmeets
  rw [hn] at hs
  generalize hq : vm.executeNext orders s = q at hs
  cases hs with
  | next hm =>
    refine ⟨_, hm, fun c => ?_⟩
    rw [steps_succ_of_quiet (takeDrop_of_alike h.alike ht), bind_apply, hq]
    rfl

theorem steps_of_stop {r : Except VmError VmStep}
    (hn : vm.hotNext orders t = some (.stop (r, t'))) :
    ∃ s', Alike t' s' ∧ ∀ c, vm.steps orders (c + 1) s = some (r, s') := by
  have hs := stepAgrees_moved orders hvm h hmeets
  rw [hn] at hs
  generalize hq : vm.executeNext orders s = q at hs
  cases hs with
  | stop hr ha =>
    refine ⟨_, ha, fun c => ?_⟩
    rw [steps_succ_of_quiet (takeDrop_of_alike h.alike ht), bind_apply, hq]
    rcases r with e | r
    · rfl
    · cases r with
      | «continue» => exact absurd rfl hr
      | ret | suspend => rfl

theorem steps_of_stuck (hn : vm.hotNext orders t = none) (c : ℕ) :
    vm.steps orders (c + 1) s = none := by
  have hs := stepAgrees_moved orders hvm h hmeets
  rw [hn] at hs
  generalize hq : vm.executeNext orders s = q at hs
  cases hs with
  | stuck =>
    rw [steps_succ_of_quiet (takeDrop_of_alike h.alike ht), bind_apply, hq]
    rfl

end Run

/-- A run of the loop is a run of `step`, with at least as many steps as the budget. -/
theorem endAgrees_of_metered (hvm : vm.Framed) {b : ℕ}
    {e : MeteredEnd ThreadState (Except VmError VmStep × ThreadState)}
    (hr : MeteredRun (vm.hotNext orders) b t e) (h : vm.Moved .whole t s)
    (hquiet : t.takeDrop = none) (hag : vm.Agreeing orders t) :
    ∃ c, b ≤ c ∧ EndAgrees vm e (vm.steps orders c s) := by
  induction hr generalizing s with
  | pause => exact ⟨0, le_rfl, .paused h.alike⟩
  | free hn _ ih | paid hn _ ih =>
    obtain ⟨hmeets, hd⟩ := hag _ .refl
    obtain ⟨s', hs', hs⟩ := steps_of_next hvm h hquiet hmeets hn
    obtain ⟨c, hle, hen⟩ := ih hs' (hd _ _ hn) (hag.next hn)
    exact ⟨c + 1, by omega, hs c ▸ hen⟩
  | @stop b t q hn =>
    obtain ⟨r, t'⟩ := q
    obtain ⟨s', ha, hs⟩ := steps_of_stop hvm h hquiet (hag _ .refl).1 hn
    exact ⟨b + 1, le_rfl, hs b ▸ .stopped ha⟩
  | @stuck b t hn =>
    exact ⟨b + 1, le_rfl, steps_of_stuck hvm h hquiet (hag _ .refl).1 hn b ▸ .stuck⟩

/-- The same report, with states that are alike, or both undefined. -/
inductive ReportsAgree : Option VmReport → Option VmReport → Prop where
  | undefined : ReportsAgree none none
  | same {r : Except VmPanic VmStep} {t s : ThreadState} (h : Alike t s) :
      ReportsAgree (some (r, t)) (some (r, s))

theorem ReportsAgree.report {r : Except VmError VmStep} (h : Alike t s) :
    ReportsAgree (some (VirtualMachine.report (r, t))) (some (VirtualMachine.report (r, s))) := by
  have ht : t.stackTrace = s.stackTrace := by
    rw [h.eq]
    rfl
  unfold VirtualMachine.report
  rw [ht]
  exact .same h

theorem reportsAgree_of_endAgrees {p : Option (Except VmError VmStep × ThreadState)}
    (h : EndAgrees vm (ending p) q) : ReportsAgree (p.map report) (q.map report) := by
  rcases p with _ | ⟨e | r, t⟩
  · cases h
    exact .undefined
  · cases h with
    | stopped h => exact .report h
  · cases r with
    | «continue» =>
      cases h with
      | paused h => exact .report h
    | ret | suspend =>
      cases h with
      | stopped h => exact .report h

/-- For every budget, `step` comes after some steps to the state and the result of
`execute_with_budget`, if both interpreters do the same with all instructions on the way and no
adapter handle waits for its drop. -/
theorem interpreters_agree (vm : VirtualMachine) (orders : PrivateHeap → HashOrders)
    (t : ThreadState) (budget : ℕ) (hvm : vm.Framed) (hready : vm.Ready t)
    (hagree : t.takeDrop = none → vm.Agreeing orders t) :
    ∃ count, budget ≤ count ∧ ReportsAgree (vm.executeWithBudget orders budget t)
      ((vm.steps orders count t).map report) := by
  cases hd : t.takeDrop with
  | some d =>
    obtain ⟨handle, t'⟩ := d
    refine ⟨budget + 1, by omega, ?_⟩
    rw [executeWithBudget, orDrop_apply_some hd, steps, bind_apply, step, orDrop_apply_some hd]
    exact .same (.refl _)
  | none =>
    have hec : vm.executeWithBudget orders budget t = (vm.hotRun orders budget t).map report := by
      rw [executeWithBudget, orDrop_apply_none hd]
      rfl
    rw [hec]
    rcases hready with hem | hmv
    · refine ⟨budget + 1, by omega, ?_⟩
      rw [steps_succ_of_quiet hd, hotRun_of_empty hem, bind_apply, executeNext_of_empty hem]
      exact .same (.refl _)
    · have hagree := hagree hd
      obtain ⟨count, hle, hen⟩ := endAgrees_of_metered hvm
        (metered_hotRun hvm budget hmv (hagree.saves hvm hmv)) hmv hd hagree
      exact ⟨count, hle, reportsAgree_of_endAgrees hen⟩

theorem interpreters_agree_call : ∃ count, 3 ≤ count ∧ ReportsAgree
      ((single passingModule).executeWithBudget (fun _ => .byIndex) 3 calling)
      (((single passingModule).steps (fun _ => .byIndex) count calling).map report) := by
  refine interpreters_agree _ _ calling 3 (framed_single (by decide))
    (.inr ⟨_, _, _, standing_threadOf (by decide) (by decide)⟩) fun _ t' ht' => ?_
  constructor
  · rcases (calling_reach ht').1 with rfl | rfl | rfl <;> rintro _ _ _ _ ⟨⟩ ⟨⟩ ⟨⟩
    · rintro _ ⟨⟩
      exact ⟨le_rfl, fun _ => ⟨rfl, fun _ h h' => absurd h' h.not_gt⟩⟩
    · trivial
    · trivial
  · intro p s hn
    rcases (calling_reach ht').2 p s hn with rfl | rfl <;> rfl

/-- `step` passes over an addition of integers of a known type. -/
theorem interpreters_differ :
    ((single (loopModule [.typedBinary .i32 .add 0 0 0, .ret 0])).executeWithBudget
        (fun _ => .byIndex) 1
        (threadOf [.typedBinary .i32 .add 0 0 0, .ret 0] [.int32 1] 1 false)).map
        (fun p => match p.1 with | .ok (.ret v _ _) => v | _ => .null) = some (.int32 2) ∧
    ((single (loopModule [.typedBinary .i32 .add 0 0 0, .ret 0])).steps
        (fun _ => .byIndex) 2
        (threadOf [.typedBinary .i32 .add 0 0 0, .ret 0] [.int32 1] 1 false)).map
        (fun p => match p.1 with | .ok (.ret v _ _) => v | _ => .null) = some (.int32 1) := by
  refine ⟨by decide, by decide⟩

end VirtualMachine

end Galfus
