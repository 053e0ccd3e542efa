import Galfus.Vm.FrameLocality

/-! # Locality of control instructions

Jumps, calls, tail calls and returns do the same in relocated threads, and so does every
instruction that does not return from the lowest relocated frame.
-/

namespace Galfus

open Exec

variable {vm : VirtualMachine} {m : Relocation} {n k : ℕ} {f g : CallFrame}
  {rest : List CallFrame} {s t s₀ t₀ : ThreadState} {X : VmError → Prop} {os : HashOrders}
  {E : ThreadState → ThreadState → Prop} {i : Instruction}

def CallFrame.reuse (f : CallFrame) (moduleId funcIdx : ℕ) (callee : BytecodeFunction)
    (saved : Bool) : CallFrame :=
  { f with
    moduleId := moduleId
    funcIdx := funcIdx
    pc := 0
    cachedInstructions := callee.instructions
    hasObjects := saved }

theorem VirtualMachine.Chain.reuse (h : vm.Chain m n f rest) {mi fi : ℕ} {c : BytecodeFunction}
    (hf : vm.CodeFits mi c.registerCount c.instructions) (sv : Bool) :
    vm.Chain m c.registerCount (f.reuse mi fi c sv) rest := by
  cases rest with
  | nil => exact ⟨h.1, hf⟩
  | cons g rest => exact ⟨hf, h.2⟩

/-- The instructions after which the next one is not executed. -/
def Instruction.ends : Instruction → Bool
  | .jump _ | .tailCall _ _ _ | .ret _ | .retNull | .panic _ => true
  | _ => false

/-- The offsets of the jumps of an instruction. -/
def Instruction.offsets : Instruction → List ℤ
  | .jump offset | .jumpTrue _ offset | .jumpFalse _ offset | .jumpNull _ offset => [offset]
  | _ => []

namespace VirtualMachine

/-- A frame at the first instruction of a function. -/
def Fresh (vm : VirtualMachine) (g : CallFrame) : Prop :=
  ∃ callee, vm.getFunction g.moduleId g.funcIdx = .ok callee ∧
    g.cachedInstructions = callee.instructions ∧ g.pc = 0

/-- The call stacks that an instruction may leave in the frame `f`, where the program counter
is already at the next instruction. -/
inductive Follows (vm : VirtualMachine) (i : Instruction) (f : CallFrame)
    (rest : List CallFrame) : List CallFrame → Prop where
  | stay (h : i.ends = false) : Follows vm i f rest (f :: rest)
  | jump {offset : ℤ} (h : offset ∈ i.offsets) :
      Follows vm i f rest ({ f with pc := jumpTarget f.pc offset } :: rest)
  | enter {g : CallFrame} (h : i.ends = false) (hg : vm.Fresh g) :
      Follows vm i f rest (g :: f :: rest)
  | reuse {g : CallFrame} (hg : vm.Fresh g) : Follows vm i f rest (g :: rest)
  | leave : Follows vm i f rest rest

/-- The threads are relocated, and their frames may follow those that `i` was executed in. -/
def Stepped (vm : VirtualMachine) (i : Instruction) (m : Relocation) (f : CallFrame)
    (rest : List CallFrame) (s t : ThreadState) : Prop :=
  ∃ n' f' rest', Relocated vm m n' f' rest' s t ∧ vm.Follows i f rest (f' :: rest')

theorem Stepped.moved {i : Instruction} (h : vm.Stepped i m f rest s t) : vm.Moved m s t := by
  obtain ⟨n', f', r', h, -⟩ := h
  exact ⟨n', f', r', h⟩

end VirtualMachine

namespace Relocated

theorem reserveRegs (h : Relocated vm m n f rest s t) (nt nt' : ℕ) :
    Relocated vm m n f rest { s with registers := ThreadState.reserve 0 nt s.registers }
      { t with registers := ThreadState.reserve 0 nt' t.registers } := by
  have hc := h.chain.cut_le
  have ht := h.top_le
  have ht' := h.top_le'
  refine { h with
    top_le := ht.trans (ThreadState.length_le_reserve _ _ _)
    top_le' := ht'.trans (ThreadState.length_le_reserve _ _ _)
    registers := ThreadState.shifted_reserve h.registers (by omega) (by omega)
    plain := fun i hi v hv => h.plain i hi v ?_ }
  rwa [ThreadState.getElem?_reserve (by omega)] at hv

end Relocated

/-- The computation does the same in relocated threads, and they have made a step. -/
abbrev VirtualMachine.LocalStep (vm : VirtualMachine) (X : VmError → Prop) (i : Instruction)
    (m : Relocation) (n : ℕ) (f : CallFrame) (rest : List CallFrame) {α : Type}
    (x : ThreadExec α) : Prop :=
  Sim X (Relocated vm m n f rest) x x (fun a b s t => a = b ∧ vm.Stepped i m f rest s t)
    (vm.Moved m)

namespace ThreadState

theorem jump_apply {fs : List CallFrame} (h : t.callStack = f :: fs) (o : ℤ) :
    jump o t = some (.ok .continue, t.setPc (jumpTarget f.pc o)) := by
  simp [jump, Exec.get_bind, h, Exec.modify_bind]

theorem leads_jump {o : ℤ} (hi : o ∈ i.offsets) : vm.LocalStep X i m n f rest (jump o) := by
  intro s t h
  rw [jump_apply h.stack, jump_apply h.stack']
  exact .ok ⟨rfl, _, _, _, h.setPc _, .jump hi⟩

theorem sim_readRegs {st c : ℕ} (hc : m.cut ≤ st) (hl : 0 < c → st + c ≤ t₀.registers.length ∧
      st + m.gap + c ≤ s₀.registers.length) :
    Sim X (Aligned m s₀ t₀) (readRegs (st + m.gap) c) (readRegs st c)
      (fun a b s t => a = b ∧ a.length = c ∧ Aligned m s₀ t₀ s t) E := by
  intro s t ha
  have hw : (s.registers.drop (st + m.gap)).take c = (t.registers.drop st).take c := by
    rcases Nat.eq_zero_or_pos c with rfl | hp
    · rfl
    · exact ha.registers.take_drop hc (by rw [ha.length']; exact (hl hp).1)
        (by rw [ha.length]; exact (hl hp).2)
  dsimp only [readRegs]
  rw [hw]
  split
  · exact .ok ⟨rfl, ‹_›, ha⟩
  · exact .stop

theorem sim_clearFrame {b nt : ℕ} (hct : m.cut ≤ b)
    (htp : t₀.currentRegisterTop ≤ t₀.registers.length)
    (ht' : s₀.currentRegisterTop ≤ s₀.registers.length)
    (hg : s₀.currentRegisterTop = t₀.currentRegisterTop + m.gap)
    (hn : nt ≤ t₀.registers.length) (hn' : nt + m.gap ≤ s₀.registers.length) :
    Sim X (Aligned m s₀ t₀) (clearFrame (b + m.gap) (nt + m.gap)) (clearFrame b nt)
      (fun _ _ => Aligned m s₀ t₀) E := by
  apply Sim.get_bind
  intro s t h
  have hs : s.currentRegisterTop = s₀.currentRegisterTop := by rw [h.eq]
  have ht : t.currentRegisterTop = t₀.currentRegisterTop := by rw [h.eq']
  rw [h.flag, hs, ht, hg]
  split
  · exact sim_releaseRegs hct htp (hg ▸ ht') _ _ h
  · have hc : max (t₀.currentRegisterTop + m.gap) (nt + m.gap) - (b + m.gap) =
        max t₀.currentRegisterTop nt - b := by omega
    rw [hc]
    exact sim_forM_range (fun i hi => sim_clearReg ⟨by omega, by omega, by omega⟩) _ _ h

theorem sim_placeArgs {b : ℕ} {a : List VmValue} (hc : m.cut ≤ b)
    (hl : b + a.length ≤ t₀.registers.length)
    (hl' : b + a.length + m.gap ≤ s₀.registers.length) :
    Sim X (Aligned m s₀ t₀) (placeArgs (b + m.gap) a) (placeArgs b a)
      (fun _ _ => Aligned m s₀ t₀) E := by
  refine .bind (Q := fun _ _ => Aligned m s₀ t₀) (.modify ?_) ?_
  · intro s t h
    refine { h with flag := rfl, eq := ?_, eq' := ?_ }
    · conv_lhs => rw [h.eq]
    · conv_lhs => rw [h.eq']
  · rintro - -
    apply Sim.forM
    rw [List.forall₂_iff_get]
    refine ⟨by simp, fun i hi _ => ?_⟩
    simp only [List.length_zipIdx] at hi
    have hp : Sim X (Aligned m s₀ t₀) (placeArg (b + i + m.gap) a[i])
        (placeArg (b + i) a[i]) (fun _ _ => Aligned m s₀ t₀) E :=
      sim_placeArg ⟨by omega, by omega, by omega⟩ _
    simpa [Nat.add_right_comm] using hp

theorem reuseFrame_apply {fs : List CallFrame} (h : t.callStack = f :: fs)
    (mi fi nt : ℕ) (c : BytecodeFunction) :
    reuseFrame mi fi nt c t = some (.ok (), { t with
      currentRegisterTop := nt
      callStack := f.reuse mi fi c t.currentFrameHasObjects :: fs }) := by
  simp only [reuseFrame, Exec.get_bind, h, Exec.modify_apply]
  rfl

theorem sim_reuseFrame (h : Relocated vm m n f rest s₀ t₀) {mi fi : ℕ} {c : BytecodeFunction}
    (hf : vm.CodeFits mi c.registerCount c.instructions)
    (hn : f.registerBase + c.registerCount ≤ t₀.registers.length)
    (hn' : f.registerBase + c.registerCount + m.gap ≤ s₀.registers.length) :
    Sim X (Aligned m s₀ t₀) (reuseFrame mi fi (f.registerBase + c.registerCount + m.gap) c)
      (reuseFrame mi fi (f.registerBase + c.registerCount) c)
      (fun _ _ s t => ∃ sv, Relocated vm m c.registerCount (f.reuse mi fi c sv) rest s t) E := by
  intro s t ha
  have h₁ := h.of_aligned ha
  rw [reuseFrame_apply h₁.stack, reuseFrame_apply h₁.stack', h₁.flag]
  have hl := ha.length
  have hl' := ha.length'
  refine .ok ⟨t.currentFrameHasObjects, ?_⟩
  exact { h₁ with
    flag := rfl
    stack := rfl
    stack' := rfl
    top := rfl
    top' := rfl
    top_le := by dsimp only [CallFrame.reuse]; omega
    top_le' := by dsimp only [CallFrame.reuse]; omega
    chain := h.chain.reuse hf _ }

/-- There is room for `count` registers at the base of the current frame. -/
def Room (m : Relocation) (f : CallFrame) (count : ℕ) (s t : ThreadState) : Prop :=
  f.registerBase + count ≤ t.registers.length ∧ f.registerBase + count + m.gap ≤ s.registers.length

theorem sim_reserveRegs (c : ℕ) : Sim X (Relocated vm m n f rest)
    (reserveRegs (f.registerBase + m.gap + c)) (reserveRegs (f.registerBase + c))
    (fun _ _ s t => Relocated vm m n f rest s t ∧ Room m f c s t) E := by
  apply Sim.modify
  intro s t h
  refine ⟨h.reserveRegs _ _, le_length_reserve _ _ _, ?_⟩
  rw [Nat.add_right_comm]
  exact le_length_reserve _ _ _

/-- A tail call in relocated threads, where `ms` are registers of the frame. -/
theorem sim_replaceFrame {mi fi argsStart argCount : ℕ} {c : BytecodeFunction}
    {ms : List ℕ} (hft : vm.CodeFits mi c.registerCount c.instructions)
    (hst : 0 < argCount → argsStart + argCount ≤ n) (_ : argCount ≤ c.registerCount)
    (hms : ∀ i ∈ ms, i < c.registerCount) :
    Sim X (Relocated vm m n f rest)
      (replaceFrame mi (f.registerBase + m.gap) fi c argsStart argCount ms)
      (replaceFrame mi f.registerBase fi c argsStart argCount ms)
      (fun _ _ s t => ∃ sv, Relocated vm m c.registerCount (f.reuse mi fi c sv) rest s t) E := by
  refine (sim_reserveRegs c.registerCount).bind ?_
  rintro - - s₀ t₀ ⟨h, hrm, hrm'⟩
  have hct := h.chain.cut_le
  have htp := h.top_le
  have htp' := h.top_le'
  have hrd : Sim X (Aligned m s₀ t₀) (readRegs (f.registerBase + argsStart + m.gap) argCount)
      (readRegs (f.registerBase + argsStart) argCount)
      (fun a b s t => a = b ∧ a.length = argCount ∧ Aligned m s₀ t₀ s t) E :=
    sim_readRegs (by omega) fun hps => ⟨by omega, by omega⟩
  rw [Nat.add_right_comm] at hrd
  refine hrd.bind ?_ s₀ t₀ h.aligned
  rintro ar _ s₁ t₁ ⟨rfl, hln, ha⟩
  rw [Nat.add_right_comm f.registerBase m.gap]
  refine Sim.bind (P := Aligned m s₀ t₀) (Q := fun _ _ => Aligned m s₀ t₀) ?_ ?_ s₁ t₁ ha
  · apply Sim.forM
    rw [List.forall₂_same]
    intro i hi
    have := hms i hi
    rw [Nat.add_right_comm]
    exact sim_clearReg ⟨by omega, by omega, by omega⟩
  · rintro - -
    refine (sim_clearFrame hct (h.top' ▸ htp') (h.top ▸ htp) (by rw [h.top, h.top'])
      hrm hrm').bind ?_
    rintro - -
    refine (sim_placeArgs hct (by omega) (by omega)).bind ?_
    rintro - -
    exact sim_reuseFrame h hft hrm hrm'

end ThreadState

theorem BytecodeFunction.paramCount_le (c : BytecodeFunction) : c.paramCount ≤ c.registerCount := by
  unfold BytecodeFunction.registerCount
  omega

namespace VirtualMachine

open ThreadState

theorem toMoved {α : Type} {x : ThreadExec α} (hi : i.ends = false)
    (h : vm.Local X m n f rest x) : vm.LocalStep X i m n f rest x :=
  .conseq h (fun _ _ hst => hst) (fun _ _ _ _ hst => ⟨hst.1, n, f, rest, hst.2, .stay hi⟩)
    fun _ _ hst => ⟨n, f, rest, hst⟩

theorem moved_bind {α : Type} {x : ThreadExec α} {next : α → ThreadExec VmStep}
    (hx : vm.Local X m n f rest x)
    (h : ∀ a, vm.LocalStep X i m n f rest (next a)) : vm.LocalStep X i m n f rest (x >>= next) :=
  hx.bind_sim (fun _ _ hst => ⟨_, _, _, hst⟩) h

theorem moved_throw {α : Type} (e : VmError) :
    vm.LocalStep X i m n f rest (Exec.throw e : ThreadExec α) :=
  fun _ _ h => .error ⟨_, _, _, h⟩

section Calls

variable {d fn argsStart ac : ℕ}

theorem leads_jumpIf {c : ℕ} {o : ℤ} (hi : o ∈ i.offsets) (hen : i.ends = false)
    (hc : c < n) (tk : Bool) :
    vm.LocalStep X i m n f rest (jumpIf c tk o) := by
  refine moved_bind (keeps_readReg hc) fun v => ?_
  split
  · split
    · exact leads_jump hi
    · exact toMoved hen (.pure _)
  · exact moved_throw _

theorem leads_jumpNull {vl : ℕ} {o : ℤ} (hi : o ∈ i.offsets) (hen : i.ends = false)
    (hv : vl < n) : vm.LocalStep X i m n f rest (jumpNull vl o) := by
  refine moved_bind (keeps_readReg hv) fun v => ?_
  split
  · exact leads_jump hi
  · exact toMoved hen (.pure _)

/-- After the check of the arity there are not too many arguments. -/
theorem leads_checkArity_bind {c : BytecodeFunction} {next : Unit → ThreadExec VmStep}
    (h : ac ≤ c.paramCount → vm.LocalStep X i m n f rest (next ())) :
    vm.LocalStep X i m n f rest (checkArity c ac >>= next) := by
  unfold checkArity
  split
  · exact moved_throw _
  · exact h (by omega)

theorem leads_lift_bind {α : Type} {y : Except VmError α} {next : α → ThreadExec VmStep}
    (h : ∀ a, y = .ok a → vm.LocalStep X i m n f rest (next a)) :
    vm.LocalStep X i m n f rest (Exec.lift y >>= next) := by
  cases y with
  | error e => exact moved_throw _
  | ok a => exact h a rfl

theorem leads_enterFunction (hvm : vm.Framed) (hen : i.ends = false)
    {tm tf : ℕ} {ha : Option ℕ} (hd : d < n)
    (hr : ∀ r ∈ argRegs argsStart ac ha, r < n) :
    vm.LocalStep m.Excuses i m n f rest (vm.enterFunction d tm tf argsStart ac ha) := by
  refine leads_lift_bind fun c hc => leads_checkArity_bind fun har => ?_
  refine Sim.bind ((sim_pushFrame hd (hvm.codeFits hc)).conseq (fun _ _ h => h)
    (fun _ _ _ _ h => h) fun _ _ h => ⟨n, f, rest, h⟩) ?_
  rintro - - s₁ t₁ ⟨sv, h⟩
  refine Matches.mono (Keeps.map (keeps_setupArgsFromCaller rfl hr har c.paramCount_le
    h.chain.2.choose_spec.2.2.cut_le) _ s₁ t₁ h) (fun _ _ _ _ hst => ?_)
    fun _ _ hst => ⟨_, _, _, hst⟩
  exact ⟨hst.1, _, _, _, hst.2, .enter hen ⟨c, hc, rfl, rfl⟩⟩

theorem leads_executeCall (hvm : vm.Framed) (hen : i.ends = false) (hd : d < n)
    (hr : ∀ r ∈ regRange argsStart ac, r < n) :
    vm.LocalStep m.Excuses i m n f rest (vm.executeCall d fn argsStart ac) :=
  moved_bind keeps_currentModule fun _ =>
    moved_bind (keeps_resolveFunction _ _) fun _ =>
      leads_enterFunction hvm hen hd hr

theorem leads_executeTailCall (hvm : vm.Framed) (hs : 0 < ac → argsStart + ac ≤ n) :
    vm.LocalStep X i m n f rest (vm.executeTailCall fn argsStart ac) := by
  refine moved_bind keeps_currentModule fun mi =>
    moved_bind (keeps_resolveFunction _ _) fun tr =>
      leads_lift_bind fun c hc => leads_checkArity_bind fun ha => ?_
  apply Sim.get_bind
  intro s t h
  rw [h.base, h.base']
  have hp := c.paramCount_le
  refine Sim.bind (sim_replaceFrame (hvm.codeFits hc) hs (ha.trans hp) ?_) ?_ s t h
  · intro i hi
    rw [List.mem_range'_1] at hi
    omega
  · rintro - -
    refine Sim.pure fun _ _ h => ⟨rfl, ?_⟩
    obtain ⟨sv, h⟩ := h
    exact ⟨_, _, _, h, .reuse ⟨c, hc, rfl, rfl⟩⟩

theorem sim_returnTo {fr f' : CallFrame} (hd : fr.returnDest = f'.returnDest)
    (hm : fr.moduleId = f'.moduleId) (hf : fr.funcIdx = f'.funcIdx)
    (hft : ∀ d ∈ f'.returnDest, d < n) (v : VmValue) :
    Sim X (Relocated vm m n f rest) (vm.returnTo fr v) (vm.returnTo f' v)
      (fun a b s t => a = b ∧ Relocated vm m n f rest s t) (Relocated vm m n f rest) := by
  unfold returnTo
  rw [hd, hm, hf]
  split
  · exact (keeps_writeReg (hft _ ‹_›) _).map _
  · exact (Keeps.lift _).map _

theorem leads_executeReturn (v : VmValue) :
    vm.LocalStep X i m n f (g :: rest) (vm.executeReturn v) := by
  intro s t h
  obtain ⟨-, k, hk, hd, hc⟩ := h.chain
  refine Sim.bind sim_popFrame ?_ s t h
  rintro _ _ s₁ t₁ ⟨rfl, rfl, hp⟩
  exact (sim_returnTo rfl rfl rfl hd v s₁ t₁ (hp.relocated hk hc)).mono
    (fun _ _ _ _ hst => ⟨hst.1, _, _, _, hst.2, .leave⟩) fun _ _ hst => ⟨_, _, _, hst⟩

theorem leads_executeRet {sr : ℕ} (hs : sr < n) :
    vm.LocalStep X i m n f (g :: rest) (vm.executeRet sr) :=
  moved_bind (keeps_readReg hs) fun _ =>
    moved_bind (keeps_onHeap _) fun _ => leads_executeReturn _

end Calls

section Methods

variable {d o argsStart ac : ℕ} {argTypes : List ℕ} {rt : Option ℕ}

theorem keeps_arrayIterator (v : VmValue) : vm.Local X m n f rest (vm.arrayIterator v) := by
  cases v with
  | object r =>
    apply Keeps.get_bind
    · intro s t h
      rw [h.heap]
    · intro s
      refine (Keeps.lift _).bind fun o => ?_
      split
      · refine (Keeps.lift _).bind fun image => ?_
        split
        · split
          · exact .pure _
          · exact .throw _
          · exact .throw _
        · exact .pure _
      · exact .pure _
  | _ => exact .pure _

theorem keeps_executeArrayIteratorMethod (ho : o < n) (nm : String) :
    vm.Local X m n f rest (vm.executeArrayIteratorMethod o nm) := by
  refine (keeps_readReg ho).bind fun v => (keeps_arrayIterator v).bind fun ir => ?_
  split
  · exact .pure _
  · split
    · apply Keeps.get_bind
      · intro s t h
        rw [h.heap]
      · intro s
        exact (Keeps.lift _).bind fun _ => (keeps_onHeap _).map _
    · split
      · apply Keeps.get_bind
        · intro s t h
          rw [h.heap]
        · intro s
          refine (Keeps.lift _).bind fun a => ?_
          split
          · split
            · exact .pure _
            · exact (Keeps.lift _).bind fun _ => (keeps_onHeap _).map _
          · exact .throw _
      · exact .pure _

theorem keeps_receiverLayout (v : VmValue) : vm.Local X m n f rest (vm.receiverLayout v) := by
  cases v with
  | object r =>
    apply Keeps.get_bind
    · intro s t h
      rw [h.heap]
    · intro s
      refine (Keeps.lift _).bind fun o => ?_
      split
      · exact (Keeps.lift _).map _
      · exact .pure _
  | _ => exact .pure _

theorem leads_callMethodNamed (hvm : vm.Framed) (hen : i.ends = false) (nm : String)
    (v : VmValue) (hd : d < n)
    (hr : ∀ r ∈ argRegs argsStart ac (some o), r < n) :
    vm.LocalStep m.Excuses i m n f rest (vm.callMethodNamed nm v d o argsStart ac argTypes rt) := by
  refine moved_bind (keeps_receiverLayout v) fun l =>
    moved_bind keeps_currentModule fun mi =>
      leads_lift_bind fun tr _ => ?_
  dsimp only
  split
  · exact toMoved hen ((keeps_gather hr).map _)
  · exact leads_enterFunction hvm hen hd hr

/-- The name of a method is a text constant of the current module. -/
theorem leads_methodName_bind {nc : ℕ} {next : String → ThreadExec VmStep}
    {image : BytecodeModule} (hi : vm.modules f.moduleId = some image)
    (h : ∀ nm, image.constants[nc]? = some (.string nm) → vm.LocalStep X i m n f rest (next nm)) :
    vm.LocalStep X i m n f rest (vm.methodName nc >>= next) := by
  intro s t hst
  have him : ∀ {u : ThreadState} {g : CallFrame} {fs : List CallFrame},
      u.callStack = g :: fs → g.moduleId = f.moduleId →
        vm.currentImage u = some (.ok image, u) := by
    intro u g fs hu hg
    simp [currentImage, bind_apply, currentModule_apply hu, hg, getModule, hi]
  simp only [methodName, bind_apply, him hst.stack rfl, him hst.stack' rfl, Option.bind_some]
  cases hc : image.constants[nc]? with
  | none => exact .error ⟨_, _, _, hst⟩
  | some c =>
    cases c with
    | string nm => exact h nm hc s t hst
    | _ => exact .error ⟨_, _, _, hst⟩

theorem leads_executeCallMethod (hvm : vm.Framed) (hen : i.ends = false) {nc : ℕ}
    {image : BytecodeModule} (hi : vm.modules f.moduleId = some image) (hd : d < n)
    (ho : o < n) (hr : ∀ r ∈ argRegs argsStart ac (some o), r < n)
    (hc : image.constants[nc]? = some (.string "compare") → (argsStart + 1) % 2 ^ 16 < n) :
    vm.LocalStep m.Excuses i m n f rest (vm.executeCallMethod d o nc argsStart ac argTypes rt) := by
  refine leads_methodName_bind hi fun nm hn =>
    moved_bind (keeps_executeArrayIteratorMethod ho nm) fun it => ?_
  split
  · exact toMoved hen ((keeps_writeReg hd _).map _)
  · refine moved_bind (keeps_readReg ho) fun v => ?_
    split
    · rename_i hn'
      rw [hn'.1] at hn
      exact toMoved hen ((keeps_readReg (hc hn)).bind fun _ =>
        (keeps_writeReg hd _).map _)
    · exact leads_callMethodNamed hvm hen nm v hd hr

theorem leads_executeCallDynamic (hvm : vm.Framed) (hen : i.ends = false) {fr : ℕ}
    (hd : d < n) (hf : fr < n)
    (hr : ∀ r ∈ regRange argsStart ac, r < n) :
    vm.LocalStep m.Excuses i m n f rest (vm.executeCallDynamic d fr argsStart ac) := by
  refine moved_bind (keeps_readReg hf) fun v => ?_
  split
  · exact moved_bind (keeps_resolveFunction _ _) fun _ =>
      leads_enterFunction hvm hen hd hr
  · exact moved_throw _

theorem leads_executePanic (ci : ℕ) : vm.LocalStep X i m n f rest (vm.executePanic ci) := by
  refine moved_bind keeps_currentImage fun image => ?_
  split <;> exact moved_throw _

end Methods

section Dispatch

theorem regRange_lt {st c : ℕ} (h : ∀ r ∈ registerRange st c, r < n ∧ r < 2 ^ 16) :
    ∀ r ∈ regRange st c, r < n := by
  intro r hr
  obtain ⟨i, hi, rfl⟩ := List.mem_map.mp hr
  rw [List.mem_range] at hi
  have hm := h (st + i) (mem_registerRange.mpr ⟨by omega, by omega⟩)
  rw [Nat.mod_eq_of_lt hm.2]
  exact hm.1

theorem argRegs_receiver_lt {obj st c : ℕ} (ho : obj < n)
    (h : ∀ r ∈ registerRange (st + 1) (c - 1), r < n ∧ r < 2 ^ 16) :
    ∀ r ∈ argRegs st c (some obj), r < n := by
  intro r hr
  cases c with
  | zero => simp [argRegs, regRange] at hr
  | succ c =>
    simp only [argRegs, regRange, List.range_succ_eq_map, List.map_cons, List.set_cons_zero,
      List.mem_cons, List.map_map, List.mem_map, List.mem_range, Function.comp_apply] at hr
    obtain rfl | ⟨i, hi, rfl⟩ := hr
    · exact ho
    · have hm := h (st + 1 + i) (mem_registerRange.mpr ⟨by omega, by omega⟩)
      rw [show st + i.succ = st + 1 + i by omega, Nat.mod_eq_of_lt hm.2]
      exact hm.1

variable {image : BytecodeModule} {cs : List Constant}

theorem fits_range {st c : ℕ} (h : i.Fits cs n) (hrn : ∀ r ∈ registerRange st c, r ∈ i.reads cs) :
    ∀ r ∈ regRange st c, r < n :=
  regRange_lt fun r hr => h r (by simp [hrn r hr])

theorem leads_executeControlInstruction (hvm : vm.Framed) (him : vm.modules f.moduleId = some image)
    (hft : i.Fits image.constants n) (hrt : i = .retNull ∨ (∃ sr, i = .ret sr) → rest ≠ []) :
    vm.LocalStep m.Excuses i m n f rest (vm.executeControlInstruction i) := by
  cases i with
  | jump o => exact leads_jump (.head _)
  | jumpTrue | jumpFalse => exact leads_jumpIf (.head _) rfl (hft.src (.head _)) _
  | jumpNull => exact leads_jumpNull (.head _) rfl (hft.src (.head _))
  | call dest func st c =>
    exact leads_executeCall hvm rfl (hft.dest rfl) (fits_range hft fun _ hr => hr)
  | tailCall func st c =>
    refine leads_executeTailCall hvm fun hps => ?_
    have hls := hft (st + c - 1) (by
      simp only [Instruction.reads, List.mem_append, mem_registerRange]
      exact .inl ⟨by omega, by omega⟩)
    omega
  | callMethod dest obj nc st c argTypes returnType =>
    have hob := (hft.src (.head _))
    refine leads_executeCallMethod hvm rfl him (hft.dest rfl) hob
      (argRegs_receiver_lt hob fun r hr => hft r ?_) fun hnm => ?_
    · simp only [Instruction.reads, List.cons_append, List.mem_cons, List.mem_append,
        mem_registerRange] at hr ⊢
      refine .inr (.inl ⟨hr.1, ?_⟩)
      split <;> omega
    · have har := hft (st + 1) (by
        simp only [Instruction.reads, hnm, List.cons_append, List.mem_cons, List.mem_append,
          mem_registerRange, if_true]
        exact .inr (.inl ⟨by omega, by omega⟩))
      rw [Nat.mod_eq_of_lt har.2]
      exact har.1
  | callDynamic dest fr st c =>
    exact leads_executeCallDynamic hvm rfl (hft.dest rfl) (hft.src (.head _))
      (fits_range hft fun _ hr => .tail _ hr)
  | ret sr =>
    obtain ⟨g, rest, rfl⟩ := List.exists_cons_of_ne_nil (hrt (.inr ⟨sr, rfl⟩))
    exact leads_executeRet (hft.src (.head _))
  | retNull =>
    obtain ⟨g, rest, rfl⟩ := List.exists_cons_of_ne_nil (hrt (.inl rfl))
    exact leads_executeReturn _
  | panic ci => exact leads_executePanic _
  | _ => exact fun _ _ _ => .stop

theorem keeps_executeSystemInstruction (hft : i.Fits image.constants n) :
    vm.Local X m n f rest (vm.executeSystemInstruction i) := by
  cases i with
  | drop rg => exact keeps_executeDrop (hft.src (.head _))
  | awaitFuture dest fr returnType => exact keeps_executeAwaitFuture (hft.src (.head _))
  | createFuture dest func st c argTypes returnType =>
    exact keeps_executeCreateFuture (fits_range hft fun _ hr => hr)
  | createAwaitFuture dest o st c argTypes returnType
  | callInternalThread dest o st c argTypes returnType =>
    exact keeps_executeHostOperation (fits_range hft fun _ hr => hr)
  | createIndirectFuture dest r st c argTypes returnType =>
    exact keeps_executeCreateIndirectFuture (hft.src (.head _))
      (fits_range hft fun _ hr => .tail _ hr)
  | awaitAll dest st c returnType | awaitRace dest st c returnType =>
    exact keeps_executeAwaitMany (fits_range hft fun _ hr => hr)
  | len dest sr => exact keeps_executeLen (hft.dest rfl) (hft.src (.head _))
  | copyArray dest ds sr =>
    exact keeps_executeCopyArray (hft.src (.head _))
      (hft.src (.tail _ (.head _))) (hft.src (.tail _ (.tail _ (.head _))))
  | callInternalMath dest o st c =>
    exact keeps_executeCallInternalMath (hft.dest rfl) (fits_range hft fun _ hr => hr)
  | _ => exact .stop

theorem keeps_executeInstruction (os : HashOrders) (hft : i.Fits image.constants n) :
    vm.Local X m n f rest (vm.executeInstruction os i) := by
  cases i with
  | allocLocal dest ti => exact keeps_executeAllocLocal (hft.dest rfl)
  | loadField dest obj fl => exact keeps_executeLoadField (hft.dest rfl) (hft.src (.head _))
  | storeField obj fl v =>
    exact keeps_executeStoreField (hft.src (.head _)) (hft.src (.tail _ (.head _)))
  | newArray dest ti lr => exact keeps_executeNewArray (hft.dest rfl) (hft.src (.head _))
  | loadIndex dest a ix =>
    exact keeps_executeLoadIndex (hft.dest rfl) (hft.src (.head _)) (hft.src (.tail _ (.head _)))
  | storeIndex a ix v =>
    exact keeps_executeStoreIndex (hft.src (.head _))
      (hft.src (.tail _ (.head _))) (hft.src (.tail _ (.tail _ (.head _))))
  | newTuple dest ti st c =>
    exact keeps_executeNewTuple (hft.dest rfl) (fits_range hft fun _ hr => hr)
  | newChoice dest ti vi p =>
    exact keeps_executeNewChoice (hft.dest rfl) (hft.src (.head _))
  | cast dest sr ti => exact keeps_executeCastTo (hft.dest rfl) (hft.src (.head _))
  | copy dest sr => exact keeps_executeCopy (hft.dest rfl) (hft.src (.head _))
  | instanceof dest sr ti =>
    exact keeps_executeInstanceof (hft.dest rfl) (hft.src (.head _))
  | move dest sr => exact keeps_executeMove (hft.dest rfl) (hft.src (.head _))
  | loadGlobal dest mi gi => exact keeps_executeLoadGlobal (hft.dest rfl)
  | storeGlobal mi gi sr => exact keeps_executeStoreGlobal (hft.src (.head _))
  | loadNull dest =>
    exact (keeps_writeReg (hft.dest rfl) _).map _
  | fallback dest sr o =>
    exact keeps_executeFallback (hft.dest rfl) (hft.src (.head _)) (hft.src (.tail _ (.head _)))
  | drop r => exact keeps_executeDrop (hft.src (.head _))
  | _ => exact .stop

theorem keeps_executeOperatorInstruction (hf : i.Fits image.constants n) :
    vm.Local X m n f rest (vm.executeOperatorInstruction i) := by
  cases i with
  | binary op dest l r =>
    exact keeps_executeBinary op (hf.dest rfl) (hf.src (.head _)) (hf.src (.tail _ (.head _)))
  | unary op dest sr => exact keeps_executeUnary op (hf.dest rfl) (hf.src (.head _))
  | binaryImmediate dest l op im =>
    exact keeps_executeBinaryImmediate op im (hf.dest rfl) (hf.src (.head _))
  | fallback dest sr o =>
    exact keeps_executeFallback (hf.dest rfl) (hf.src (.head _)) (hf.src (.tail _ (.head _)))
  | _ => exact .stop

/-- Every instruction that does not return from the lowest relocated frame has the same
result in relocated threads. -/
theorem leads_dispatch (hvm : vm.Framed) (hi : vm.modules f.moduleId = some image)
    (hf : i.Fits image.constants n) (hr : i = .retNull ∨ (∃ sr, i = .ret sr) → rest ≠ []) :
    vm.LocalStep m.Excuses i m n f rest (vm.dispatch os i) := by
  cases i with
  | loadConst dest ci =>
    exact toMoved rfl (keeps_executeLoadConst (hf.dest rfl))
  | binary | unary | binaryImmediate | fallback =>
    exact toMoved rfl (keeps_executeOperatorInstruction hf)
  | jump | jumpTrue | jumpFalse | jumpNull | call | tailCall | callMethod | callDynamic | ret
  | retNull | panic => exact leads_executeControlInstruction hvm hi hf hr
  | drop | awaitFuture | createFuture | createAwaitFuture | callInternalThread
  | createIndirectFuture | awaitAll | awaitRace | len | copyArray | callInternalMath =>
    exact toMoved rfl (keeps_executeSystemInstruction hf)
  | typedBinary => exact toMoved rfl (.pure _)
  | _ => exact toMoved rfl (keeps_executeInstruction os hf)

end Dispatch

end VirtualMachine

end Galfus
