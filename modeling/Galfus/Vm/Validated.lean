import Galfus.Bytecode.Indices
import Galfus.Vm.Budget

/-! # Runs of validated modules

In a run of modules that the validator accepts, each frame is at an instruction of its
function, uses its own registers only, and names entries that exist, as long as the checks
that the validator leaves out hold as well and no function runs off its end.
-/

namespace Galfus

open Exec

/-- There is a last instruction, and the next one is not executed after it. -/
def BytecodeFunction.EndsWell (f : BytecodeFunction) : Prop :=
  ∃ i, f.instructions.getLast? = some i ∧ i.ends = true

section EndsWell

variable {fn : BytecodeFunction} {i : Instruction}

theorem BytecodeFunction.EndsWell.lt_of_not_ends (h : fn.EndsWell) {pc : ℕ}
    (hi : fn.instructions[pc]? = some i) (hen : i.ends = false) :
    pc + 1 < fn.instructions.length := by
  obtain ⟨j, hj, hl⟩ := h
  have hlt := (List.getElem?_eq_some_iff.mp hi).1
  rcases Nat.lt_or_ge (pc + 1) fn.instructions.length with hn | hge
  · exact hn
  · rw [List.getLast?_eq_getElem?, show fn.instructions.length - 1 = pc by omega, hi] at hj
    cases hj
    rw [hen] at hl
    cases hl

theorem BytecodeFunction.EndsWell.length_pos (h : fn.EndsWell) : 0 < fn.instructions.length := by
  obtain ⟨j, hj, -⟩ := h
  exact List.length_pos_of_mem (List.mem_of_getLast? hj)

end EndsWell

namespace VirtualMachine

open ThreadState

def Validated (vm : VirtualMachine) : Prop :=
  ∀ moduleId image, vm.modules moduleId = some image → image.Accepted

def EndsWell (vm : VirtualMachine) : Prop :=
  ∀ moduleId image, vm.modules moduleId = some image → ∀ fn ∈ image.functions, fn.EndsWell

/-- What the validator leaves unchecked holds of all instructions. -/
def LeftOut (vm : VirtualMachine) : Prop :=
  ∀ moduleId image, vm.modules moduleId = some image → ∀ fn ∈ image.functions,
    ∀ i ∈ fn.instructions, i.LeftOut vm.modules image fn.registerCount

/-- A frame at an instruction of the function `fn`. -/
structure Sited (vm : VirtualMachine) (g : CallFrame) (fn : BytecodeFunction) : Prop where
  function : vm.getFunction g.moduleId g.funcIdx = .ok fn
  code : g.cachedInstructions = fn.instructions
  pc_lt : g.pc < fn.instructions.length

/-- Frames of functions stand on each other from the start of the register file on, and each returns
to a register of the next. The highest one is `f` of `fn`. -/
def Seats (vm : VirtualMachine) : BytecodeFunction → CallFrame → List CallFrame → Prop
  | fn, f, [] => vm.Sited f fn ∧ f.registerBase = 0 ∧ f.returnDest = none
  | fn, f, g :: rest => vm.Sited f fn ∧ ∃ gn, f.registerBase = g.registerBase + gn.registerCount ∧
      (∀ d ∈ f.returnDest, d < gn.registerCount) ∧ vm.Seats gn g rest

/-- A thread that is at instructions of functions, with the registers that they ask for. -/
structure Seated (vm : VirtualMachine) (fn : BytecodeFunction) (f : CallFrame)
    (rest : List CallFrame) (t : ThreadState) : Prop where
  stack : t.callStack = f :: rest
  base : t.currentRegisterBase = f.registerBase
  top : t.currentRegisterTop = f.registerBase + fn.registerCount
  top_le : t.currentRegisterTop ≤ t.registers.length
  seats : vm.Seats fn f rest

/-- How a thread goes on: by a round of the loop, by its suspension, by a single step, or by the
host, which may change all values but the frames. -/
inductive Advances (vm : VirtualMachine) : ThreadState → ThreadState → Prop where
  | round {orders : PrivateHeap → HashOrders} {t t' : ThreadState} {paid : Bool}
      (h : vm.hotNext orders t = some (.next paid t')) : Advances vm t t'
  | suspend {orders : PrivateHeap → HashOrders} {t t' : ThreadState} {effect : VmEffect}
      {k : Continuation} (h : vm.hotNext orders t = some (.stop (.ok (.suspend effect k), t'))) :
      Advances vm t t'
  | step {orders : PrivateHeap → HashOrders} {t t' : ThreadState} {s : VmStep}
      (h : vm.executeNext orders t = some (.ok s, t')) : Advances vm t t'
  | host {t : ThreadState} (registers : List VmValue) (heap : PrivateHeap)
      (moduleStates : List (ℕ × List VmValue)) (hasObjects : Bool)
      (h : t.registers.length ≤ registers.length) : Advances vm t { t with
        registers := registers
        heap := heap
        moduleStates := moduleStates
        currentFrameHasObjects := hasObjects }

/-- The program counter is at an instruction of the current function, which uses registers of the
frame and of a frame that it opens only, and constants, types, functions, imports and globals that
exist. -/
inductive SafeAt (vm : VirtualMachine) (t : ThreadState) : Prop where
  | intro {f : CallFrame} {rest : List CallFrame} {fn : BytecodeFunction} {image : BytecodeModule}
      {i : Instruction} (stack : t.callStack = f :: rest)
      (function : vm.getFunction f.moduleId f.funcIdx = .ok fn)
      (code : f.cachedInstructions = fn.instructions) (fetch : fn.instructions[f.pc]? = some i)
      (himage : vm.modules f.moduleId = some image) (base : t.currentRegisterBase = f.registerBase)
      (top_le : t.currentRegisterTop ≤ t.registers.length)
      (fits : i.Fits image.constants (t.currentRegisterTop - t.currentRegisterBase))
      (indexed : i.Indexed vm.modules image) (copies : i.Copies image)

variable {vm : VirtualMachine} {os : PrivateHeap → HashOrders} {i : Instruction}
  {t t' : ThreadState} {n : ℕ} {f g : CallFrame} {rest st : List CallFrame} {fn : BytecodeFunction}
  {im : BytecodeModule}

theorem framed_of_leftOut (hv : vm.Validated) (hr : vm.LeftOut) : vm.Framed := by
  intro mi im him fn hfn i hi
  obtain ⟨ix, hid⟩ := List.mem_iff_getElem?.mp hi
  exact Validation.fits_of_leftOut ((hv mi im him).checkInstruction hfn hid)
    (hr mi im him fn hfn i hi)

theorem Sited.codeFits (h : vm.Sited g fn) (hvm : vm.Framed) :
    vm.CodeFits g.moduleId fn.registerCount g.cachedInstructions := by
  rw [h.code]
  exact hvm.codeFits h.function

theorem Seats.chain (h : vm.Seats fn f rest) (hvm : vm.Framed) :
    vm.Chain .whole fn.registerCount f rest := by
  induction rest generalizing fn f with
  | nil => exact ⟨h.2, h.1.codeFits hvm⟩
  | cons g rest ih =>
    obtain ⟨hf, gn, hb, hd, h⟩ := h
    exact ⟨hf.codeFits hvm, gn.registerCount, hb, hd, ih h⟩

theorem Seats.forall_sited (h : vm.Seats fn f rest) : ∀ g ∈ f :: rest, ∃ fn, vm.Sited g fn := by
  induction rest generalizing fn f with
  | nil =>
    intro g hg
    obtain rfl := List.mem_singleton.mp hg
    exact ⟨fn, h.1⟩
  | cons f' rest ih =>
    obtain ⟨hf, gn, -, -, h⟩ := h
    intro g hg
    rcases List.mem_cons.mp hg with rfl | hg
    · exact ⟨fn, hf⟩
    · exact ih h g hg

theorem Seated.standing (h : vm.Seated fn f rest t) (hvm : vm.Framed) :
    vm.Standing fn.registerCount f rest t :=
  have hc := h.seats.chain hvm
  have ht := h.top ▸ h.top_le
  { heap := rfl
    moduleStates := rfl
    flag := rfl
    maxCallDepth := rfl
    stack := by rw [hc.frames_whole, h.stack]; exact (List.append_nil _).symm
    stack' := by rw [h.stack]; exact (List.append_nil _).symm
    base := h.base
    base' := h.base
    top := h.top
    top' := h.top
    top_le := ht
    top_le' := ht
    registers := .refl _ _ _
    plain := fun i hi => absurd hi (Nat.not_lt_zero i)
    chain := hc }

/-- What a run keeps: there is no frame left, or the frames stand on each other and are at
instructions of their functions. -/
def Sound (vm : VirtualMachine) (t : ThreadState) : Prop :=
  t.callStack = [] ∨ vm.Moved .whole t t ∧ ∀ g ∈ t.callStack, ∃ fn, vm.Sited g fn

theorem jumpTarget_lt {pc : ℕ} (h : Validation.checkInstruction im fn pc i = [])
    {o : ℤ} (ho : o ∈ i.offsets) :
    jumpTarget (pc + 1) o < fn.instructions.length := by
  have hj : Validation.checkJump fn pc o = [] := by
    cases i with
    | jump | jumpTrue | jumpFalse | jumpNull =>
      obtain rfl := List.mem_singleton.mp ho
      simp only [Validation.checkInstruction, List.append_eq_nil_iff] at h
      first | exact h | exact h.2
    | _ => cases ho
  have hb := Validation.require_eq_nil.mp hj
  unfold jumpTarget
  push_cast
  split <;> omega

theorem EndsWell.function (hen : vm.EndsWell) {mi fi : ℕ}
    (h : vm.getFunction mi fi = .ok fn) : fn.EndsWell := by
  obtain ⟨im, hi, hfn⟩ := getFunction_eq_ok.mp h
  exact hen mi im hi fn (List.mem_of_getElem? hfn)

theorem Fresh.sited (hen : vm.EndsWell) (h : vm.Fresh g) : ∃ fn, vm.Sited g fn := by
  obtain ⟨fn, hfn, hc, hpc⟩ := h
  exact ⟨fn, hfn, hc, hpc ▸ (hen.function hfn).length_pos⟩

/-- The frames that an instruction leaves are at instructions of their functions. -/
theorem Follows.sited (hv : vm.Validated) (hen : vm.EndsWell)
    (hs : ∀ g ∈ f :: rest, ∃ fn, vm.Sited g fn) (hi : f.cachedInstructions[f.pc]? = some i)
    (h : vm.Follows i { f with pc := f.pc + 1 } rest st) : ∀ g ∈ st, ∃ fn, vm.Sited g fn := by
  obtain ⟨fn, hf⟩ := hs f List.mem_cons_self
  obtain ⟨im, him, hfn⟩ := getFunction_eq_ok.mp hf.function
  rw [hf.code] at hi
  have hc := (hv _ im him).checkInstruction (List.mem_of_getElem? hfn) hi
  have hr (g : CallFrame) (hg : g ∈ rest) : ∃ fn, vm.Sited g fn :=
    hs g (List.mem_cons_of_mem f hg)
  have hn (hen' : i.ends = false) : vm.Sited { f with pc := f.pc + 1 } fn :=
    ⟨hf.function, hf.code, (hen.function hf.function).lt_of_not_ends hi hen'⟩
  cases h with
  | stay h => exact List.forall_mem_cons.mpr ⟨⟨fn, hn h⟩, hr⟩
  | jump h =>
    exact List.forall_mem_cons.mpr ⟨⟨fn, hf.function, hf.code, jumpTarget_lt hc h⟩, hr⟩
  | enter h hg =>
    exact List.forall_mem_cons.mpr ⟨hg.sited hen, List.forall_mem_cons.mpr ⟨⟨fn, hn h⟩, hr⟩⟩
  | reuse hg => exact List.forall_mem_cons.mpr ⟨hg.sited hen, hr⟩
  | leave => exact hr

def Unsuspended (x : ThreadExec HotStep) : Prop :=
  ∀ u effect k u', x u ≠ some (.ok (.done (.suspend effect k)), u')

theorem Unsuspended.bind {α : Type} {x : ThreadExec α} {k : α → ThreadExec HotStep}
    (hk : ∀ a, Unsuspended (k a)) : Unsuspended (x >>= k) := by
  intro u e c u' h
  obtain ⟨a, u₁, -, h⟩ := bind_eq_ok.mp h
  exact hk a u₁ e c u' h

theorem Unsuspended.advance (l : HotFrame) : Unsuspended (pure (.advance l)) := by
  rintro u _ _ u' ⟨⟩

theorem Unsuspended.spend (l : HotFrame) : Unsuspended (pure (.spend l)) := by
  rintro u _ _ u' ⟨⟩

theorem Unsuspended.throw (e : VmError) : Unsuspended (Exec.throw e) := by
  rintro u _ _ u' ⟨⟩

theorem unsuspended_hotOperator {l : HotFrame} : Unsuspended (vm.hotOperator l i) := by
  unfold hotOperator
  split
  · refine .bind fun _ => .bind fun _ => ?_
    split
    · exact .bind fun _ => .bind fun _ => .advance _
    · exact .bind fun _ => .advance _
  · exact .bind fun _ => .advance _

theorem unsuspended_hotReturn {l : HotFrame} {v : VmValue} : Unsuspended (vm.hotReturn l f v) := by
  unfold hotReturn
  split
  · exact .bind fun _ => .bind fun _ => .spend _
  · refine .bind fun _ => ?_
    rintro u _ _ u' ⟨⟩

/-- A round that suspends the thread leaves the instruction to its general handler. -/
theorem dispatch_of_suspend {l : HotFrame} {e : VmEffect} {k : Continuation}
    (h : vm.hotInstruction os l i t = some (.ok (.done (.suspend e k)), t')) :
    vm.dispatch (os t.heap) i (t.setPc l.pc) = some (.ok (.suspend e k), t') := by
  have hdl (h : vm.delegate os l i t = some (.ok (.done (.suspend e k)), t')) :
      vm.dispatch (os t.heap) i (t.setPc l.pc) = some (.ok (.suspend e k), t') := by
    obtain ⟨_, _, ⟨⟩, h⟩ := bind_eq_ok.mp h
    obtain ⟨_, _, ⟨⟩, h⟩ := bind_eq_ok.mp h
    obtain ⟨s, t₁, hs, h⟩ := bind_eq_ok.mp h
    cases s with
    | «continue» =>
      obtain ⟨_, _, -, ⟨⟩⟩ := bind_eq_ok.mp h
    | ret => cases h
    | suspend =>
      cases h
      exact hs
  cases i with
  | binaryImmediate | typedBinary =>
    rw [hotInstruction] at h
    exact absurd h (unsuspended_hotOperator _ _ _ _)
  | binary op d lh r =>
    rw [hotInstruction] at h
    split at h
    · exact absurd h (unsuspended_hotOperator _ _ _ _)
    · exact hdl h
  | loadNull => exact absurd h (Unsuspended.bind (fun _ => .advance _) _ _ _ _)
  | jump => exact absurd h (Unsuspended.spend _ _ _ _ _)
  | jumpTrue | jumpFalse =>
    refine absurd h (Unsuspended.bind (fun v => ?_) _ _ _ _)
    cases v with
    | bool b => exact .spend _
    | _ => exact .bind fun _ => .throw _
  | jumpNull => exact absurd h (Unsuspended.bind (fun _ => .spend _) _ _ _ _)
  | move =>
    exact absurd h (Unsuspended.bind (fun _ => .bind fun _ => .bind fun _ => .spend _) _ _ _ _)
  | call d fc a ac =>
    cases hcl : l.image.functions[fc]? with
    | none =>
      rw [hotInstruction, hotCall, hcl] at h
      exact hdl h
    | some c =>
      rw [hotInstruction, hotCall, hcl] at h
      exact absurd h (Unsuspended.bind (fun _ => .bind fun _ => .bind fun _ => .spend _) _ _ _ _)
  | tailCall fc a ac =>
    cases hcl : l.image.functions[fc]? with
    | none =>
      rw [hotInstruction, hotTailCall, hcl] at h
      exact hdl h
    | some c =>
      rw [hotInstruction, hotTailCall, hcl] at h
      exact absurd h (Unsuspended.bind (fun _ => .spend _) _ _ _ _)
  | ret =>
    refine absurd h (Unsuspended.bind (fun _ => .bind fun _ => .bind fun p => ?_) _ _ _ _)
    cases p with
    | none => rintro u _ _ u' ⟨⟩
    | some fr => exact unsuspended_hotReturn
  | retNull =>
    refine absurd h (Unsuspended.bind (fun p => ?_) _ _ _ _)
    cases p with
    | none => exact .throw _
    | some fr => exact unsuspended_hotReturn
  | _ => exact hdl h

/-- The loop leaves an instruction that suspends the thread to its general handler. -/
theorem executeNext_of_suspend {ef : VmEffect} {k : Continuation}
    (hs : t.callStack = f :: rest) (him : vm.modules f.moduleId = some im)
    (h : vm.hotNext os t = some (.stop (.ok (.suspend ef k), t'))) :
    vm.executeNext os t = some (.ok (.suspend ef k), t') := by
  rw [hotNext_of_stack hs him] at h
  rw [executeNext_apply hs]
  obtain ⟨i, hi, h⟩ := Option.bind_eq_some_iff.mp h
  rw [hi, Option.bind_some]
  obtain ⟨⟨e | next, u⟩, hr, h⟩ := Option.map_eq_some_iff.mp h
  · cases h
  cases next with
  | advance | spend => cases h
  | done s =>
    cases h
    exact dispatch_of_suspend hr

theorem Standing.executeReturn_lowest (h : vm.Standing n f [] t) {v : VmValue} {s : VmStep}
    (hr : vm.executeReturn v t = some (.ok s, t')) : t'.callStack = [] := by
  obtain ⟨p, u, hpp, hr⟩ := bind_eq_ok.mp hr
  obtain ⟨⟨⟩, hp⟩ := popFrame_of_standing h hpp
  have hd : f.returnDest = none := h.chain.1.2
  simp only [returnTo, hd] at hr
  obtain ⟨fn, u', hfn, ⟨⟩⟩ := bind_eq_ok.mp hr
  obtain ⟨-, rfl⟩ := lift_eq_ok.mp hfn
  exact hp.stack'

theorem Sound.step (hvm : vm.Framed) (hvl : vm.Validated) (hen : vm.EndsWell)
    (h : vm.Sound t) {s : VmStep} (hst : vm.executeNext os t = some (.ok s, t')) :
    vm.Sound t' := by
  obtain hem | ⟨⟨n, f, rest, hsn⟩, hsi⟩ := h
  · rw [executeNext_of_empty hem] at hst
    cases hst
  have hsc := Standing.callStack hsn
  rw [executeNext_apply hsc] at hst
  obtain ⟨i, hi, hst⟩ := Option.bind_eq_some_iff.mp hst
  obtain ⟨im, him, hft⟩ := hsn.chain.fits hi
  have hpc : vm.Standing n { f with pc := f.pc + 1 } rest (t.setPc (f.pc + 1)) :=
    Relocated.setPc hsn _
  rw [hsc] at hsi
  by_cases hrt : rest = [] ∧ (i = .retNull ∨ ∃ sr, i = .ret sr)
  · obtain ⟨rfl, hrt⟩ := hrt
    left
    rcases hrt with rfl | ⟨sr, rfl⟩
    · exact hpc.executeReturn_lowest hst
    · obtain ⟨v, u, hv, hst⟩ := bind_eq_ok.mp hst
      obtain ⟨_, u', hu', hst⟩ := bind_eq_ok.mp hst
      cases hu'
      obtain ⟨_, -, ⟨⟩⟩ := Option.map_eq_some_iff.mp hv
      exact (hpc.update _ _ le_rfl).executeReturn_lowest hst
  · obtain ⟨n', g, st, hu, hfl⟩ : vm.Stepped i .whole { f with pc := f.pc + 1 } rest t' t' :=
      triple_dispatch (f := { f with pc := f.pc + 1 }) hvm him hft
        (fun hi hrs => hrt ⟨hrs, hi⟩) _ hpc _ _ hst
    refine .inr ⟨⟨n', g, st, hu⟩, ?_⟩
    rw [Standing.callStack hu]
    exact hfl.sited hvl hen hsi hi

theorem Sound.round (hvm : vm.Framed) (hv : vm.Validated) (hen : vm.EndsWell)
    (h : vm.Sound t) {p : Bool} (hn : vm.hotNext os t = some (.next p t')) :
    vm.Sound t' := by
  obtain hem | ⟨⟨n, f, rest, hs⟩, hst⟩ := h
  · rw [hotNext_of_empty hem] at hn
    cases hn
  have hsc := Standing.callStack hs
  obtain ⟨im, him, -⟩ := hs.chain.codeFits
  rw [hotNext_of_stack hsc him] at hn
  obtain ⟨i, hi, hn⟩ := Option.bind_eq_some_iff.mp hn
  obtain ⟨⟨e | next, u⟩, hrn, hn⟩ := Option.map_eq_some_iff.mp hn
  · cases hn
  have hr : vm.Resumed i { f with pc := f.pc + 1 } rest next u :=
    triple_hotInstruction (l := f.load (f.pc + 1) im) hvm (List.mem_of_getElem? hi) t
      ((Standing.sits hs him).jump _) _ _ hrn
  rw [hsc] at hst
  have hsn (l : HotFrame) (hl : l ∈ next.frame?) : vm.Sound (u.setPc l.pc) := by
    obtain ⟨⟨hu, -, -⟩, hf⟩ := hr l hl
    exact .inr ⟨⟨_, _, _, Relocated.setPc hu _⟩, hf.sited hv hen hst hi⟩
  cases next with
  | advance l | spend l =>
    cases hn
    exact hsn l rfl
  | done => cases hn

theorem Sound.advances (hvm : vm.Framed) (hv : vm.Validated) (hen : vm.EndsWell)
    (h : vm.Sound t) (hsp : vm.Advances t t') : vm.Sound t' := by
  cases hsp with
  | round hn => exact h.round hvm hv hen hn
  | step hn => exact h.step hvm hv hen hn
  | suspend hn =>
    rcases id h with hem | ⟨⟨n, f, rest, hs⟩, -⟩
    · rw [hotNext_of_empty hem] at hn
      cases hn
    · obtain ⟨im, hi, -⟩ := hs.chain.codeFits
      exact h.step hvm hv hen (executeNext_of_suspend (Standing.callStack hs) hi hn)
  | host rs hp ms ho hl =>
    rcases h with hem | ⟨⟨n, f, rest, hs⟩, hst⟩
    · exact .inl hem
    · have hu := Standing.update hs hp ho hl
      exact .inr ⟨⟨n, f, rest, { hu with moduleStates := rfl }⟩, hst⟩

theorem Sound.safeAt (hv : vm.Validated) (hr : vm.LeftOut) (h : vm.Sound t)
    (hne : t.callStack ≠ []) : vm.SafeAt t := by
  obtain hem | ⟨⟨n, f, rest, hs⟩, hst⟩ := h
  · exact absurd hem hne
  have hsc := Standing.callStack hs
  rw [hsc] at hst
  obtain ⟨fn, hf⟩ := hst f List.mem_cons_self
  obtain ⟨im, hi, hfn⟩ := getFunction_eq_ok.mp hf.function
  obtain ⟨i, hft⟩ : ∃ i, fn.instructions[f.pc]? = some i :=
    ⟨_, List.getElem?_eq_getElem hf.pc_lt⟩
  have hm := List.mem_of_getElem? hft
  have hb : t.currentRegisterBase = f.registerBase := hs.base'
  have ht : t.currentRegisterTop = f.registerBase + n := hs.top'
  have hlo := hr _ im hi fn (List.mem_of_getElem? hfn) _ hm
  refine ⟨hsc, hf.function, hf.code, hft, hi, hb, ht ▸ hs.top_le', ?_, ?_,
    Validation.copies_of_leftOut hlo⟩
  · rw [ht, hb, Nat.add_sub_cancel_left]
    exact hs.chain.fits_mem hi (hf.code ▸ hm)
  · exact Validation.indexed_of_leftOut
      ((hv _ im hi).checkInstruction (List.mem_of_getElem? hfn) hft) hlo

def seatedAt (moduleId funcIdx pc : ℕ) (fn : BytecodeFunction) : ThreadState :=
  ⟨[⟨moduleId, funcIdx, pc, 0, none, fn.instructions, false⟩],
    List.replicate fn.registerCount .null,
    0, fn.registerCount, false, .new (.new 8 1024) ⟨32, 16⟩, [], 64⟩

theorem seated_seatedAt {mi fi pc : ℕ}
    (hfn : vm.getFunction mi fi = .ok fn) (hpc : pc < fn.instructions.length) :
    vm.Seated fn ⟨mi, fi, pc, 0, none, fn.instructions, false⟩ [] (seatedAt mi fi pc fn) where
  stack := rfl
  base := rfl
  top := (Nat.zero_add _).symm
  top_le := List.length_replicate.ge
  seats := ⟨⟨hfn, rfl, hpc⟩, rfl, rfl⟩

theorem forall_single {p : BytecodeModule → Prop} (h : p im) :
    ∀ mi i', (single im).modules mi = some i' → p i' := by
  intro mi i' hi
  obtain ⟨-, rfl⟩ : mi = 0 ∧ im = i' := by simpa [single] using hi
  exact h

end VirtualMachine

end Galfus
