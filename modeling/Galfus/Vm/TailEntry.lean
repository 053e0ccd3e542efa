import Galfus.Vm.HotSteps

/-! # Calls from bare frames

A frame that holds no objects and no futures can make a call or a tail call of the same
function. The callee starts with the same registers in both threads, above the frame in one
and in place of it in the other.
-/

namespace Galfus

open Option (bind_some mem_def)
open Exec

theorem VmValue.isObject_of_isPlain {v : VmValue} (h : v.isPlain = true) : v.isObject = false := by
  cases v with
  | object r => cases h
  | _ => rfl

theorem Shifted.of_getD {α : Type} {d : α} {c gp : ℕ} {xs ys : List α} (hxs : c ≤ xs.length)
    (hys : c ≤ ys.length) (hl : ∀ i < c, xs.getD i d = ys.getD i d)
    (hh : ∀ i, c ≤ i → xs.getD (i + gp) d = ys.getD i d) : Shifted d c gp xs ys := by
  refine ⟨fun i hi => ?_, hh⟩
  have hg := hl i hi
  rw [List.getD_eq_getElem _ _ (by omega), List.getD_eq_getElem _ _ (by omega)] at hg
  rw [List.getElem?_eq_getElem (by omega), List.getElem?_eq_getElem (by omega), hg]

variable {vm : VirtualMachine} {n : ℕ} {f : CallFrame} {rest : List CallFrame} {t : ThreadState}

/-- The frame `f` with `n` registers is current and highest, holds no objects and no futures, and
neither it nor its caller is flagged for objects. -/
structure ThreadState.Bare (n : ℕ) (f : CallFrame) (t : ThreadState) : Prop where
  flag : t.currentFrameHasObjects = false
  saved : f.hasObjects = false
  plain : ∀ i < n, ∀ v ∈ t.registers[f.registerBase + i]?, v.isPlain = true
  above : ∀ i, f.registerBase + n ≤ i → t.registers.getD i .null = .null

namespace ThreadState

theorem foldl_retainAnchorVal {a : List VmValue} (h : ∀ v ∈ a, v.isPlain = true)
    (hp : PrivateHeap) : a.foldl PrivateHeap.retainAnchorVal hp = hp := by
  induction a with
  | nil => rfl
  | cons v a ih =>
    have hv : hp.retainAnchorVal v = hp := by
      have := h v List.mem_cons_self
      cases v with
      | object r => cases this
      | _ => rfl
    rw [List.foldl_cons, hv]
    exact ih fun w hw => h w (List.mem_cons_of_mem _ hw)

theorem withArgs_plain {a : List VmValue} (h : ∀ v ∈ a, v.isPlain = true) (b : ℕ) :
    t.withArgs b a = { t with registers := overwrite b a t.registers } := by
  have ha : a.any VmValue.isObject = false := by
    rw [List.any_eq_false]
    intro v hv
    rw [VmValue.isObject_of_isPlain (h v hv)]
    exact Bool.false_ne_true
  rw [withArgs, ha, Bool.or_false, foldl_retainAnchorVal h]

theorem forM_placeArg_zipIdx {b : ℕ} (a : List VmValue) (hr : b + a.length ≤ t.registers.length) :
    (a.zipIdx b).forM (fun p => placeArg p.2 p.1) t = some (.ok (), t.withArgs b a) := by
  induction a generalizing b t with
  | nil => rw [withArgs_nil]; rfl
  | cons v a ih =>
    rw [List.length_cons] at hr
    have hp : placeArg b v t = some (.ok (), t.withArgs b [v]) := by
      rw [placeArg, if_pos (by omega)]
      simp [withArgs, overwrite]
    rw [List.zipIdx_cons, forM_cons_apply, bind_apply, hp, withArgs_cons b v a t]
    exact ih (by simp only [withArgs, length_overwrite]; omega)

/-- The registers of a callee with `params` parameters at `base`, over what was there. -/
def frameRegisters (base : ℕ) (args : List VmValue) (t : ThreadState) (i : ℕ) : VmValue :=
  if i < base then t.registers.getD i .null else args.getD (i - base) .null

variable {callee : BytecodeFunction} {moduleId func dest argsStart argCount : ℕ}

theorem Bare.args (h : t.Bare n f) (ha : 0 < argCount → argsStart + argCount ≤ n) :
    ∀ v ∈ t.regValues (f.registerBase + argsStart) argCount, v.isPlain = true := by
  intro v hv
  obtain ⟨i, hi, rfl⟩ := List.mem_iff_getElem.mp hv
  have hlt : i < argCount := by
    simp only [regValues, List.length_take] at hi
    omega
  have hg := getElem?_regValues (t := t) (f.registerBase + argsStart) hlt
  rw [List.getElem?_eq_getElem hi, Nat.add_assoc] at hg
  exact h.plain (argsStart + i) (by have := ha (by omega); omega) _ hg.symm

theorem clearFrame_of_flag {b nt : ℕ} (hf : t.currentFrameHasObjects = false)
    (hb : b ≤ nt) (ht : t.currentRegisterTop ≤ t.registers.length)
    (hn : nt ≤ t.registers.length) :
    clearFrame b nt t = some (.ok (), t.withNulls b (max t.currentRegisterTop nt - b)) := by
  simp only [clearFrame, Exec.get_bind, hf]
  exact clearRegs_apply _ _ (by omega)

theorem placeArgs_plain {b : ℕ} {a : List VmValue} (hf : t.currentFrameHasObjects = false)
    (hr : b + a.length ≤ t.registers.length) (hp : ∀ v ∈ a, v.isPlain = true) :
    placeArgs b a t = some (.ok (), { t with registers := overwrite b a t.registers }) := by
  have hs : ({ t with currentFrameHasObjects := false } : ThreadState) = t := by rw [← hf]
  rw [placeArgs, bind_apply, Exec.modify_apply, bind_some]
  rw [hs, forM_placeArg_zipIdx a hr, withArgs_plain hp]

def tailRegisters (base top newTop : ℕ) (args registers : List VmValue) : List VmValue :=
  overwrite base args (overwrite base (List.replicate (max top newTop - base) .null)
    (reserve 0 newTop registers))

/-- The thread after a tail call from a bare frame. -/
def tailCalled (n : ℕ) (f : CallFrame) (rest : List CallFrame) (moduleId func : ℕ)
    (callee : BytecodeFunction) (argsStart argCount : ℕ) (t : ThreadState) : ThreadState :=
  { t with
    registers := tailRegisters f.registerBase (f.registerBase + n)
      (f.registerBase + callee.registerCount)
      (t.regValues (f.registerBase + argsStart) argCount) t.registers
    currentRegisterTop := f.registerBase + callee.registerCount
    callStack := f.reuse moduleId func callee false :: rest }

theorem replaceFrame_bare (h : vm.Standing n f rest t) (hbr : t.Bare n f)
    (hay : argCount ≤ callee.paramCount) (har : 0 < argCount → argsStart + argCount ≤ n) :
    replaceFrame moduleId f.registerBase func callee argsStart argCount
        (List.range' argCount (callee.paramCount - argCount)) t =
      some (.ok (), t.tailCalled n f rest moduleId func callee argsStart argCount) := by
  have hmt : VirtualMachine.TailPathsMeet t callee argCount :=
    ⟨hay, fun hf => absurd (hbr.flag.symm.trans hf) Bool.false_ne_true⟩
  rw [VirtualMachine.replaceFrame_missing h hmt, tailCallLocal, replaceFrame, tailCalled]
  have hpr := callee.paramCount_le
  have htp : t.currentRegisterTop = f.registerBase + n := h.top'
  have hln : f.registerBase + n ≤ t.registers.length := h.top_le'
  have hcn := VirtualMachine.length_args h har
  obtain ⟨nt, hnw⟩ : ∃ nt, f.registerBase + callee.registerCount = nt := ⟨_, rfl⟩
  rw [hnw]
  set t₁ : ThreadState := { t with registers := reserve 0 nt t.registers } with ht₁
  have hrm : nt ≤ t₁.registers.length := le_length_reserve _ _ _
  have hgr : t.registers.length ≤ t₁.registers.length := length_le_reserve _ _ _
  have hrs : reserveRegs nt t = some (.ok (), t₁) := rfl
  have hvl : t₁.regValues (f.registerBase + argsStart) argCount =
      t.regValues (f.registerBase + argsStart) argCount :=
    regValues_reserve fun hps => by have := har hps; omega
  have hrd : readRegs (f.registerBase + argsStart) argCount t₁ =
      some (.ok (t.regValues (f.registerBase + argsStart) argCount), t₁) := by
    rw [← hvl] at hcn ⊢
    rw [regValues] at hcn
    simp only [readRegs, hcn, if_true]
    rfl
  have htp₁ : t₁.currentRegisterTop = f.registerBase + n := htp
  have hcl : clearFrame f.registerBase nt t₁ =
      some (.ok (),
        t₁.withNulls f.registerBase (max (f.registerBase + n) nt - f.registerBase)) := by
    rw [clearFrame_of_flag (t := t₁) hbr.flag (by omega) (by omega) hrm, htp₁]
  have hpl := placeArgs_plain
    (t := t₁.withNulls f.registerBase (max (f.registerBase + n) nt - f.registerBase)) hbr.flag
    (show f.registerBase + (t.regValues (f.registerBase + argsStart) argCount).length ≤ _ by
      rw [hcn]
      simp only [withNulls, length_overwrite]
      omega) (hbr.args har)
  simp only [bind_apply, hrs, hrd, forM_nil_apply, hcl, hpl, bind_some]
  have hsv : f.reuse moduleId func callee false =
      f.reuse moduleId func callee t.currentFrameHasObjects := by rw [hbr.flag]
  have hst : ({ t with
      registers := tailRegisters f.registerBase (f.registerBase + n) nt
        (t.regValues (f.registerBase + argsStart) argCount) t.registers } : ThreadState).callStack =
      f :: rest := h.callStack
  rw [hsv]
  exact reuseFrame_apply hst _ _ _ _

theorem getD_tailRegisters {b tp nt : ℕ} {a : List VmValue}
    (hb : b ≤ tp) (ht : tp ≤ t.registers.length) (hn : b + a.length ≤ nt)
    (ha : ∀ i, tp ≤ i → t.registers.getD i .null = .null) (i : ℕ) :
    (tailRegisters b tp nt a t.registers).getD i .null = frameRegisters b a t i := by
  have hr := le_length_reserve 0 nt t.registers
  have hg := length_le_reserve 0 nt t.registers
  unfold tailRegisters frameRegisters
  rw [getD_overwrite (by rw [length_overwrite]; omega),
    getD_overwrite (by rw [List.length_replicate]; omega), VirtualMachine.getD_reserve,
    List.length_replicate]
  rcases Nat.lt_or_ge i b with hlt | hge
  · rw [if_neg (by omega), if_neg (by omega), if_pos hlt]
  · rw [if_neg (by omega) (c := i < b)]
    rcases Nat.lt_or_ge i (b + a.length) with hlt | hge'
    · rw [if_pos ⟨hge, hlt⟩]
    · rw [if_neg (by omega), List.getD_eq_default a _ (by omega)]
      split
      · exact List.getD_replicate _ (by omega)
      · exact ha i (by omega)

def callRegisters (top newTop params : ℕ) (args registers : List VmValue) : List VmValue :=
  overwrite (top + args.length) (List.replicate (params - args.length) .null)
    (overwrite top args (reserve 64 newTop registers))

/-- The thread after a call from a bare frame, for which `g` is left on the stack. -/
def called (n : ℕ) (f g : CallFrame) (rest : List CallFrame) (dest moduleId func : ℕ)
    (callee : BytecodeFunction) (argsStart argCount : ℕ) (t : ThreadState) : ThreadState :=
  { t with
    registers := callRegisters (f.registerBase + n) (f.registerBase + n + callee.registerCount)
      callee.paramCount (t.regValues (f.registerBase + argsStart) argCount) t.registers
    currentRegisterBase := f.registerBase + n
    currentRegisterTop := f.registerBase + n + callee.registerCount
    callStack := ⟨moduleId, func, 0, f.registerBase + n, some dest, callee.instructions, false⟩ ::
      g :: rest }

theorem getD_callRegisters {tp nt ps : ℕ} {a : List VmValue} (har : a.length ≤ ps)
    (hn : tp + ps ≤ nt) (ha : ∀ i, tp ≤ i → t.registers.getD i .null = .null) (i : ℕ) :
    (callRegisters tp nt ps a t.registers).getD i .null = frameRegisters tp a t i := by
  have hr := le_length_reserve 64 nt t.registers
  unfold callRegisters frameRegisters
  rw [getD_overwrite (by rw [length_overwrite, List.length_replicate]; omega),
    getD_overwrite (by omega), VirtualMachine.getD_reserve, List.length_replicate]
  rcases Nat.lt_or_ge i tp with hlt | hge
  · rw [if_neg (by omega), if_neg (by omega), if_pos hlt]
  · rw [if_neg (by omega) (c := i < tp)]
    rcases Nat.lt_or_ge i (tp + a.length) with hlt | hge'
    · rw [if_neg (by omega), if_pos ⟨hge, hlt⟩]
    · rw [List.getD_eq_default a _ (by omega)]
      split
      · exact List.getD_replicate _ (by omega)
      · rw [if_neg (by omega)]
        exact ha i hge

end ThreadState

/-- The frame `f` with `n` registers under the callee: `g` stays below in one thread, and is gone in
the other. -/
def CallFrame.underCallee (f g : CallFrame) (n dest : ℕ) (rest : List CallFrame) : Relocation :=
  ⟨f.registerBase, n, some dest, f.returnDest, g :: rest, rest, Nat.le_succ _⟩

namespace VirtualMachine

open ThreadState

variable {callee : BytecodeFunction} {moduleId func dest argsStart argCount : ℕ} {g : CallFrame}

theorem exists_resolveFunction (vm : VirtualMachine) (moduleId func : ℕ) :
    ∃ o : Option (Except VmError (ℕ × ℕ)), ∀ t : ThreadState,
      vm.resolveFunction moduleId func t = o.map fun r => (r, t) := by
  unfold resolveFunction
  cases hm : vm.getModule moduleId with
  | error e => exact ⟨some (.error e), fun t => rfl⟩
  | ok i =>
    by_cases hlt : func < i.functions.length
    · refine ⟨some (.ok (moduleId, func)), fun t => ?_⟩
      simp only [bind_apply, Exec.lift_apply, bind_some, if_pos hlt]
      rfl
    · cases hi : (vm.resolveImports moduleId).bind (·[func - i.functions.length]?) with
      | none =>
        refine ⟨some (.error (.functionOutOfBounds func)), fun t => ?_⟩
        simp only [bind_apply, Exec.lift_apply, bind_some, if_neg hlt, hi]
        rfl
      | some tr =>
        obtain ⟨tr, ix | ix⟩ := tr
        · refine ⟨some (.ok (tr, ix)), fun t => ?_⟩
          simp only [bind_apply, Exec.lift_apply, bind_some, if_neg hlt, hi]
          rfl
        · refine ⟨none, fun t => ?_⟩
          simp only [bind_apply, Exec.lift_apply, bind_some, if_neg hlt, hi]
          rfl

/-- The callee of a bare frame starts with the same registers. -/
theorem relocated_of_bare (h : vm.Standing n f rest t) (hbr : t.Bare n f)
    (hay : argCount ≤ callee.paramCount) (har : 0 < argCount → argsStart + argCount ≤ n)
    (hft : vm.CodeFits moduleId callee.registerCount callee.instructions) :
    Relocated vm (f.underCallee g n dest rest) callee.registerCount
      (f.reuse moduleId func callee false) []
      (t.called n f g rest dest moduleId func callee argsStart argCount)
      (t.tailCalled n f rest moduleId func callee argsStart argCount) := by
  unfold called tailCalled
  have hpr := callee.paramCount_le
  have hln : f.registerBase + n ≤ t.registers.length := h.top_le'
  have hcn := length_args h har
  set a := t.regValues (f.registerBase + argsStart) argCount
  have hcl : ∀ i, (callRegisters (f.registerBase + n) (f.registerBase + n + callee.registerCount)
      callee.paramCount a t.registers).getD i .null = frameRegisters (f.registerBase + n) a t i :=
    getD_callRegisters (by omega) (by omega) hbr.above
  have htl : ∀ i, (tailRegisters f.registerBase (f.registerBase + n)
      (f.registerBase + callee.registerCount) a t.registers).getD i .null =
      frameRegisters f.registerBase a t i :=
    getD_tailRegisters (by omega) hln (by omega) hbr.above
  have hrm : f.registerBase + n + callee.registerCount ≤ (callRegisters (f.registerBase + n)
      (f.registerBase + n + callee.registerCount) callee.paramCount a t.registers).length := by
    simp only [callRegisters, length_overwrite]
    exact le_length_reserve _ _ _
  have hrm' : f.registerBase + callee.registerCount ≤ (tailRegisters f.registerBase
      (f.registerBase + n) (f.registerBase + callee.registerCount) a t.registers).length := by
    simp only [tailRegisters, length_overwrite]
    exact le_length_reserve _ _ _
  exact {
    heap := rfl
    moduleStates := rfl
    flag := rfl
    maxCallDepth := rfl
    stack := rfl
    stack' := rfl
    base := rfl
    base' := h.base'
    top := Nat.add_right_comm _ _ _
    top' := rfl
    top_le := (Nat.add_right_comm _ _ _).trans_le hrm
    top_le' := hrm'
    registers := by
      apply Shifted.of_getD
      · exact Nat.le_trans (by dsimp only [CallFrame.underCallee]; omega) hrm
      · exact Nat.le_trans (by dsimp only [CallFrame.underCallee]; omega) hrm'
      · intro i hi
        rw [hcl, htl]
        dsimp only [CallFrame.underCallee] at hi
        rw [frameRegisters, frameRegisters, if_pos hi, if_pos (by omega)]
      · intro i hi
        dsimp only [CallFrame.underCallee] at hi ⊢
        rw [hcl, htl, frameRegisters, frameRegisters, if_neg (by omega), if_neg (by omega),
          Nat.add_sub_add_right]
    plain := by
      intro i hi v hv
      dsimp only [CallFrame.underCallee] at hi hv
      have hgt := hcl (f.registerBase + i)
      rw [List.getD_eq_getElem?_getD, mem_def.mp hv, frameRegisters, if_pos (by omega),
        List.getD_eq_getElem _ _ (by omega)] at hgt
      exact hbr.plain i hi v (by rw [mem_def, List.getElem?_eq_getElem (by omega), ← hgt]; rfl)
    chain := ⟨⟨rfl, rfl⟩, hft⟩ }

theorem enterFrame_bare (h : vm.Standing n f rest t) (hbr : t.Bare n f)
    (hg : g.registerBase = f.registerBase) (hay : argCount ≤ callee.paramCount)
    (hdp : (g :: rest).length < t.maxCallDepth)
    (har : 0 < argCount → argsStart + argCount ≤ n)
    (hwd : 0 < argCount → argsStart + argCount ≤ 2 ^ 16) :
    (do
      pushFrame moduleId func (some dest) callee
      setupArgsFromCaller argsStart argCount callee.paramCount none
      pure .continue : ThreadExec VmStep) { t with callStack := g :: rest } =
      some (.ok .continue, t.called n f g rest dest moduleId func callee argsStart argCount) := by
  have htp : t.currentRegisterTop = f.registerBase + n := h.top'
  have hln : f.registerBase + n ≤ t.registers.length := h.top_le'
  have hcn := length_args h har
  rw [enterFrame_apply rfl hay hdp (fun hps => by have := har hps; dsimp only; omega) hwd
    (by dsimp only; omega), hg]
  have hvl : ({ t with callStack := g :: rest } : ThreadState).regValues
      (f.registerBase + argsStart) argCount =
        t.regValues (f.registerBase + argsStart) argCount := rfl
  rw [hvl, withArgs_plain (hbr.args har)]
  simp only [called, openFrame, withNulls, callRegisters, hcn, htp, hbr.flag]

def SameStore (s t : ThreadState) : Prop := s.heap = t.heap ∧ s.moduleStates = t.moduleStates

theorem matches_enter (hvm : vm.Framed) (h : vm.Standing n f rest t) (hbr : t.Bare n f)
    (hg : g.registerBase = f.registerBase) (hmd : g.moduleId = f.moduleId)
    (hag : 0 < argCount → argsStart + argCount ≤ n)
    (hwd : 0 < argCount → argsStart + argCount ≤ 2 ^ 16) :
    Matches (f.underCallee g n dest rest).Excuses
      (fun a b s t => a = b ∧ vm.Moved (f.underCallee g n dest rest) s t) SameStore
      (vm.executeCall dest func argsStart argCount { t with callStack := g :: rest })
      (vm.executeTailCall func argsStart argCount t) := by
  obtain ⟨o, hot⟩ := vm.exists_resolveFunction f.moduleId func
  have hbs : t.currentRegisterBase = f.registerBase := h.base'
  have hst : ({ t with callStack := g :: rest } : ThreadState).callStack = g :: rest := rfl
  simp only [executeCall, executeTailCall, bind_apply, currentModule_apply h.callStack,
    currentModule_apply hst, bind_some, hmd, hot]
  rcases o with _ | e | ⟨tr, i⟩
  · exact .stop
  · exact .error ⟨rfl, rfl⟩
  simp only [Option.map_some, bind_some, enterFunction, bind_apply, Exec.lift_apply]
  cases hf : vm.getFunction tr i with
  | error e => exact .error ⟨rfl, rfl⟩
  | ok callee =>
    simp only [checkArity]
    by_cases har : callee.paramCount < argCount
    · rw [if_pos har]
      exact .error ⟨rfl, rfl⟩
    rw [if_neg har]
    have har' : argCount ≤ callee.paramCount := Nat.not_lt.mp har
    simp only [Exec.pure_apply, bind_some, Exec.get_apply]
    by_cases hdp : (g :: rest).length < t.maxCallDepth
    · have hcl : (do
          pushFrame tr i (some dest) callee
          setupArgsFromCaller argsStart argCount callee.paramCount none
          pure .continue : ThreadExec VmStep) { t with callStack := g :: rest } = _ :=
        enterFrame_bare h hbr hg har' hdp hag hwd
      have htl : replaceFrame tr t.currentRegisterBase i callee argsStart argCount
          (List.range' argCount (callee.paramCount - argCount)) t =
          some (.ok (), t.tailCalled n f rest tr i callee argsStart argCount) := by
        rw [hbs]
        exact replaceFrame_bare h hbr har' hag
      simp only [bind_apply, Exec.pure_apply] at hcl
      rw [hcl, htl]
      exact .ok ⟨rfl, _, _, _, relocated_of_bare h hbr har' hag (hvm.codeFits hf)⟩
    · have hps : pushFrame tr i (some dest) callee { t with callStack := g :: rest } =
          some (.error (callDepthExceeded { t with callStack := g :: rest }),
            { t with callStack := g :: rest }) := by
        simp only [pushFrame, Exec.get_bind, if_pos (Nat.not_lt.mp hdp), Exec.throw_apply]
      rw [hps]
      exact .excused ⟨rfl, Nat.lt_succ_self _⟩

end VirtualMachine

end Galfus
