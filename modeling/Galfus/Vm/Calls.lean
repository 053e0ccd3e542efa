import Galfus.Vm.Runs
import Galfus.Window.Overwrite

/-! # The two ways to call a function

A call of a function of the current module goes through the loop of `execute_with_budget`
or through the general handler. They open the same frame with the same parameters, and the
threads then do the same, exactly if there are not too many arguments, the caller has no
objects in its frame, and the registers of missing parameters are null already.
-/

namespace Galfus

open Exec
open Option (bind_some)

variable {vm : VirtualMachine} {n : ℕ} {f : CallFrame} {rest : List CallFrame} {t : ThreadState}

namespace ThreadState

variable {mi fi argCount : ℕ} {callee : BytecodeFunction}

def withArgs (base : ℕ) (args : List VmValue) (t : ThreadState) : ThreadState :=
  { t with
    currentFrameHasObjects := t.currentFrameHasObjects || args.any VmValue.isObject
    registers := overwrite base args t.registers
    heap := args.foldl PrivateHeap.retainAnchorVal t.heap }

theorem withArgs_cons (b : ℕ) (v : VmValue) (a : List VmValue) (t : ThreadState) :
    t.withArgs b (v :: a) = (t.withArgs b [v]).withArgs (b + 1) a := by
  simp [withArgs, overwrite, Bool.or_assoc]

def withNulls (base count : ℕ) (t : ThreadState) : ThreadState :=
  { t with registers := overwrite base (List.replicate count .null) t.registers }

theorem forM_anchorArg (a : List VmValue) (t : ThreadState) :
    a.forM anchorArg t = some (.ok (), { t with
      currentFrameHasObjects := t.currentFrameHasObjects || a.any VmValue.isObject
      heap := a.foldl PrivateHeap.retainAnchorVal t.heap }) := by
  induction a generalizing t with
  | nil => simp
  | cons v a ih =>
    rw [forM_cons_apply, bind_apply, anchorArg, Exec.modify_apply, bind_some]
    simp [ih, Bool.or_assoc]

theorem forM_placeArg (b : ℕ) {cb i : ℕ} {rg : List ℕ} {a : List VmValue}
    (hargs : List.Forall₂ (fun r v => t.registers[cb + r]? = some v) rg a)
    (hrg : ∀ r ∈ rg, cb + r < b + i)
    (hrm : b + i + a.length ≤ t.registers.length) :
    (rg.zipIdx i).forM (fun p => do
      let v ← callerArg cb p.1
      placeArg (b + p.2) v : ℕ × ℕ → ThreadExec Unit) t =
      some (.ok (), t.withArgs (b + i) a) := by
  induction rg generalizing i a t with
  | nil =>
    cases hargs
    simp [withArgs]
  | cons r rg ih =>
    obtain ⟨v, vs, hv, hvs, rfl⟩ := List.forall₂_cons_left_iff.mp hargs
    rw [List.length_cons] at hrm
    have hpl : (do let v ← callerArg cb r; placeArg (b + i) v : ThreadExec Unit) t =
        some (.ok (), t.withArgs (b + i) [v]) := by
      simp only [bind_apply, callerArg, Exec.get_apply, bind_some, hv, Exec.pure_apply, placeArg]
      rw [if_pos (by omega)]
      simp [withArgs, overwrite]
    have hvs' : List.Forall₂ (fun r w => (t.withArgs (b + i) [v]).registers[cb + r]? =
        some w) rg vs := by
      rw [List.forall₂_iff_get] at hvs ⊢
      refine ⟨hvs.1, fun j hj hj' => ?_⟩
      have hlt := hrg _ (List.mem_cons_of_mem _ (List.get_mem rg ⟨j, hj⟩))
      rw [withArgs, overwrite, overwrite, List.getElem?_set_ne hlt.ne']
      exact hvs.2 j hj hj'
    rw [List.zipIdx_cons, forM_cons_apply, bind_apply, hpl, bind_some, withArgs_cons (b + i) v vs t]
    exact ih (i := i + 1) hvs' (fun r hr => (hrg r (by simp [hr])).trans (by omega))
      (by simp only [withArgs, length_overwrite]; omega)

theorem forM_clearReg (b i c : ℕ) (hr : b + i + c ≤ t.registers.length) :
    (List.range' i c).forM (fun j => clearReg (b + j)) t =
      some (.ok (), t.withNulls (b + i) c) := by
  induction c generalizing i t with
  | zero => simp [withNulls]
  | succ c ih =>
    rw [List.range'_succ, forM_cons_apply, bind_apply, clearReg, if_pos (by omega), bind_some]
    have hn := ih (i + 1) (t := { t with registers := t.registers.set (b + i) .null })
      (by simp only [List.length_set]; omega)
    exact hn

def regValues (start count : ℕ) (t : ThreadState) : List VmValue :=
  (t.registers.drop start).take count

theorem length_regValues (s c : ℕ) (h : s + c ≤ t.registers.length) :
    (t.regValues s c).length = c := by
  simp only [regValues, List.length_take, List.length_drop]
  omega

theorem getElem?_regValues (s : ℕ) {c i : ℕ} (hi : i < c) :
    (t.regValues s c)[i]? = t.registers[s + i]? := by
  rw [regValues, List.getElem?_take_of_lt hi, List.getElem?_drop]

theorem regValues_reserve {l nt s c : ℕ} (h : 0 < c → s + c ≤ t.registers.length) :
    ({ t with registers := reserve l nt t.registers } : ThreadState).regValues s c =
      t.regValues s c := by
  apply List.ext_getElem?
  intro i
  rcases Nat.lt_or_ge i c with hi | hi
  · rw [getElem?_regValues _ hi, getElem?_regValues _ hi]
    have := h (by omega)
    exact getElem?_reserve (by omega)
  · rw [List.getElem?_eq_none, List.getElem?_eq_none]
    · simp only [regValues, List.length_take]
      omega
    · simp only [regValues, List.length_take]
      omega

theorem regValues_openFrame {l : ℕ} {sv : Bool} {s c : ℕ} {rd : Option ℕ}
    (h : 0 < c → s + c ≤ t.registers.length) :
    (t.openFrame l sv mi fi rd callee).regValues s c = t.regValues s c :=
  regValues_reserve h

/-- What `copy_nonoverlapping` does with registers below the target. -/
theorem copyRegs_apply {s d c : ℕ} (hs : s + c ≤ d) (hd : d + c ≤ t.registers.length) :
    copyRegs s d c t = some (.ok (t.regValues s c), { t with
      registers := overwrite d (t.regValues s c) t.registers }) := by
  have hl := length_regValues (t := t) s c (by omega)
  have ho : t.registers.take d ++ t.regValues s c ++
      t.registers.drop (d + (t.regValues s c).length) =
        overwrite d (t.regValues s c) t.registers := take_append_append_drop (by omega)
  rw [hl] at ho
  dsimp only [copyRegs]
  rw [if_neg (by omega), if_pos ⟨hl, hd⟩, ← ho]
  rfl

theorem withArgs_nil (b : ℕ) (t : ThreadState) : t.withArgs b [] = t := by
  simp [withArgs]

theorem callLocal_apply {b dest argsStart : ℕ} (hdepth : t.callStack.length < t.maxCallDepth)
    (hargs : 0 < argCount → b + argsStart + argCount ≤ t.currentRegisterTop)
    (htop : t.currentRegisterTop ≤ t.registers.length) (hc : argCount ≤ callee.registerCount) :
    callLocal mi b dest fi callee argsStart argCount t = some (.ok (),
      (t.openFrame 0 false mi fi (some dest) callee).withArgs t.currentRegisterTop
        (t.regValues (b + argsStart) argCount)) := by
  have hr := le_length_reserve 0 (t.currentRegisterTop + callee.registerCount) t.registers
  simp only [callLocal, Exec.get_bind, if_neg (Nat.not_le.mpr hdepth), Exec.modify_bind]
  rcases Nat.eq_zero_or_pos argCount with rfl | hp
  · rfl
  · have := hargs hp
    rw [if_neg (by omega), bind_apply, copyRegs_apply this (by dsimp only [openFrame]; omega),
      bind_some, regValues_openFrame fun _ => by omega]
    simp only [forM_anchorArg]
    rfl

theorem callLocal_depth {b dest argsStart : ℕ} (hdepth : t.maxCallDepth ≤ t.callStack.length) :
    callLocal mi b dest fi callee argsStart argCount t = some (.error t.callDepthExceeded, t) := by
  simp [callLocal, Exec.get_bind, if_pos hdepth]

/-- The call of the loop fails only if there are too many frames. -/
theorem callLocal_error {b dest argsStart : ℕ} {e : VmError} {t' : ThreadState}
    (h : callLocal mi b dest fi callee argsStart argCount t = some (.error e, t')) :
    e = t.callDepthExceeded := by
  rcases Nat.lt_or_ge t.callStack.length t.maxCallDepth with hdepth | hdepth
  · simp only [callLocal, Exec.get_bind, if_neg (Nat.not_le.mpr hdepth), Exec.modify_bind] at h
    split at h
    · cases h
    · rw [bind_apply] at h
      dsimp only [copyRegs] at h
      split at h
      · cases h
      · split at h
        · simp only [bind_some, forM_anchorArg] at h
          cases h
        · cases h
  · rw [callLocal_depth hdepth] at h
    cases h
    rfl

theorem forall₂_regRange (b argsStart : ℕ)
    (hr : 0 < argCount → b + argsStart + argCount ≤ t.registers.length)
    (hwide : 0 < argCount → argsStart + argCount ≤ 2 ^ 16) :
    List.Forall₂ (fun r v => t.registers[b + r]? = some v)
      (VirtualMachine.regRange argsStart argCount) (t.regValues (b + argsStart) argCount) := by
  rw [List.forall₂_iff_get]
  rcases Nat.eq_zero_or_pos argCount with rfl | hp
  · exact ⟨rfl, fun i hi => absurd hi (by simp [VirtualMachine.regRange])⟩
  have hl := length_regValues (t := t) (b + argsStart) argCount (hr hp)
  refine ⟨by rw [hl]; simp [VirtualMachine.regRange], fun i hi hi' => ?_⟩
  simp only [VirtualMachine.regRange, List.length_map, List.length_range] at hi
  have := hwide hp
  have hg := getElem?_regValues (t := t) (b + argsStart) hi
  simp only [VirtualMachine.regRange, List.get_eq_getElem, List.getElem_map, List.getElem_range]
  rw [Nat.mod_eq_of_lt (by omega), ← Nat.add_assoc, ← hg]
  exact List.getElem?_eq_getElem hi'

end ThreadState

namespace VirtualMachine

open ThreadState

variable {image : BytecodeModule} {callee : BytecodeFunction} {dest func argsStart argCount : ℕ}
  {fs : List CallFrame}

def arityError (callee : BytecodeFunction) : VmError :=
  .typeMismatch (toString callee.paramCount ++ " arguments")

section

variable (hs : t.callStack = f :: fs)
include hs

variable (hg : vm.modules f.moduleId = some image)
include hg

variable (hcallee : image.functions[func]? = some callee)
include hcallee

theorem executeCall_local : vm.executeCall dest func argsStart argCount t = (do
      checkArity callee argCount
      pushFrame f.moduleId func (some dest) callee
      setupArgsFromCaller argsStart argCount callee.paramCount none
      pure .continue : ThreadExec VmStep) t := by
  have hlt : func < image.functions.length := (List.getElem?_eq_some_iff.mp hcallee).1
  have hf := getFunction_eq_ok.mpr ⟨image, hg, hcallee⟩
  simp [executeCall, bind_apply, currentModule_apply hs, resolveFunction, getModule, hg,
    if_pos hlt, enterFunction, hf]

theorem executeCall_arity (harity : callee.paramCount < argCount) :
    vm.executeCall dest func argsStart argCount t = some (.error (arityError callee), t) := by
  rw [executeCall_local hs hg hcallee, bind_apply, checkArity, if_pos harity]
  rfl

variable (hr : argCount ≤ callee.paramCount)
include hr

theorem executeCall_depth (hdepth : t.maxCallDepth ≤ t.callStack.length) :
    vm.executeCall dest func argsStart argCount t = some (.error t.callDepthExceeded, t) := by
  rw [executeCall_local hs hg hcallee, bind_apply, checkArity,
    if_neg (Nat.not_lt.mpr hr), Exec.pure_apply, bind_some]
  simp [bind_apply, pushFrame, if_pos hdepth]

variable (hd : t.callStack.length < t.maxCallDepth)
  (ha : 0 < argCount → f.registerBase + argsStart + argCount ≤ t.currentRegisterTop)
  (hw : 0 < argCount → argsStart + argCount ≤ 2 ^ 16)
  (hp : t.currentRegisterTop ≤ t.registers.length)
include hd ha hw hp

omit hcallee in
omit hg in
/-- A frame is opened with its arguments, and with null in the registers of missing parameters. -/
theorem enterFrame_apply {moduleId : ℕ} : (do
      pushFrame moduleId func (some dest) callee
      setupArgsFromCaller argsStart argCount callee.paramCount none
      pure .continue : ThreadExec VmStep) t = some (.ok .continue,
      ((t.openFrame 64 t.currentFrameHasObjects moduleId func (some dest) callee).withArgs
        t.currentRegisterTop (t.regValues (f.registerBase + argsStart) argCount)).withNulls
          (t.currentRegisterTop + argCount) (callee.paramCount - argCount)) := by
  have hpr := callee.paramCount_le
  have hrm := le_length_reserve 64 (t.currentRegisterTop + callee.registerCount) t.registers
  have hln := length_le_reserve 64 (t.currentRegisterTop + callee.registerCount) t.registers
  set t₁ := t.openFrame 64 t.currentFrameHasObjects moduleId func (some dest) callee with ht₁
  have hst₁ : t₁.callStack = (⟨moduleId, func, 0, t.currentRegisterTop, some dest,
      callee.instructions, t.currentFrameHasObjects⟩ : CallFrame) :: f :: fs := by
    rw [ht₁, openFrame, hs]
  have hrg : ∀ r ∈ regRange argsStart argCount, f.registerBase + r < t.currentRegisterTop + 0 := by
    intro r hr
    obtain ⟨i, hi, rfl⟩ := List.mem_map.mp hr
    rw [List.mem_range] at hi
    have := ha (by omega)
    have := hw (by omega)
    omega
  have hvl : t₁.regValues (f.registerBase + argsStart) argCount =
      t.regValues (f.registerBase + argsStart) argCount :=
    regValues_openFrame fun hps => (ha hps).trans hp
  have hcn : (t.regValues (f.registerBase + argsStart) argCount).length ≤ argCount := by
    simp [regValues]
  have hrd := forall₂_regRange (t := t₁) f.registerBase argsStart
    (fun hps => (ha hps).trans (hp.trans hln)) hw
  rw [hvl] at hrd
  have hpl := forM_placeArg t.currentRegisterTop hrd hrg
    (by rw [ht₁]; dsimp only [openFrame]; omega)
  have hcl := forM_clearReg t.currentRegisterTop argCount (callee.paramCount - argCount)
    (t := t₁.withArgs t.currentRegisterTop (t.regValues (f.registerBase + argsStart) argCount))
    (by simp only [withArgs, length_overwrite]; rw [ht₁]; dsimp only [openFrame]; omega)
  have hpu : pushFrame moduleId func (some dest) callee t = some (.ok (), t₁) := by
    simp [pushFrame, Exec.get_bind, if_neg (Nat.not_le.mpr hd), ht₁]
  have hst : setupArgsFromCaller argsStart argCount callee.paramCount none t₁ = some (.ok (),
      (t₁.withArgs t.currentRegisterTop
        (t.regValues (f.registerBase + argsStart) argCount)).withNulls
          (t.currentRegisterTop + argCount) (callee.paramCount - argCount)) := by
    rw [setupArgsFromCaller_apply hst₁, bind_apply, argRegs, hpl, bind_some]
    exact hcl
  simp [bind_apply, hpu, hst]

theorem executeCall_apply : vm.executeCall dest func argsStart argCount t = some (.ok .continue,
      ((t.openFrame 64 t.currentFrameHasObjects f.moduleId func (some dest) callee).withArgs
        t.currentRegisterTop (t.regValues (f.registerBase + argsStart) argCount)).withNulls
          (t.currentRegisterTop + argCount) (callee.paramCount - argCount)) := by
  rw [executeCall_local hs hg hcallee, bind_apply, checkArity,
    if_neg (Nat.not_lt.mpr hr), Exec.pure_apply, bind_some]
  exact enterFrame_apply hs hr hd ha hw hp

end

/-- The room for missing parameters above the current frame holds null. -/
def MissingNull (t : ThreadState) (callee : BytecodeFunction) (argCount : ℕ) : Prop :=
  ∀ i, argCount ≤ i → i < callee.paramCount →
    t.registers.getD (t.currentRegisterTop + i) .null = .null

theorem getD_reserve (l nt i : ℕ) (registers : List VmValue) :
    (reserve l nt registers).getD i .null = registers.getD i .null := by
  obtain ⟨p, hp⟩ := exists_reserve l nt registers
  rw [hp, Shifted.getD_append_replicate]

section Paths

variable (orders : PrivateHeap → HashOrders)

/-- The frames that both paths open without a caller's objects and with null in the room for
missing parameters are related. -/
theorem moved_of_call (h : vm.Standing n f rest t) (hds : dest < n)
    (hfits : vm.CodeFits f.moduleId callee.registerCount callee.instructions)
    (harity : argCount ≤ callee.paramCount) (hnl : MissingNull t callee argCount)
    {a : List VmValue} (hargs : a.length = argCount) :
    vm.Moved .whole
      ((t.openFrame 0 false f.moduleId func (some dest) callee).withArgs t.currentRegisterTop a)
      (((t.openFrame 64 false f.moduleId func (some dest) callee).withArgs t.currentRegisterTop
        a).withNulls (t.currentRegisterTop + argCount) (callee.paramCount - argCount)) := by
  have hop : Relocated vm .whole callee.registerCount (f.above n f.moduleId func dest callee false)
      (f :: rest) _ _ := .openFrame h hds hfits 0 64 false
  have hpr := callee.paramCount_le
  have hrm := le_length_reserve 0 (t.currentRegisterTop + callee.registerCount) t.registers
  have hrm' := le_length_reserve 64 (t.currentRegisterTop + callee.registerCount) t.registers
  refine ⟨_, _, _, { hop with
    heap := rfl, flag := rfl, top_le := ?_, top_le' := ?_, registers := ?_, plain := ?_ }⟩
  · simpa only [withArgs, length_overwrite] using hop.top_le
  · simpa only [withArgs, withNulls, length_overwrite] using hop.top_le'
  · refine ⟨fun i hi => absurd hi (Nat.not_lt_zero i), fun i _ => ?_⟩
    have hcn : ∀ j, (overwrite t.currentRegisterTop a (reserve 0
        (t.currentRegisterTop + callee.registerCount) t.registers)).getD j .null =
        (overwrite t.currentRegisterTop a (reserve 64
          (t.currentRegisterTop + callee.registerCount) t.registers)).getD j .null :=
      getD_overwrite_congr (by omega) (by omega) fun j _ => by rw [getD_reserve, getD_reserve]
    refine (hcn i).trans (getD_overwrite_replicate ?_ ?_ i).symm
    · rw [length_overwrite]
      omega
    · intro j hge hlt
      obtain ⟨k, rfl⟩ : ∃ k, j = t.currentRegisterTop + k := ⟨j - t.currentRegisterTop, by omega⟩
      rw [List.getD_eq_getElem?_getD, getElem?_overwrite_of_ge (by omega),
        ← List.getD_eq_getElem?_getD, getD_reserve]
      exact hnl k (by omega) (by omega)
  · intro i hi
    exact absurd hi (Nat.not_lt_zero i)

theorem of_alike_call {s : Bool} (harity : argCount ≤ callee.paramCount) {a : List VmValue}
    (hargs : a.length = argCount)
    (h : Alike
      ((t.openFrame 0 false f.moduleId func (some dest) callee).withArgs t.currentRegisterTop a)
      (((t.openFrame 64 s f.moduleId func (some dest) callee).withArgs t.currentRegisterTop
        a).withNulls (t.currentRegisterTop + argCount) (callee.paramCount - argCount))) :
    s = false ∧ MissingNull t callee argCount := by
  have hpr := callee.paramCount_le
  have hrm := le_length_reserve 64 (t.currentRegisterTop + callee.registerCount) t.registers
  constructor
  · have hstack := congrArg ThreadState.callStack h.eq
    simp only [withArgs, withNulls, openFrame, List.cons.injEq, CallFrame.mk.injEq] at hstack
    exact hstack.1.2.2.2.2.2.2.symm
  · intro i hge hlt
    have hgt := h.registers (t.currentRegisterTop + i)
    simp only [withArgs, withNulls, openFrame, List.getD_eq_getElem?_getD] at hgt
    rw [getElem?_overwrite_of_ge (by omega), ← List.getD_eq_getElem?_getD, getD_reserve] at hgt
    obtain ⟨j, rfl⟩ := Nat.exists_eq_add_of_le hge
    rw [hgt, ← Nat.add_assoc, getElem?_overwrite_add (by simp; omega)
      (by simp only [length_overwrite]; omega), List.getElem?_replicate, if_pos (by omega)]
    rfl

/-- What both paths need: not too many arguments and, unless the stack is full, a caller without
objects and null in the room for missing parameters. -/
def PathsMeet (t : ThreadState) (callee : BytecodeFunction) (argCount : ℕ) : Prop :=
  argCount ≤ callee.paramCount ∧ (t.callStack.length < t.maxCallDepth →
    t.currentFrameHasObjects = false ∧ MissingNull t callee argCount)

section Frames

variable (hvm : vm.Framed) (h : vm.Standing n f rest t)
  (hg : vm.modules f.moduleId = some image) (hcallee : image.functions[func]? = some callee)
  (ht : (Instruction.call dest func argsStart argCount).Fits image.constants n)

include ht in
theorem args_le (hp : 0 < argCount) : argsStart + argCount ≤ n ∧ argsStart + argCount ≤ 2 ^ 16 := by
  have := ht (argsStart + argCount - 1) (by
    simp only [Instruction.reads, List.mem_append, mem_registerRange]
    exact .inl ⟨by omega, by omega⟩)
  omega

include h ht in
theorem args_le_top (hp : 0 < argCount) :
    f.registerBase + argsStart + argCount ≤ t.currentRegisterTop := by
  have := args_le ht hp
  have htop : t.currentRegisterTop = f.registerBase + n := h.top'
  omega

include h in
theorem top_le_length : t.currentRegisterTop ≤ t.registers.length := h.top' ▸ h.top_le'

include h in
theorem length_args (hargs : 0 < argCount → argsStart + argCount ≤ n) :
    (t.regValues (f.registerBase + argsStart) argCount).length = argCount := by
  have hl : f.registerBase + n ≤ t.registers.length := h.top_le'
  rcases Nat.eq_zero_or_pos argCount with rfl | hp
  · rfl
  · exact length_regValues _ _ (by have := hargs hp; omega)

include hvm h hg hcallee ht

theorem callLocal_executeCall_moved (hm : PathsMeet t callee argCount) :
    Matches (fun _ => False) (fun _ b s t => b = .continue ∧ vm.Moved .whole s t) Eq
      (callLocal f.moduleId f.registerBase dest func callee argsStart argCount t)
      (vm.executeCall dest func argsStart argCount t) := by
  obtain ⟨harity, hm⟩ := hm
  have hstack : t.callStack = f :: (rest ++ []) := h.stack'
  have htop_le := top_le_length h
  have hd : dest < n := (ht dest (by simp [Instruction.writes])).1
  have hc := hvm.codeFits (getFunction_eq_ok.mpr ⟨image, hg, hcallee⟩)
  rcases Nat.lt_or_ge t.callStack.length t.maxCallDepth with hdepth | hdepth
  · obtain ⟨hf, hn⟩ := hm hdepth
    rw [callLocal_apply hdepth (args_le_top h ht) htop_le (harity.trans callee.paramCount_le),
      executeCall_apply hstack hg hcallee harity hdepth (args_le_top h ht)
        (fun hp => (args_le ht hp).2) htop_le, hf]
    exact .ok ⟨rfl, moved_of_call h hd hc harity hn (length_args h fun hp => (args_le ht hp).1)⟩
  · rw [callLocal_depth hdepth, executeCall_depth hstack hg hcallee harity hdepth]
    exact .error rfl

theorem callLocal_executeCall_iff :
    Matches (fun _ => False) (fun _ _ s t => vm.SameRuns orders s t) Eq
      (callLocal f.moduleId f.registerBase dest func callee argsStart argCount t)
      (vm.executeCall dest func argsStart argCount t) ↔ PathsMeet t callee argCount := by
  constructor
  · intro hm
    have hstack : t.callStack = f :: (rest ++ []) := h.stack'
    have htop_le := top_le_length h
    rcases Nat.lt_or_ge callee.paramCount argCount with harity | harity
    · rw [executeCall_arity hstack hg hcallee harity] at hm
      generalize hp : callLocal f.moduleId f.registerBase dest func callee argsStart argCount t =
        p at hm
      cases hm with
      | error =>
        have := callLocal_error hp
        cases this
      | excused hx => exact hx.elim
    · refine ⟨harity, fun hdepth => ?_⟩
      rw [callLocal_apply hdepth (args_le_top h ht) htop_le (harity.trans callee.paramCount_le),
        executeCall_apply hstack hg hcallee harity hdepth (args_le_top h ht)
          (fun hps => (args_le ht hps).2) htop_le] at hm
      cases hm with
      | ok hsm =>
        cases hsm 0 with
        | ok hzr =>
          exact of_alike_call harity (length_args h fun hps => (args_le ht hps).1) hzr.2
  · intro hmt
    exact (callLocal_executeCall_moved hvm h hg hcallee ht hmt).mono
      (fun _ _ _ _ hm => sameRuns_of_moved hvm hm.2) fun _ _ he => he

end Frames

theorem hotCall_apply {l : HotFrame} (hcallee : l.image.functions[func]? = some callee) :
    vm.hotCall orders l dest func argsStart argCount t = (do
      callLocal l.moduleId l.registerBase dest func callee argsStart argCount
      pure (.spend { l with
        pc := 0
        instructions := callee.instructions
        registerBase := t.currentRegisterTop }) : ThreadExec HotStep) (t.setPc l.pc) := by
  simp only [hotCall, hcallee, bind_apply, syncFrame, Exec.modify_apply, bind_some, Exec.get_apply]
  rfl

theorem pathsMeet_setPc (pc : ℕ) :
    PathsMeet (t.setPc pc) callee argCount ↔ PathsMeet t callee argCount := by
  simp [ThreadState.setPc, PathsMeet, MissingNull]

/-- A call in the loop of `execute_with_budget` and in the general handler: both fail alike, or the
threads then have the same runs, exactly if the call has what both paths need. -/
theorem call_paths_agree_iff (vm : VirtualMachine) (orders : PrivateHeap → HashOrders)
    (t : ThreadState) (n pc dest func argsStart argCount : ℕ) (f : CallFrame)
    (rest : List CallFrame) (image : BytecodeModule) (callee : BytecodeFunction) (hvm : vm.Framed)
    (h : vm.Standing n f rest t) (himage : vm.modules f.moduleId = some image)
    (hcallee : image.functions[func]? = some callee)
    (hfits : (Instruction.call dest func argsStart argCount).Fits image.constants n) :
    Matches (fun _ => False)
      (fun next _ s t' => next = .spend ⟨0, callee.instructions, t.currentRegisterTop, f.moduleId,
        image⟩ ∧ vm.SameRuns orders s t') Eq
      (vm.hotCall orders ⟨pc, f.cachedInstructions, f.registerBase, f.moduleId, image⟩
        dest func argsStart argCount t)
      ((do
        syncFrame pc
        vm.executeCall dest func argsStart argCount : ThreadExec VmStep) t) ↔
      PathsMeet t callee argCount := by
  rw [← pathsMeet_setPc pc, ← callLocal_executeCall_iff orders hvm
    (.setPc h pc) himage hcallee hfits, hotCall_apply orders hcallee, bind_apply, bind_apply]
  simp only [syncFrame, Exec.modify_apply, bind_some]
  generalize
    callLocal f.moduleId f.registerBase dest func callee argsStart argCount (t.setPc pc) = p
  generalize vm.executeCall dest func argsStart argCount (t.setPc pc) = q
  rcases p with _ | ⟨e | u, s⟩
  · constructor
    all_goals
      intro hm
      cases hm with
      | stop => exact .stop
  · constructor
    all_goals
      intro hm
      cases hm with
      | error he => exact .error he
      | excused hx => exact hx.elim
  · constructor
    · intro hm
      cases hm with
      | ok hq => exact .ok hq.2
    · intro hm
      cases hm with
      | ok hq => exact .ok ⟨rfl, hq⟩

end Paths

/-- A module with a caller of two registers and functions of one and of two parameters. -/
def callModule (argCount : ℕ) : BytecodeModule :=
  ⟨"m", 0, [], [⟨"caller", 0, 2, 0, 0, none, [.call 1 1 0 argCount, .ret 1]⟩,
    ⟨"one", 1, 0, 0, 0, none, [.ret 0]⟩, ⟨"two", 2, 0, 0, 0, none, [.ret 1]⟩],
    [], [], [], [], [], none⟩

/-- A thread at the call, with a value above its frame that a former callee has left. -/
def callThread (argCount : ℕ) (hasObjects : Bool) : ThreadState :=
  threadOf [.call 1 1 0 argCount, .ret 1] [.int32 5, .int32 6, .null, .int32 7] 2 hasObjects

theorem call_paths_agree_one : Matches (fun _ => False)
      (fun next _ s t => next = .spend ⟨0, [.ret 0], 2, 0, callModule 1⟩ ∧
        (single (callModule 1)).SameRuns (fun _ => .byIndex) s t) Eq
      ((single (callModule 1)).hotCall (fun _ => .byIndex)
        ⟨1, [.call 1 1 0 1, .ret 1], 0, 0, callModule 1⟩ 1 1 0 1 (callThread 1 false))
      ((do
        syncFrame 1
        (single (callModule 1)).executeCall 1 1 0 1 : ThreadExec VmStep) (callThread 1 false)) :=
  (call_paths_agree_iff (single (callModule 1)) (fun _ => .byIndex) (callThread 1 false) 2 1 1 1 0 1
    ⟨0, 0, 0, 0, none, [.call 1 1 0 1, .ret 1], false⟩ [] (callModule 1)
    ⟨"one", 1, 0, 0, 0, none, [.ret 0]⟩ (framed_single (by decide))
    (standing_threadOf (by decide) (by decide)) rfl rfl (by decide)).mpr
      ⟨le_rfl, fun _ => ⟨rfl, fun i hge hlt => absurd hge (Nat.not_le.mpr hlt)⟩⟩

/-- In the loop a callee finds in a missing parameter what another one has left there, the flag of
its caller is lost, and too many arguments are passed. -/
theorem call_paths_differ : ((single (callModule 1)).hotCall (fun _ => .byIndex)
        ⟨1, [.call 1 1 0 1, .ret 1], 0, 0, callModule 1⟩ 1 2 0 1 (callThread 1 true)).map
        (fun p => (p.2.registers.take 4, p.2.callStack.map CallFrame.hasObjects)) =
      some ([.int32 5, .int32 6, .int32 5, .int32 7], [false, false]) ∧
    ((single (callModule 1)).executeCall 1 2 0 1 (callThread 1 true)).map
        (fun p => (p.2.registers.take 4, p.2.callStack.map CallFrame.hasObjects)) =
      some ([.int32 5, .int32 6, .int32 5, .null], [true, false]) ∧
    ((single (callModule 2)).hotCall (fun _ => .byIndex)
        ⟨1, [.call 1 1 0 2, .ret 1], 0, 0, callModule 2⟩ 1 1 0 2 (callThread 2 false)).map
        (fun p => p.1.toOption.isSome) = some true ∧
    ((single (callModule 2)).executeCall 1 1 0 2 (callThread 2 false)).map (fun p => p.1) =
      some (.error (.typeMismatch "1 arguments")) := by
  refine ⟨by decide, by decide, by decide, by decide⟩

end VirtualMachine

end Galfus
