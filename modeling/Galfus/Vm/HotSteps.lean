import Galfus.Vm.Calls
import Galfus.Vm.Encodings
import Galfus.Vm.Metered

/-! # Rounds of the loop as steps

What the loop of `execute_with_budget` does with an instruction, compared with the general
handler of the instruction, when the program counter is saved.
-/

namespace Galfus

open Exec
open Option (bind_some getD_some)

variable {vm : VirtualMachine} {os : PrivateHeap → HashOrders} {l l' : HotFrame}
  {i : Instruction} {t t' s : ThreadState} {n : ℕ} {f : CallFrame} {rs : List CallFrame}
  {im : BytecodeModule} {v : VmValue}

namespace VirtualMachine

open ThreadState

theorem arithmetic_isObject {int : ∀ {w : ℕ}, BitVec w → BitVec w → BitVec w} {fl : FloatArith}
    {l r : VmValue} (h : vm.arithmetic int fl l r = some (.ok v)) : v.isObject = false := by
  unfold arithmetic VmValue.onIntegers at h
  split at h
  iterate 8
    cases h
    rfl
  unfold onFloats at h
  split at h <;> cases h <;> rfl

theorem comparison_isObject {ts : Ordering → Bool} {l r : VmValue}
    (h : vm.comparison ts l r = some (.ok v)) : v.isObject = false := by
  unfold comparison at h
  cases hc : vm.compareValues l r with
  | error e =>
    rw [hc] at h
    cases h
  | ok o =>
    rw [hc] at h
    cases h
    rfl

/-- The operators of the loop have no objects as values. -/
theorem binaryValue_isObject {op : BinaryOp} (hop : op.isHot) {l r : VmValue}
    (h : vm.binaryValue op l r = some (.ok v)) : v.isObject = false := by
  cases op with
  | add | sub => exact arithmetic_isObject h
  | lt | le => exact comparison_isObject h
  | eq | ne =>
    cases h
    rfl
  | _ => cases hop

theorem typedFloats_isObject {op : TypedOp} {w : ℕ} {mk : BitVec w → VmValue}
    (hmk : ∀ x, (mk x).isObject = false) {a : FloatArith → BitVec w → BitVec w → BitVec w}
    {c : BitVec w → BitVec w → Option Ordering} {l r : BitVec w} :
    (typedFloats op mk a c l r).isObject = false := by
  cases op <;> first | rfl | exact hmk _

theorem immediateInts_isObject {op : ImmediateBinaryOp} {w : ℕ} {sg : Bool}
    {mk : BitVec w → VmValue} (hmk : ∀ x, (mk x).isObject = false) {l r : BitVec w}
    (h : immediateInts op sg mk l r = some (.ok v)) : v.isObject = false := by
  cases op with
  | divide | remainder =>
    simp only [immediateInts, divideInts] at h
    split at h
    · cases h
    · obtain ⟨q, -, ⟨⟩⟩ := Option.map_eq_some_iff.mp h
      exact hmk q
  | _ =>
    cases h
    first | rfl | exact hmk _

theorem immediateBinaryValue_isObject {op : ImmediateBinaryOp} {l : VmValue} {r : ImmediateValue}
    (h : vm.immediateBinaryValue l r op = some (.ok v)) : v.isObject = false := by
  unfold immediateBinaryValue at h
  split at h
  iterate 4 exact immediateInts_isObject (fun _ => rfl) h
  iterate 2
    split at h
    · cases h
      exact typedFloats_isObject fun _ => rfl
    · cases h
  · cases h

def stepOf : Except VmError HotStep × ThreadState → Except VmError VmStep × ThreadState
  | (.error e, t) => (.error e, t)
  | (.ok (.advance l), t) | (.ok (.spend l), t) => (.ok .continue, t.setPc l.pc)
  | (.ok (.done s), t) => (.ok s, t)

section Exact

variable {fs : List CallFrame}

theorem syncFrame_of_stack (h : t.callStack = f :: fs) : syncFrame f.pc t = some (.ok (), t) := by
  rw [syncFrame, modify_apply, setPc_of_stack h]

theorem map_stepOf_writePrimRegAt (h : t.callStack = f :: fs) (hl : l.pc = f.pc) (base d : ℕ)
    (v : VmValue) :
    ((writePrimRegAt base d v >>= fun _ => pure (.advance l) : ThreadExec HotStep) t).map stepOf =
      (writePrimRegAt base d v >>= fun _ => pure .continue : ThreadExec VmStep) t := by
  rw [bind_apply, bind_apply, writePrimRegAt]
  cases t.registers[base + d]? with
  | none => rfl
  | some o =>
    refine congrArg some (Prod.ext rfl ?_)
    show ThreadState.setPc l.pc _ = _
    rw [hl]
    exact setPc_of_stack h

theorem map_stepOf_storeOutcome (h : t.callStack = f :: fs) (hl : l.pc = f.pc) (base d : ℕ)
    (o : Outcome) :
    ((storeOutcome base d o >>= fun _ => pure (.advance l) : ThreadExec HotStep) t).map stepOf =
      (storeOutcome base d o >>= fun _ => pure .continue : ThreadExec VmStep) t := by
  rcases o with _ | (e | v)
  · rfl
  · rfl
  · exact map_stepOf_writePrimRegAt h hl base d v

theorem readReg_bind_apply {α : Type} {r : ℕ} (k : VmValue → ThreadExec α) :
    (readReg r >>= k) t = (t.registers[t.currentRegisterBase + r]?).bind fun v => k v t :=
  readRegAt_bind_apply k

theorem bind_congr_apply {α β : Type} {x y : ThreadExec α} (h : x t = y t) (k : α → ThreadExec β) :
    (x >>= k) t = (y >>= k) t := by
  rw [bind_apply, bind_apply, h]

variable (h : t.callStack = f :: fs) (hl : l.pc = f.pc)
  (hb : l.registerBase = t.currentRegisterBase)
include h hl hb

theorem map_stepOf_binaryImmediate {d lh : ℕ} {op : ImmediateBinaryOp} {r : ImmediateValue} :
    (vm.hotOperator l (.binaryImmediate d lh op r) t).map stepOf =
      vm.executeOperatorInstruction (.binaryImmediate d lh op r) t := by
  have hh : vm.executeHotOperator l.registerBase (.binaryImmediate d lh op r) t =
      (t.registers[t.currentRegisterBase + lh]?).bind fun v =>
        storeOutcome t.currentRegisterBase d (vm.immediateBinaryValue v r op) t := by
    rw [hb]
    exact readRegAt_bind_apply _
  rw [executeOperatorInstruction, readReg_bind_apply]
  cases hv : t.registers[t.currentRegisterBase + lh]? with
  | none =>
    rw [hv] at hh
    exact congrArg (Option.map stepOf) (bind_congr_apply (y := Exec.stop) hh _)
  | some v =>
    rw [hv] at hh
    rw [bind_some, attempt_writeReg_bind fun _ => immediateBinaryValue_isObject]
    exact (congrArg (Option.map stepOf) (bind_congr_apply hh _)).trans
      (map_stepOf_storeOutcome h hl _ _ _)

theorem map_stepOf_binary {op : BinaryOp} (hop : op.isHot) {d lh r : ℕ} :
    (vm.hotOperator l (.binary op d lh r) t).map stepOf =
      vm.executeOperatorInstruction (.binary op d lh r) t := by
  rw [executeOperatorInstruction, readReg_bind_apply]
  have hsy : syncFrame l.pc t = some (.ok (), t) := by
    rw [hl]
    exact syncFrame_of_stack h
  simp only [hotOperator, readRegAt_bind_apply, hb]
  cases hv : t.registers[t.currentRegisterBase + lh]? with
  | none => rfl
  | some lv =>
    simp only [bind_some, readReg_bind_apply]
    cases hw : t.registers[t.currentRegisterBase + r]? with
    | none => rfl
    | some rv =>
      have hht : vm.executeHotOperator t.currentRegisterBase (.binary op d lh r) t =
          storeOutcome t.currentRegisterBase d (vm.binaryValue op lv rv) t := by
        simp only [executeHotOperator, readRegAt_bind_apply, hv, hw, bind_some, hotBinaryValue_eq]
        rfl
      have hst := map_stepOf_storeOutcome h hl t.currentRegisterBase d (vm.binaryValue op lv rv)
      rw [bind_some, bind_some, attempt_writeReg_bind fun _ => binaryValue_isObject hop, ← hst,
        ← bind_congr_apply hht]
      split
      · rw [bind_apply, hsy]
        rfl
      · rfl

theorem map_stepOf_loadNull {d : ℕ} : (vm.hotInstruction os l (.loadNull d) t).map stepOf =
      (writeReg d .null >>= fun _ => pure .continue : ThreadExec VmStep) t := by
  rw [bind_apply, writeReg_eq_writePrimRegAt rfl, ← hb]
  exact map_stepOf_writePrimRegAt h hl _ _ _

theorem map_stepOf_jumpIf {c : ℕ} {tk : Bool} {o : ℤ} :
    (hotJumpIf l c tk o t).map stepOf = jumpIf c tk o t := by
  rw [hotJumpIf, jumpIf, readReg_bind_apply, readRegAt_bind_apply, hb]
  cases t.registers[t.currentRegisterBase + c]? with
  | none => rfl
  | some v =>
    cases v with
    | bool b =>
      simp only [bind_some]
      split
      · simp [stepOf, jump_apply h, hl]
      · simp [stepOf, hl, setPc_of_stack h]
    | _ => simp [bind_apply, hl, syncFrame_of_stack h, stepOf]

theorem map_stepOf_jumpNull {vl : ℕ} {o : ℤ} :
    (hotJumpNull l vl o t).map stepOf = jumpNull vl o t := by
  rw [hotJumpNull, jumpNull, readReg_bind_apply, readRegAt_bind_apply, hb]
  cases t.registers[t.currentRegisterBase + vl]? with
  | none => rfl
  | some v =>
    simp only [bind_some]
    split
    · simp [stepOf, jump_apply h, hl]
    · simp [stepOf, hl, setPc_of_stack h]

theorem map_stepOf_move {d sr : ℕ} : (hotMove l d sr t).map stepOf = executeMove d sr t := by
  rw [hotMove, executeMove, readReg_bind_apply, readRegAt_bind_apply, hb]
  cases t.registers[t.currentRegisterBase + sr]? with
  | none => rfl
  | some v =>
    simp only [bind_some, bind_apply, onHeap, modify_apply, writeRegAt, writeReg]
    cases t.registers[t.currentRegisterBase + d]? with
    | none => rfl
    | some o =>
      refine congrArg some (Prod.ext rfl ?_)
      show ThreadState.setPc l.pc _ = _
      rw [hl]
      exact setPc_of_stack h

omit h hl hb

theorem reloadFrame_apply (h : vm.Standing n f rs t) (l : HotFrame) :
    ∃ im, vm.reloadFrame l t = some (.ok (f.load f.pc im), t) := by
  obtain ⟨im, hi, -⟩ := h.chain.codeFits
  simp only [reloadFrame, Exec.get_bind, Standing.callStack h]
  split
  · exact ⟨l.image, rfl⟩
  · rw [hi]
    exact ⟨im, rfl⟩

theorem map_stepOf_delegate (h : t.callStack = f :: fs) (hl : l.pc = f.pc)
    (hn : ∀ t', vm.dispatch (os t.heap) i t = some (.ok .continue, t') → vm.Moved .whole t' t') :
    (vm.delegate os l i t).map stepOf = vm.dispatch (os t.heap) i t := by
  simp only [delegate, bind_apply, hl, syncFrame_of_stack h, bind_some, Exec.get_apply]
  rcases hd : vm.dispatch (os t.heap) i t with _ | ⟨e | st, t'⟩
  · rfl
  · rfl
  · cases st with
    | «continue» =>
      obtain ⟨n, g, rs, hg⟩ := hn t' hd
      obtain ⟨im, hr⟩ := reloadFrame_apply hg l
      simp only [bind_some, bind_apply, hr, Exec.pure_apply, Option.map_some, stepOf]
      exact congrArg some (Prod.ext rfl (setPc_of_stack (Standing.callStack hg)))
    | ret | suspend => rfl

theorem map_stepOf_hotReturn (hch : vm.Chain .whole n f rs) (h : Popped .whole f rs t t) :
    (vm.hotReturn l f v t).map stepOf = vm.returnTo f v t := by
  have hen : ((do
      let g ← Exec.lift (vm.getFunction f.moduleId f.funcIdx)
      pure (.done (.ret v f.moduleId g.returnTy)) : ThreadExec HotStep) t).map stepOf = (do
      let g ← Exec.lift (vm.getFunction f.moduleId f.funcIdx)
      pure (.ret v f.moduleId g.returnTy) : ThreadExec VmStep) t := by
    cases vm.getFunction f.moduleId f.funcIdx <;> rfl
  unfold hotReturn returnTo
  cases rs with
  | nil =>
    rw [show f.returnDest = none from hch.1.2]
    exact hen
  | cons g rs =>
    obtain ⟨-, k, hk, -, hch⟩ := hch
    cases f.returnDest with
    | some d =>
      have hg := h.relocated hk hch
      obtain ⟨im, hrl⟩ := reloadFrame_apply hg l
      simp only [bind_apply, hrl, bind_some, writeRegAt, writeReg, CallFrame.load, hg.base']
      cases t.registers[g.registerBase + d]? with
      | none => rfl
      | some o =>
        have hst : t.callStack = g :: rs := Standing.callStack hg
        exact congrArg some (Prod.ext rfl (setPc_of_stack hst))
    | none => exact hen

theorem map_stepOf_popFrame (h : vm.Standing n f rs t) {k : Option CallFrame → ThreadExec HotStep}
    {k' : Option CallFrame → ThreadExec VmStep} (hk : ∀ f, k (some f) = vm.hotReturn l f v)
    (hk' : ∀ f, k' (some f) = vm.returnTo f v) :
    ((popFrame >>= k) t).map stepOf = (popFrame >>= k') t := by
  rw [bind_apply, bind_apply]
  rcases hp : popFrame t with _ | ⟨r, t'⟩
  · rfl
  · obtain ⟨rfl, hpp⟩ := popFrame_of_standing h hp
    simp only [bind_some, hk, hk']
    exact map_stepOf_hotReturn h.chain hpp

theorem map_stepOf_retNull (h : vm.Standing n f rs t) :
    (vm.hotRetNull l t).map stepOf = vm.executeReturn .null t :=
  map_stepOf_popFrame h (fun _ => rfl) fun _ => rfl

theorem map_stepOf_ret (h : vm.Standing n f rs t) {sr : ℕ}
    (hb : l.registerBase = t.currentRegisterBase) :
    (vm.hotRet l sr t).map stepOf = vm.executeRet sr t := by
  rw [hotRet, executeRet, readReg_bind_apply, readRegAt_bind_apply, hb]
  cases t.registers[t.currentRegisterBase + sr]? with
  | none => rfl
  | some v =>
    have hs : vm.Standing n f rs { t with heap := t.heap.retainAnchorVal v } :=
      h.update _ _ le_rfl
    exact map_stepOf_popFrame hs (fun _ => rfl) fun _ => rfl

/-- What both tail calls need: not too many arguments and, if the frame may have objects, none in
the registers of missing parameters, and null in those above the frame. -/
def TailPathsMeet (t : ThreadState) (callee : BytecodeFunction) (argCount : ℕ) : Prop :=
  argCount ≤ callee.paramCount ∧ (t.currentFrameHasObjects = true →
    ∀ k, argCount ≤ k → k < callee.paramCount →
      (t.registers.getD (t.currentRegisterBase + k) .null).isObject = false ∧
        (t.currentRegisterTop ≤ t.currentRegisterBase + k →
          t.registers.getD (t.currentRegisterBase + k) .null = .null))

end Exact

end VirtualMachine

namespace ThreadState

variable {b top nt : ℕ}

theorem forM_releaseReg (b c : ℕ) (hrm : b + c ≤ t.registers.length) :
    (List.range' b c).forM releaseReg t = some (.ok (), { t with
      registers := overwrite b (List.replicate c .null) t.registers
      heap := (t.regValues b c).foldl PrivateHeap.releaseAnchorVal t.heap }) := by
  induction c generalizing b t with
  | zero => simp [regValues]
  | succ c ih =>
    have hlt : b < t.registers.length := by omega
    have hvl : t.regValues b (c + 1) = t.registers[b] :: t.regValues (b + 1) c := by
      rw [regValues, List.drop_eq_getElem_cons hlt]
      rfl
    have hrs : ({ t with
        registers := t.registers.set b .null
        heap := t.heap.releaseAnchorVal t.registers[b] } : ThreadState).regValues (b + 1) c =
        t.regValues (b + 1) c := by
      simp [regValues, List.drop_set]
    have hnx := ih (b + 1) (t := { t with
      registers := t.registers.set b .null
      heap := t.heap.releaseAnchorVal t.registers[b] }) (by simp only [List.length_set]; omega)
    rw [hrs] at hnx
    rw [List.range'_succ, forM_cons_apply, bind_apply, releaseReg, List.getElem?_eq_getElem hlt,
      hvl]
    exact hnx

theorem releaseAnchorVal_of_isObject {h : PrivateHeap} (hv : v.isObject = false) :
    h.releaseAnchorVal v = h := by
  cases v with
  | object r => cases hv
  | _ => rfl

theorem foldl_congr_forall₂ {α β : Type} {g : α → β → α} {vs ws : List β} (a : α)
    (h : List.Forall₂ (fun v w => ∀ a, g a v = g a w) vs ws) : vs.foldl g a = ws.foldl g a := by
  induction h generalizing a with
  | nil => rfl
  | cons hvw _ ih => rw [List.foldl_cons, List.foldl_cons, hvw, ih]

theorem getElem?_withNulls {st c j : ℕ} (hr : st + c ≤ t.registers.length) :
    (t.withNulls st c).registers[j]? =
      if st ≤ j ∧ j < st + c then some .null else t.registers[j]? := by
  unfold withNulls
  split
  · next hj =>
    obtain ⟨k, rfl⟩ := Nat.exists_eq_add_of_le hj.1
    rw [getElem?_overwrite_add (by rw [List.length_replicate]; omega) (by omega),
      List.getElem?_replicate, if_pos (by omega)]
  · next hj =>
    rcases Nat.lt_or_ge j st with hlt | hge
    · exact getElem?_overwrite_of_lt hlt
    · exact getElem?_overwrite_of_ge (by rw [List.length_replicate]; omega)

/-- Registers may be null before they are released, if they hold no objects. -/
theorem releaseRegs_withNulls {st c : ℕ} (hbase : b ≤ top) (htp : top ≤ t.registers.length)
    (hst : b ≤ st) (hrm : st + c ≤ t.registers.length)
    (hpl : ∀ j, st ≤ j → j < st + c →
      (t.registers.getD j .null).isObject = false ∧ (top ≤ j → t.registers.getD j .null = .null)) :
    releaseRegs b top (t.withNulls st c) = releaseRegs b top t := by
  have hln : (t.withNulls st c).registers.length = t.registers.length := length_overwrite
  have hrg : overwrite b (List.replicate (top - b) .null) (t.withNulls st c).registers =
      overwrite b (List.replicate (top - b) .null) t.registers := by
    apply overwrite_congr hln
    intro j hj
    rw [List.length_replicate] at hj
    rw [getElem?_withNulls hrm]
    split
    · next hmm =>
      have hlt : j < t.registers.length := by omega
      have hnl := (hpl j hmm.1 hmm.2).2 (by omega)
      rw [List.getD_eq_getElem?_getD, List.getElem?_eq_getElem hlt, getD_some] at hnl
      rw [List.getElem?_eq_getElem hlt, hnl]
    · rfl
  have hhp : ((t.withNulls st c).regValues b (top - b)).foldl PrivateHeap.releaseAnchorVal t.heap =
      (t.regValues b (top - b)).foldl PrivateHeap.releaseAnchorVal t.heap := by
    apply foldl_congr_forall₂
    rw [List.forall₂_iff_get]
    have hln₁ := length_regValues (t := t) b (top - b) (by omega)
    have hln₂ := length_regValues (t := t.withNulls st c) b (top - b) (by omega)
    refine ⟨hln₂.trans hln₁.symm, fun j hj hj' h => ?_⟩
    have hlt : j < top - b := by omega
    have hgt := getElem?_regValues (t := t) b hlt
    have hgt' := getElem?_regValues (t := t.withNulls st c) b hlt
    rw [List.getElem?_eq_getElem hj'] at hgt
    rw [List.getElem?_eq_getElem hj, getElem?_withNulls hrm, ← hgt] at hgt'
    simp only [List.get_eq_getElem]
    split at hgt'
    · next hmm =>
      have hpl' := (hpl (b + j) hmm.1 hmm.2).1
      rw [List.getD_eq_getElem?_getD, ← hgt, getD_some] at hpl'
      rw [Option.some.inj hgt', releaseAnchorVal_of_isObject hpl']
      rfl
    · rw [Option.some.inj hgt']
  unfold releaseRegs
  rw [forM_releaseReg _ _ (by omega), forM_releaseReg _ _ (by omega), hrg]
  exact congrArg (fun hp => some (Except.ok (), { t with
    registers := overwrite b (List.replicate (top - b) .null) t.registers
    heap := hp })) hhp

theorem withNulls_withNulls {st c c' : ℕ} (hs : b ≤ st)
    (hc : st + c ≤ b + c') (hrm : b + c' ≤ t.registers.length) :
    (t.withNulls st c).withNulls b c' = t.withNulls b c' := by
  have hr : overwrite b (List.replicate c' .null) (t.withNulls st c).registers =
      overwrite b (List.replicate c' .null) t.registers := by
    apply overwrite_congr length_overwrite
    intro j hj
    rw [List.length_replicate] at hj
    exact (getElem?_withNulls (by omega)).trans (if_neg (by omega))
  exact congrArg (fun rs => { t with registers := rs }) hr

theorem clearRegs_apply (b c : ℕ) (hr : b + c ≤ t.registers.length) :
    (List.range' b c).forM clearReg t = some (.ok (), t.withNulls b c) := by
  have hc := forM_clearReg (t := t) 0 b c (by omega)
  simpa only [Nat.zero_add] using hc

/-- The registers of missing parameters may be null before the frame is emptied. -/
theorem clearFrame_withNulls {st c : ℕ} (hbase : b ≤ t.currentRegisterTop)
    (ht : t.currentRegisterTop ≤ t.registers.length) (hn : nt ≤ t.registers.length)
    (hs : b ≤ st) (hc : st + c ≤ nt)
    (hp : t.currentFrameHasObjects = true → ∀ j, st ≤ j → j < st + c →
      (t.registers.getD j .null).isObject = false ∧
        (t.currentRegisterTop ≤ j → t.registers.getD j .null = .null)) :
    clearFrame b nt (t.withNulls st c) = clearFrame b nt t := by
  have hln : (t.withNulls st c).registers.length = t.registers.length := length_overwrite
  simp only [clearFrame, Exec.get_bind]
  show (if t.currentFrameHasObjects = true then releaseRegs b t.currentRegisterTop else
    (List.range' b (max t.currentRegisterTop nt - b)).forM clearReg) _ = _
  split
  · next hf =>
    exact releaseRegs_withNulls hbase ht hs (by omega) (hp hf)
  · rw [clearRegs_apply _ _ (by omega), clearRegs_apply _ _ (by omega),
      withNulls_withNulls hs (by omega) (by omega)]

end ThreadState

namespace VirtualMachine

open ThreadState

variable {c : BytecodeFunction} {argsStart ac : ℕ}

/-- Both tail calls of a function of the module do the same, if it has what they need. -/
theorem replaceFrame_missing (h : vm.Standing n f rs t) {mi fi : ℕ} (hmt : TailPathsMeet t c ac) :
    replaceFrame mi f.registerBase fi c argsStart ac (List.range' ac (c.paramCount - ac)) t =
      tailCallLocal mi f.registerBase fi c argsStart ac t := by
  obtain ⟨har, hpl⟩ := hmt
  have hpr := c.paramCount_le
  set t₁ : ThreadState := { t with
    registers := reserve 0 (f.registerBase + c.registerCount) t.registers } with ht₁
  have hrm : f.registerBase + c.registerCount ≤ t₁.registers.length :=
    le_length_reserve _ _ _
  have htp : t.currentRegisterTop = f.registerBase + n := h.top'
  have hbase : t.currentRegisterBase = f.registerBase := h.base'
  have htop_le : t.currentRegisterTop ≤ t₁.registers.length :=
    (htp ▸ h.top_le').trans (length_le_reserve _ _ _)
  have hms : (List.range' ac (c.paramCount - ac)).forM (fun i => clearReg (f.registerBase + i)) t₁ =
      some (.ok (), t₁.withNulls (f.registerBase + ac) (c.paramCount - ac)) :=
    forM_clearReg _ _ _ (by omega)
  have hcl : clearFrame f.registerBase (f.registerBase + c.registerCount)
      (t₁.withNulls (f.registerBase + ac) (c.paramCount - ac)) =
      clearFrame f.registerBase (f.registerBase + c.registerCount) t₁ := by
    refine clearFrame_withNulls (by rw [ht₁]; dsimp only; omega) htop_le hrm (by omega)
      (by omega) ?_
    intro hfl j hge hlt
    obtain ⟨k, rfl⟩ : ∃ k, j = f.registerBase + k := ⟨j - f.registerBase, by omega⟩
    have hk := hpl hfl k (by omega) (by omega)
    rw [hbase] at hk
    rw [getD_reserve]
    exact hk
  have hrs : reserveRegs (f.registerBase + c.registerCount) t = some (.ok (), t₁) := rfl
  unfold tailCallLocal replaceFrame
  rw [bind_apply, bind_apply, hrs, bind_some, bind_some]
  rw [bind_apply, bind_apply]
  rcases hrd : readRegs (f.registerBase + argsStart) ac t₁ with _ | ⟨e | a, t₂⟩
  · rfl
  · rfl
  · obtain rfl : t₁ = t₂ := by
      dsimp only [readRegs] at hrd
      split at hrd <;> cases hrd
      rfl
    simp only [bind_some, bind_apply, hms, hcl, forM_nil_apply]

theorem executeTailCall_apply (h : vm.Standing n f rs t)
    (hi : vm.modules f.moduleId = some im) {fn : ℕ}
    (hc : im.functions[fn]? = some c) (hm : TailPathsMeet t c ac) :
    vm.executeTailCall fn argsStart ac t = (do
      tailCallLocal f.moduleId f.registerBase fn c argsStart ac
      pure .continue : ThreadExec VmStep) t := by
  have hlt : fn < im.functions.length := (List.getElem?_eq_some_iff.mp hc).1
  have hf := getFunction_eq_ok.mpr ⟨im, hi, hc⟩
  have hbase : t.currentRegisterBase = f.registerBase := h.base'
  simp [executeTailCall, bind_apply, currentModule_apply (Standing.callStack h), resolveFunction,
    getModule, hi, if_pos hlt, hf, checkArity, if_neg (Nat.not_lt.mpr hm.1), hbase,
    replaceFrame_missing h hm]

theorem setPc_of_tailCallLocal {mi base fn : ℕ}
    (h : tailCallLocal mi base fn c argsStart ac t = some (.ok (), t')) :
    t'.setPc 0 = t' := by
  iterate 4 obtain ⟨_, _, -, h⟩ := bind_eq_ok.mp h
  obtain ⟨_, s, -, h⟩ := bind_eq_ok.mp h
  cases hs : s.callStack with
  | nil =>
    simp only [reuseFrame, Exec.get_bind, hs] at h
    cases h
  | cons g frames =>
    rw [reuseFrame_apply hs] at h
    cases h
    rfl

theorem silent_tailCallLocal {mi base fn : ℕ} :
    Silent (tailCallLocal mi base fn c argsStart ac) := by
  refine tailCallLocal_induction (fun hx => (hx 0).silent.bind) fun t e t' h => ?_
  simp only [reuseFrame, Exec.get_bind] at h
  cases hs : t.callStack <;> rw [hs] at h <;> cases h

theorem map_stepOf_tailCall (h : vm.Standing n f rs t)
    (hi : vm.modules f.moduleId = some im) {fn : ℕ}
    (hc : im.functions[fn]? = some c) (hm : TailPathsMeet t c ac) :
    (vm.hotTailCall os (f.load f.pc im) fn argsStart ac t).map stepOf =
      vm.executeTailCall fn argsStart ac t := by
  rw [executeTailCall_apply h hi hc hm, hotTailCall, CallFrame.load]
  simp only [hc, bind_apply]
  rcases hr : tailCallLocal f.moduleId f.registerBase fn c argsStart ac t with
    _ | ⟨e | _, t'⟩
  · rfl
  · exact absurd hr (silent_tailCallLocal t e t')
  · exact congrArg some (Prod.ext rfl (setPc_of_tailCallLocal hr))

end VirtualMachine

end Galfus
