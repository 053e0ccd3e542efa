import Galfus.Exec.Commute
import Galfus.Trace.Metered
import Galfus.Vm.Runs

/-! # The loop of `execute_with_budget` as a metered machine

Between rounds the loop has the program counter in a local variable, and the one that the
current frame has saved is out of date. A round does not depend on the saved one, unless an
operator fails that does not write it back. So the loop is a machine on threads with their
program counters saved, in which some rounds are free.
-/

namespace Galfus

open Exec

variable {vm : VirtualMachine} {os : PrivateHeap → HashOrders} {l l' : HotFrame}
  {i : Instruction} {u u' : ThreadState} {n : ℕ} {f : CallFrame} {r : List CallFrame}
  {im : BytecodeModule} {pc : ℕ}

def ImmediateBinaryOp.divides : ImmediateBinaryOp → Bool
  | .divide | .remainder => true
  | _ => false

/-- The operands with which an operator with an immediate operand fails. -/
def ImmediateBinaryOp.fails (op : ImmediateBinaryOp) : VmValue → ImmediateValue → Bool
  | .int32 _, .i32 r => op.divides && r == 0
  | .int64 _, .i64 r => op.divides && r == 0
  | .uint32 _, .u32 r => op.divides && r == 0
  | .uint64 _, .u64 r => op.divides && r == 0
  | .float32 _, .f32 _ | .float64 _, .f64 _ => op.typed?.isNone
  | _, _ => true

/-- The instruction fails in the loop without writing the program counter back: an operator with an
immediate operand, or a typed division by zero. -/
def Instruction.failsUnsaved (base : ℕ) (registers : List VmValue) : Instruction → Bool
  | .binaryImmediate _ lhs op rhs => (registers[base + lhs]?).any fun l => op.fails l rhs
  | .typedBinary _ op _ _ rhs => (op == .div || op == .rem) &&
      (registers[base + rhs]?).any fun r => r == .int32 0 || r == .int64 0
  | _ => false

namespace VirtualMachine

open ThreadState

variable {e : VmError}

theorem divideInts_error {q : ∀ {w : ℕ}, Bool → BitVec w → BitVec w → Option (BitVec w)}
    {w : ℕ} {s : Bool} {mk : BitVec w → VmValue} {l r : BitVec w}
    (h : divideInts q s mk l r = some (.error e)) : r = 0 := by
  unfold divideInts at h
  split at h
  · assumption
  · cases hq : q s l r <;> simp [hq] at h

theorem immediateInts_error {op : ImmediateBinaryOp} {w : ℕ} {s : Bool}
    {mk : BitVec w → VmValue} {l r : BitVec w}
    (h : immediateInts op s mk l r = some (.error e)) : (op.divides && r == 0) = true := by
  cases op with
  | divide | remainder =>
    have := divideInts_error h
    simp [ImmediateBinaryOp.divides, this]
  | _ => simp [immediateInts] at h

theorem immediateBinaryValue_error {op : ImmediateBinaryOp} {l : VmValue} {r : ImmediateValue}
    (h : vm.immediateBinaryValue l r op = some (.error e)) : op.fails l r = true := by
  unfold immediateBinaryValue at h
  split at h
  iterate 4 exact immediateInts_error h
  iterate 2
    split at h
    · cases h
    · next hop =>
      simp [ImmediateBinaryOp.fails, hop]
  · unfold ImmediateBinaryOp.fails
    split <;> simp_all

theorem typedInts_error {op : TypedOp} {w : ℕ} {mk : BitVec w → VmValue} {l r : BitVec w}
    (h : typedInts op mk l r = some (.error e)) : (op == .div || op == .rem) = true ∧ r = 0 := by
  cases op with
  | div | rem =>
    rw [typedInts] at h
    exact ⟨rfl, divideInts_error h⟩
  | _ => simp [typedInts] at h

theorem typedBinaryValue_error {k : NumKind} {op : TypedOp} {l r : VmValue}
    (h : vm.typedBinaryValue k op l r = some (.error e)) :
    (op == .div || op == .rem) = true ∧ (r == .int32 0 || r == .int64 0) = true := by
  unfold typedBinaryValue at h
  split at h
  · obtain ⟨hop, rfl⟩ := typedInts_error h
    exact ⟨hop, by simp⟩
  · obtain ⟨hop, rfl⟩ := typedInts_error h
    exact ⟨hop, by simp⟩
  all_goals cases h

/-- An operator of the loop that does not write the program counter back has a value. -/
theorem hotBinaryValue_of_not_syncs (vm : VirtualMachine) {op : BinaryOp} (hop : op.isHot)
    {l r : VmValue} (h : op.syncs l r = false) : ∃ v, vm.hotBinaryValue op l r = some (.ok v) := by
  cases op with
  | lt | le | add | sub =>
    simp only [BinaryOp.syncs] at h
    split at h <;> first | exact ⟨_, rfl⟩ | cases h
  | eq | ne => exact ⟨_, rfl⟩
  | _ => cases hop

end VirtualMachine

namespace ThreadState

@[simp] theorem setPc_setPc (pc pc' : ℕ) (t : ThreadState) :
    (t.setPc pc').setPc pc = t.setPc pc := by
  unfold setPc
  cases t.callStack <;> rfl

theorem setPc_of_stack {fs : List CallFrame} (h : u.callStack = f :: fs) : u.setPc f.pc = u := by
  obtain ⟨cs, _⟩ := u
  subst h
  rfl

section Commute

variable {b reg : ℕ} {v : VmValue}

theorem passes_readRegAt : Passes (setPc pc) (readRegAt b reg) := by
  constructor <;> intro t <;> simp only [readRegAt, setPc] <;>
    cases t.registers[b + reg]? <;> simp

theorem passes_writePrimRegAt : Passes (setPc pc) (writePrimRegAt b reg v) := by
  constructor <;> intro t <;> simp only [writePrimRegAt, setPc] <;>
    cases t.registers[b + reg]? <;> simp

theorem passes_writeRegAt : Passes (setPc pc) (writeRegAt b reg v) := by
  constructor <;> intro t <;> simp only [writeRegAt, setPc] <;>
    cases t.registers[b + reg]? <;> simp

theorem passes_onHeap (g : PrivateHeap → PrivateHeap) : Passes (setPc pc) (onHeap g) :=
  .modify fun _ => rfl

theorem passes_placeArg : Passes (setPc pc) (placeArg reg v) := by
  constructor <;> intro t <;> by_cases h : reg < t.registers.length <;> simp [placeArg, setPc, h]

theorem passes_clearReg : Passes (setPc pc) (clearReg reg) := by
  constructor <;> intro t <;> by_cases h : reg < t.registers.length <;> simp [clearReg, setPc, h]

theorem passes_releaseReg : Passes (setPc pc) (releaseReg reg) := by
  constructor <;> intro t <;> simp only [releaseReg, setPc] <;> cases t.registers[reg]? <;> simp

theorem passes_readRegs {s c : ℕ} : Passes (setPc pc) (readRegs s c) := by
  constructor <;> intro t <;> dsimp only [readRegs, setPc] <;> split <;> simp_all

theorem absorbs_syncFrame : Absorbs (setPc pc) (syncFrame reg) := by
  intro t
  rw [syncFrame, modify_apply, setPc_setPc]
  rfl

theorem passes_clearFrame (nt : ℕ) : Passes (setPc pc) (clearFrame b nt) := by
  refine .get_bind (fun t => rfl) fun t => ?_
  split
  · exact .forM _ fun _ => passes_releaseReg
  · exact .forM _ fun _ => passes_clearReg

theorem absorbs_reuseFrame (mi fi nt : ℕ) (c : BytecodeFunction) :
    Absorbs (setPc pc) (reuseFrame mi fi nt c) := by
  intro t
  simp only [reuseFrame, Exec.get_bind, setPc]
  cases t.callStack <;> rfl

/-- What a tail call does before it reuses the frame has no errors and leaves the frame alone. -/
theorem tailCallLocal_induction {P : ThreadExec Unit → Prop} {mi fi s ac : ℕ} {c : BytecodeFunction}
    (hb : ∀ {α : Type} {x : ThreadExec α} {k : α → ThreadExec Unit},
      (∀ pc, Passes (setPc pc) x) → (∀ a, P (k a)) → P (x >>= k))
    (h : P (reuseFrame mi fi (b + c.registerCount) c)) :
    P (tailCallLocal mi b fi c s ac) := by
  refine hb (fun _ => .modify fun _ => rfl) fun _ => hb (fun _ => passes_readRegs) fun ar => ?_
  refine hb (fun _ => .pure _) fun _ => hb (fun _ => passes_clearFrame _) fun _ => ?_
  refine hb (fun _ => ?_) fun _ => h
  exact .bind (.modify fun _ => rfl) fun _ => .forM _ fun _ => passes_placeArg

/-- A tail call starts the callee at its first instruction. -/
theorem absorbs_tailCallLocal (mi fi a ac : ℕ) (c : BytecodeFunction) :
    Absorbs (setPc pc) (tailCallLocal mi b fi c a ac) :=
  tailCallLocal_induction (fun hx => .of_passes (hx pc)) (absorbs_reuseFrame _ _ _ _)

end Commute

end ThreadState

/-- How the machine goes on after a round: the program counter is saved. -/
def settle : Except VmError HotStep × ThreadState →
    MeteredStep ThreadState (Except VmError VmStep × ThreadState)
  | (.error e, t) => .stop (.error e, t)
  | (.ok (.advance l), t) => .next false (t.setPc l.pc)
  | (.ok (.spend l), t) => .next true (t.setPc l.pc)
  | (.ok (.done s), t) => .stop (.ok s, t)

/-- The saved program counter makes no difference to how the machine goes on. -/
def Settles (x : ThreadExec HotStep) (u : ThreadState) : Prop :=
  ∀ pc, (x (u.setPc pc)).map settle = (x u).map settle

/-- The round goes on to another one. -/
def Proceeds (x : ThreadExec HotStep) : Prop :=
  ∀ u r u', x u = some (r, u') → ∃ l, r = .ok (.advance l) ∨ r = .ok (.spend l)

namespace Proceeds

theorem advance (l : HotFrame) : Proceeds (pure (.advance l)) := by
  rintro u r u' ⟨⟩
  exact ⟨l, .inl rfl⟩

theorem spend (l : HotFrame) : Proceeds (pure (.spend l)) := by
  rintro u r u' ⟨⟩
  exact ⟨l, .inr rfl⟩

end Proceeds

namespace Settles

variable {x : ThreadExec HotStep}

theorem of_absorbs (h : ∀ pc, Absorbs (ThreadState.setPc pc) x) : Settles x u := by
  intro pc
  rw [h pc u]

theorem of_commutes (h : ∀ pc, Commutes (ThreadState.setPc pc) x) (hx : Proceeds x) :
    Settles x u := by
  intro pc
  rw [h pc u]
  rcases hr : x u with _ | ⟨r, u'⟩
  · rfl
  · obtain ⟨l, rfl | rfl⟩ := hx u r u' hr
    · simp [settle]
    · simp [settle]

theorem advance (l : HotFrame) : Settles (pure (.advance l)) u :=
  .of_commutes (fun _ => .pure _) (.advance l)

theorem spend (l : HotFrame) : Settles (pure (.spend l)) u :=
  .of_commutes (fun _ => .pure _) (.spend l)

theorem bind {α : Type} {x : ThreadExec α} {k : α → ThreadExec HotStep}
    (hx : ∀ pc, Passes (ThreadState.setPc pc) x) (hk : ∀ a u, Settles (k a) u) :
    Settles (x >>= k) u := by
  intro pc
  rw [bind_apply, bind_apply, (hx pc).commutes u]
  rcases h : x u with _ | ⟨e | a, u'⟩
  · rfl
  · exact absurd h ((hx pc).silent u e u')
  · exact hk a u' pc

end Settles

namespace VirtualMachine

open ThreadState

theorem absorbs_delegate : Absorbs (setPc pc) (vm.delegate os l i) := absorbs_syncFrame.bind

theorem absorbs_popFrame_bind {k : Option CallFrame → ThreadExec HotStep}
    (hk : ∀ f pc, k (some { f with pc := pc }) = k (some f)) :
    Absorbs (setPc pc) (popFrame >>= k) := by
  intro t
  obtain ⟨cs, r, base, tp, fl, h, ms, d⟩ := t
  rcases cs with _ | ⟨f, fs⟩
  · rfl
  · rw [bind_apply, bind_apply, popFrame_apply (f := { f with pc := pc }) rfl,
      popFrame_apply (f := f) rfl]
    simp only [bind_apply, Exec.modify_apply, Exec.pure_apply, setPc]
    rcases releaseFrame f.registerBase ⟨fs, r, base, tp, fl, h, ms, d⟩ with
      _ | ⟨e | a, t'⟩
    · rfl
    · rfl
    · exact congrFun (hk f pc) _

theorem absorbs_hotRetNull : Absorbs (setPc pc) (vm.hotRetNull l) :=
  absorbs_popFrame_bind fun _ _ => rfl

theorem absorbs_hotRet {s : ℕ} : Absorbs (setPc pc) (vm.hotRet l s) := by
  refine .of_passes passes_readRegAt fun v => .of_passes (passes_onHeap _) fun _ => ?_
  exact absorbs_popFrame_bind fun _ _ => rfl

theorem absorbs_hotCall {d fn a ac : ℕ} : Absorbs (setPc pc) (vm.hotCall os l d fn a ac) := by
  unfold hotCall
  split
  · exact absorbs_syncFrame.bind
  · exact absorbs_delegate

theorem absorbs_hotTailCall {fn a ac : ℕ} : Absorbs (setPc pc) (vm.hotTailCall os l fn a ac) := by
  unfold hotTailCall
  split
  · exact (absorbs_tailCallLocal _ _ _ _ _).bind
  · exact absorbs_delegate

theorem settles_hotJumpIf {c : ℕ} {t : Bool} {o : ℤ} : Settles (hotJumpIf l c t o) u := by
  intro pc
  simp only [hotJumpIf, bind_apply, passes_readRegAt.commutes u]
  unfold readRegAt
  rcases u.registers[l.registerBase + c]? with _ | v
  · rfl
  · cases v with
    | bool b => simp [settle]
    | _ => simp [bind_apply, syncFrame, settle]

theorem settles_hotJumpNull {vl : ℕ} {o : ℤ} : Settles (hotJumpNull l vl o) u :=
  .bind (fun _ => passes_readRegAt) fun _ _ => .spend _

theorem settles_hotMove {d s : ℕ} : Settles (hotMove l d s) u :=
  .bind (fun _ => passes_readRegAt) fun _ _ => .bind (fun _ => passes_onHeap _) fun _ _ =>
    .bind (fun _ => passes_writeRegAt) fun _ _ => .spend _

theorem commutes_executeHotOperator {base : ℕ} :
    Commutes (setPc pc) (vm.executeHotOperator base i) := by
  cases i with
  | binaryImmediate d lh op r =>
    exact passes_readRegAt.commutes.bind fun _ => (Commutes.attempt _).bind fun _ =>
      passes_writePrimRegAt.commutes
  | typedBinary kind op d lh r | binary op d lh r =>
    exact passes_readRegAt.commutes.bind fun _ => passes_readRegAt.commutes.bind fun _ =>
      (Commutes.attempt _).bind fun _ => passes_writePrimRegAt.commutes
  | _ => exact .stop

theorem readRegAt_bind_apply {α : Type} {base reg : ℕ} (k : VmValue → ThreadExec α) :
    (readRegAt base reg >>= k) u = (u.registers[base + reg]?).bind fun v => k v u := by
  rw [bind_apply, readRegAt]
  cases u.registers[base + reg]? <;> rfl

theorem storeValue_error {base d : ℕ} {o : Outcome} {e : VmError}
    (h : (do let v ← Exec.attempt o; writePrimRegAt base d v : ThreadExec Unit) u =
      some (.error e, u')) : o = some (.error e) := by
  rcases o with _ | (e' | v)
  · cases h
  · cases h
    rfl
  · exact absurd h ((Passes.silent (g := setPc 0) passes_writePrimRegAt) u e u')

theorem executeHotOperator_error {base : ℕ} {e : VmError}
    (h : vm.executeHotOperator base i u = some (.error e, u')) :
    i.failsUnsaved base u.registers = true ∨ ∃ op d lh rh lv rv, i = .binary op d lh rh ∧
      u.registers[base + lh]? = some lv ∧ u.registers[base + rh]? = some rv ∧
      vm.hotBinaryValue op lv rv = some (.error e) := by
  cases i with
  | binaryImmediate d lh op rh =>
    rw [executeHotOperator, readRegAt_bind_apply, Option.bind_eq_some_iff] at h
    obtain ⟨v, hv, h⟩ := h
    refine .inl ?_
    simp [Instruction.failsUnsaved, hv, immediateBinaryValue_error (storeValue_error h)]
  | typedBinary k op d lh rh =>
    rw [executeHotOperator, readRegAt_bind_apply, Option.bind_eq_some_iff] at h
    obtain ⟨l, hl, h⟩ := h
    rw [readRegAt_bind_apply, Option.bind_eq_some_iff] at h
    obtain ⟨r, hr, h⟩ := h
    obtain ⟨hop, hzr⟩ := typedBinaryValue_error (storeValue_error h)
    refine .inl ?_
    rw [Instruction.failsUnsaved, hop, hr, Option.any_some, hzr]
    rfl
  | binary op d lh rh =>
    rw [executeHotOperator, readRegAt_bind_apply, Option.bind_eq_some_iff] at h
    obtain ⟨l, hl, h⟩ := h
    rw [readRegAt_bind_apply, Option.bind_eq_some_iff] at h
    obtain ⟨r, hr, h⟩ := h
    exact .inr ⟨op, d, lh, rh, l, r, rfl, hl, hr, storeValue_error h⟩
  | _ => cases h

theorem settles_advance {x : ThreadExec Unit} (hx : ∀ pc, Commutes (setPc pc) x)
    (hu : ∀ e u', x u ≠ some (.error e, u')) :
    Settles (x >>= fun _ => pure (.advance l)) u := by
  intro pc
  rw [bind_apply, bind_apply, hx pc u]
  rcases h : x u with _ | ⟨e | a, u'⟩
  · rfl
  · exact absurd h (hu e u')
  · simp [settle]

/-- An operator whose failures write the program counter back. -/
theorem settles_hotOperator (hop : ∀ op d lh r, i = .binary op d lh r → op.isHot)
    (hi : i.failsUnsaved l.registerBase u.registers = false) :
    Settles (vm.hotOperator l i) u := by
  by_cases hbn : ∃ op d lh r, i = .binary op d lh r
  · obtain ⟨op, d, lh, r, rfl⟩ := hbn
    intro pc
    simp only [hotOperator, readRegAt_bind_apply]
    change Option.map settle (u.registers[_]?.bind fun v => u.registers[_]?.bind _) = _
    cases hl : u.registers[l.registerBase + lh]? with
    | none => rfl
    | some lv =>
      cases hr : u.registers[l.registerBase + r]? with
      | none => rfl
      | some rv =>
        simp only [Option.bind_some]
        split
        · rw [absorbs_syncFrame.bind]
        · next hsy =>
          refine settles_advance (fun _ => commutes_executeHotOperator) ?_ pc
          intro e u' h
          rcases executeHotOperator_error h with h | ⟨_, _, _, _, _, _, ⟨⟩, hl', hr', h⟩
          · cases h
          · rw [hl] at hl'
            rw [hr] at hr'
            cases hl'
            cases hr'
            obtain ⟨v, hv⟩ := hotBinaryValue_of_not_syncs vm (hop op d lh r rfl)
              (Bool.eq_false_of_not_eq_true hsy)
            rw [hv] at h
            cases h
  · have hpl : vm.hotOperator l i =
        (vm.executeHotOperator l.registerBase i >>= fun _ => pure (.advance l)) := by
      unfold hotOperator
      split
      · exact absurd ⟨_, _, _, _, rfl⟩ hbn
      · rfl
    rw [hpl]
    refine settles_advance (fun _ => commutes_executeHotOperator) ?_
    intro e u' h
    rcases executeHotOperator_error h with h | ⟨_, _, _, _, _, _, rfl, -⟩
    · rw [hi] at h
      cases h
    · exact hbn ⟨_, _, _, _, rfl⟩

/-- A round does not depend on the saved program counter, unless it fails without writing
the program counter back. -/
theorem settles_hotInstruction (hi : i.failsUnsaved l.registerBase u.registers = false) :
    Settles (vm.hotInstruction os l i) u := by
  cases i with
  | binaryImmediate | typedBinary => exact settles_hotOperator (by simp) hi
  | binary op d lh r =>
    rw [hotInstruction]
    split
    · next hop =>
      refine settles_hotOperator ?_ hi
      rintro _ _ _ _ ⟨⟩
      exact hop
    · exact .of_absorbs fun _ => absorbs_delegate
  | loadNull d => exact .bind (fun _ => passes_writePrimRegAt) fun _ _ => .advance _
  | jump o => exact .spend _
  | jumpTrue | jumpFalse => exact settles_hotJumpIf
  | jumpNull => exact settles_hotJumpNull
  | move => exact settles_hotMove
  | call => exact .of_absorbs fun _ => absorbs_hotCall
  | tailCall => exact .of_absorbs fun _ => absorbs_hotTailCall
  | ret => exact .of_absorbs fun _ => absorbs_hotRet
  | retNull => exact .of_absorbs fun _ => absorbs_hotRetNull
  | _ => exact .of_absorbs fun _ => absorbs_delegate

end VirtualMachine

end Galfus
