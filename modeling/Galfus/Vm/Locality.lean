import Galfus.Vm.Relocation

/-! # Locality of instructions

The general handlers of instructions that stay in their frame: they have the same result in
a thread and in a relocated one, and leave the threads related.
-/

namespace Galfus

open Exec

variable {vm : VirtualMachine} {m : Relocation} {n : ℕ} {f : CallFrame} {rest : List CallFrame}
  {s t : ThreadState} {X : VmError → Prop} {os : HashOrders}

namespace PrivateHeap

variable {h : PrivateHeap} {id d : ℕ}

theorem foldlM_plain {vs : List VmValue} (hvs : ∀ v ∈ vs, v.isPlain = true)
    (a : Bool × Finset VmObjectRef) :
    vs.foldlM (h.valueContainsFuture id (d + 1)) a = some a := by
  induction vs with
  | nil => rfl
  | cons v vs ih =>
    have hv := hvs v (by simp)
    have hs : h.valueContainsFuture id (d + 1) a v = some a := by
      obtain ⟨_ | _, vt⟩ := a
      · cases v <;> first | rfl | exact absurd hv Bool.false_ne_true
      · rfl
    rw [List.foldlM_cons, hs]
    exact ih fun w hw => hvs w (by simp [hw])

end PrivateHeap

theorem Relocated.containsFutureHandle (h : Relocated vm m n f rest s t) (depth id : ℕ) :
    s.containsFutureHandle (depth + 1) id = t.containsFutureHandle (depth + 1) id := by
  obtain ⟨xs, g, ys, hs, ht, hgp⟩ := h.liveRegisters
  have hg : s.globals = t.globals := by rw [ThreadState.globals, h.moduleStates]; rfl
  unfold ThreadState.containsFutureHandle
  rw [hs, ht, hg, h.heap]
  simp only [List.foldlM_append, bind_assoc]
  congr 2
  funext acc
  rw [PrivateHeap.foldlM_plain hgp]
  rfl

/-- The computation does the same in relocated threads, apart from the errors `X`. -/
abbrev VirtualMachine.Local (vm : VirtualMachine) (X : VmError → Prop) (m : Relocation) (n : ℕ)
    (f : CallFrame) (rest : List CallFrame) {α : Type} (x : ThreadExec α) : Prop :=
  Keeps X (Relocated vm m n f rest) x

namespace ThreadState

theorem keeps_readReg {r : ℕ} (hr : r < n) : vm.Local X m n f rest (readReg r) := by
  intro s t h
  unfold readReg
  rw [h.getElem? hr]
  cases t.registers[t.currentRegisterBase + r]? with
  | none => exact .stop
  | some v => exact .ok ⟨rfl, h⟩

theorem keeps_writeReg {r : ℕ} (hr : r < n) (v : VmValue) :
    vm.Local X m n f rest (writeReg r v) := by
  intro s t h
  dsimp only [writeReg]
  rw [h.getElem? hr]
  cases t.registers[t.currentRegisterBase + r]? with
  | none => exact .stop
  | some o =>
    refine .ok ⟨rfl, ?_⟩
    simp only [h.flag, h.heap]
    exact h.store hr v _ _

theorem keeps_onHeap (g : PrivateHeap → PrivateHeap) : vm.Local X m n f rest (onHeap g) := by
  apply Keeps.modify
  intro s t h
  simp only [h.heap]
  exact h.withHeap _

theorem keeps_allocObject (o : CollectOrder) (obj : HeapObject) :
    vm.Local X m n f rest (allocObject o obj) := by
  apply Keeps.zoom
  · intro s t h
    exact h.heap
  · intro s t u h
    exact h.withHeap u

theorem currentModule_apply {fr : CallFrame} {fs : List CallFrame}
    (h : s.callStack = fr :: fs) : currentModule s = some (.ok fr.moduleId, s) := by
  simp [currentModule, bind_apply, h]

theorem keeps_currentModule : vm.Local X m n f rest currentModule := by
  intro s t h
  rw [currentModule_apply h.stack, currentModule_apply h.stack']
  exact .ok ⟨rfl, h⟩

theorem keeps_futureHandlesInValue (depth : ℕ) (v : VmValue) :
    vm.Local X m n f rest (futureHandlesInValue depth v) := by
  apply Keeps.get_bind
  · intro s t h
    rw [h.heap]
  · intro s
    exact (Keeps.unwrap _).map _

theorem keeps_gather {retain : PrivateHeap → VmValue → PrivateHeap} {rg : List ℕ}
    (hrg : ∀ r ∈ rg, r < n) : vm.Local X m n f rest (gather retain rg) := by
  induction rg with
  | nil => exact .pure _
  | cons r rg ih =>
    exact (keeps_readReg (hrg r (by simp))).bind fun _ => (keeps_onHeap _).bind fun _ =>
      (ih fun r hr => hrg r (by simp [hr])).map _

end ThreadState

namespace VirtualMachine

open ThreadState

theorem keeps_currentImage : vm.Local X m n f rest vm.currentImage :=
  keeps_currentModule.bind fun _ => .lift _

theorem keeps_allocToReg {dest : ℕ} (hdest : dest < n) (obj : HeapObject) :
    vm.Local X m n f rest (allocToReg os dest obj) :=
  (keeps_allocObject _ _).bind fun _ => (keeps_writeReg hdest _).map _

theorem keeps_deref (v : VmValue) : vm.Local X m n f rest (deref v) := by
  cases v with
  | object r =>
    apply Keeps.get_bind
    · intro s t h
      rw [h.heap]
    · intro s
      exact (Keeps.lift _).map _
  | _ => exact .throw _

theorem keeps_replaceSlot (r : VmObjectRef) (obj : HeapObject) (i : ℕ) (v o : VmValue) :
    vm.Local X m n f rest (replaceSlot r obj i v o) := by
  apply Keeps.get_bind
  · intro s t h
    rw [h.heap]
  · intro s
    exact (Keeps.lift _).bind fun _ => (keeps_onHeap _).map _

theorem keeps_executeCast (v : VmValue) (typeIdx : ℕ) :
    vm.Local X m n f rest (vm.executeCast v typeIdx) := by
  refine keeps_currentModule.bind fun moduleId => (Keeps.lift _).bind fun i =>
    (Keeps.lift _).bind fun ty => ?_
  apply Keeps.get_bind
  · intro s t h
    rw [h.heap]
  · intro s
    refine (Keeps.unwrap _).bind fun ii => ?_
    split
    · exact .pure _
    · split
      · exact .pure _
      · exact .throw _

theorem keeps_zeroValueForType (typeIdx : ℕ) :
    vm.Local X m n f rest (vm.zeroValueForType typeIdx) :=
  keeps_currentImage.bind fun _ => (Keeps.lift _).bind fun _ => .lift _

section Objects

variable {dest src o fl v typeIdx : ℕ}

variable (hd : dest < n)
include hd

theorem keeps_executeAllocLocal : vm.Local X m n f rest (vm.executeAllocLocal os dest typeIdx) := by
  refine keeps_currentImage.bind fun i => (Keeps.lift _).bind fun ty => ?_
  split
  · split
    · exact .throw _
    · exact keeps_currentModule.bind fun _ => keeps_allocToReg hd _
  · exact .throw _

theorem keeps_executeLoadField (ho : o < n) : vm.Local X m n f rest (executeLoadField dest o fl) :=
  (keeps_readReg ho).bind fun _ => (keeps_deref _).bind fun _ => (Keeps.lift _).bind fun _ =>
    (keeps_writeReg hd _).map _

omit hd in
theorem keeps_executeStoreField (ho : o < n) (hv : v < n) :
    vm.Local X m n f rest (executeStoreField o fl v) := by
  refine (keeps_readReg ho).bind fun _ => (keeps_readReg hv).bind fun _ =>
    (keeps_onHeap _).bind fun _ => (keeps_deref _).bind fun p => ?_
  dsimp only
  split
  · split
    · exact keeps_replaceSlot _ _ _ _ _
    · exact .stop
  · exact .throw _

theorem keeps_executeNewArray {lr : ℕ} (hl : lr < n) :
    vm.Local X m n f rest (vm.executeNewArray os dest typeIdx lr) := by
  refine keeps_currentImage.bind fun i => (Keeps.lift _).bind fun ty => ?_
  split
  · exact (keeps_readReg hl).bind fun _ => (Keeps.lift _).bind fun _ =>
      (keeps_zeroValueForType _).bind fun _ => keeps_currentModule.bind fun _ =>
        keeps_allocToReg hd _
  · exact .throw _

theorem keeps_executeLoadIndex {a i : ℕ} (ha : a < n) (hi : i < n) :
    vm.Local X m n f rest (executeLoadIndex dest a i) :=
  (keeps_readReg ha).bind fun _ => (keeps_readReg hi).bind fun _ => (Keeps.lift _).bind fun _ =>
    (keeps_deref _).bind fun _ => (Keeps.lift _).bind fun _ => (keeps_writeReg hd _).map _

omit hd in
theorem keeps_executeStoreIndex {a i : ℕ} (ha : a < n) (hi : i < n) (hv : v < n) :
    vm.Local X m n f rest (vm.executeStoreIndex a i v) := by
  refine (keeps_readReg ha).bind fun _ => (keeps_readReg hi).bind fun _ =>
    (Keeps.lift _).bind fun _ => (keeps_readReg hv).bind fun _ => (keeps_onHeap _).bind fun _ =>
      (keeps_deref _).bind fun p => (Keeps.lift _).bind fun _ => ?_
  split
  · exact .throw _
  · split
    · exact (keeps_executeCast _ _).bind fun _ => (Keeps.unwrap _).bind fun _ =>
        keeps_replaceSlot _ _ _ _ _
    · exact (Keeps.pure _).bind fun _ => (Keeps.unwrap _).bind fun _ => keeps_replaceSlot _ _ _ _ _

theorem keeps_executeNewTuple {st c : ℕ} (hr : ∀ r ∈ regRange st c, r < n) :
    vm.Local X m n f rest (vm.executeNewTuple os dest typeIdx st c) := by
  refine keeps_currentImage.bind fun i => (Keeps.lift _).bind fun ty => ?_
  split
  · split
    · exact (keeps_gather hr).bind fun _ => keeps_allocToReg hd _
    · exact .throw _
  · exact .throw _

theorem keeps_executeNewChoice {vi p : ℕ} (hp : p < n) :
    vm.Local X m n f rest (vm.executeNewChoice os dest typeIdx vi p) := by
  refine keeps_currentImage.bind fun i => (Keeps.lift _).bind fun ty => ?_
  split
  · exact (keeps_readReg hp).bind fun _ => (keeps_onHeap _).bind fun _ =>
      keeps_currentModule.bind fun _ => keeps_allocToReg hd _
  · exact .throw _

theorem keeps_executeCastTo (hs : src < n) :
    vm.Local X m n f rest (vm.executeCastTo dest src typeIdx) :=
  (keeps_readReg hs).bind fun _ => (keeps_executeCast _ _).bind fun _ =>
    (keeps_writeReg hd _).map _

theorem keeps_executeCopy (hs : src < n) : vm.Local X m n f rest (vm.executeCopy os dest src) :=
  (keeps_readReg hs).bind fun _ =>
    (Keeps.zoom (fun _ _ h => h.heap) fun _ _ u h => h.withHeap u).bind fun _ =>
      (keeps_writeReg hd _).map _

theorem keeps_executeInstanceof (hsr : src < n) :
    vm.Local X m n f rest (vm.executeInstanceof dest src typeIdx) := by
  refine (keeps_readReg hsr).bind fun v => ?_
  apply Keeps.get_bind
  · intro s t h
    simp [h.stack, h.stack', h.heap, Relocation.frames, Relocation.place]
  · intro s
    have hs : ∀ b, vm.Local X m n f rest (do writeReg dest (.bool b); pure VmStep.continue) :=
      fun b => (keeps_writeReg hd _).map _
    split
    · exact hs false
    · split
      · exact hs false
      · exact (Keeps.unwrap _).bind hs

end Objects

section Data

variable {dest src mi gi : ℕ}

theorem keeps_executeMove (hdest : dest < n) (hs : src < n) :
    vm.Local X m n f rest (executeMove dest src) :=
  (keeps_readReg hs).bind fun _ => (keeps_onHeap _).bind fun _ =>
    (keeps_writeReg hdest _).map _

theorem keeps_checkGlobal : vm.Local X m n f rest (vm.checkGlobal mi gi) := by
  refine (Keeps.lift _).bind fun i => ?_
  split
  · exact .stop
  · exact .pure _

theorem keeps_executeLoadGlobal (hdest : dest < n) :
    vm.Local X m n f rest (vm.executeLoadGlobal dest mi gi) := by
  refine keeps_checkGlobal.bind fun _ => ?_
  apply Keeps.get_bind
  · intro s t h
    rw [getGlobals, getGlobals, h.moduleStates]
  · intro s
    exact (keeps_onHeap _).bind fun _ => (keeps_writeReg hdest _).map _

theorem keeps_executeStoreGlobal (hs : src < n) :
    vm.Local X m n f rest (vm.executeStoreGlobal mi gi src) := by
  refine keeps_checkGlobal.bind fun _ => (keeps_readReg hs).bind fun v =>
    (keeps_onHeap _).bind fun _ => ?_
  apply Keeps.get_bind
  · intro s t h
    rw [getGlobals, getGlobals, h.moduleStates]
  · intro s
    refine Keeps.bind ?_ fun _ => .pure _
    apply Keeps.modify
    intro s t h
    simp only [h.moduleStates, h.heap]
    exact { h with heap := rfl, moduleStates := rfl }

theorem keeps_executeFallback {fl : ℕ} (hdest : dest < n) (hs : src < n)
    (hf : fl < n) : vm.Local X m n f rest (executeFallback dest src fl) :=
  (keeps_readReg hs).bind fun _ => (keeps_readReg hf).bind fun _ =>
    (keeps_writeReg hdest _).map _

theorem keeps_executeDrop {r : ℕ} (hr : r < n) : vm.Local X m n f rest (vm.executeDrop r) := by
  refine (keeps_readReg hr).bind fun v => ?_
  cases hd : vm.stackDepth with
  | zero => exact fun s t _ => .stop
  | succ depth =>
    refine (keeps_futureHandlesInValue _ _).bind fun i => (keeps_writeReg hr _).bind fun _ => ?_
    apply Keeps.get_bind
    · intro s t h
      simp only [h.containsFutureHandle]
    · intro s
      refine (Keeps.unwrap _).bind fun d => ?_
      split
      · exact .pure _
      · exact .pure _

end Data

section Operators

variable {dest l r : ℕ}

theorem keeps_attempt_write (hdest : dest < n) (o : Outcome) : vm.Local X m n f rest
      (do let v ← Exec.attempt o; writeReg dest v; pure VmStep.continue) :=
  (Keeps.attempt _).bind fun _ => (keeps_writeReg hdest _).map _

theorem keeps_executeBinary (op : BinaryOp) (hdest : dest < n) (hl : l < n) (hr : r < n) :
    vm.Local X m n f rest (vm.executeOperatorInstruction (.binary op dest l r)) :=
  (keeps_readReg hl).bind fun _ => (keeps_readReg hr).bind fun _ => keeps_attempt_write hdest _

theorem keeps_executeBinaryImmediate (op : ImmediateBinaryOp) (i : ImmediateValue)
    (hdest : dest < n) (hl : l < n) : vm.Local X m n f rest
      (vm.executeOperatorInstruction (.binaryImmediate dest l op i)) :=
  (keeps_readReg hl).bind fun _ => keeps_attempt_write hdest _

theorem keeps_executeUnary (op : UnaryOp) (hdest : dest < n) (hs : l < n) :
    vm.Local X m n f rest (vm.executeOperatorInstruction (.unary op dest l)) :=
  (keeps_readReg hs).bind fun _ => keeps_attempt_write hdest _

end Operators

section System

variable {dest src argsStart ac rt : ℕ} {argTypes : List ℕ}

theorem keeps_byteArray (bs : List (BitVec 8)) : vm.Local X m n f rest (vm.byteArray os bs) := by
  refine Keeps.bind (keeps_currentModule.bind fun moduleId => ?_) fun _ =>
    keeps_currentModule.bind fun _ => (keeps_allocObject _ _).map _
  split
  · exact .pure _
  · exact .throw _

theorem keeps_constantValue (c : Constant) : vm.Local X m n f rest (vm.constantValue os c) := by
  cases c with
  | string s | bytes b => exact keeps_byteArray _
  | function i => exact keeps_currentModule.map _
  | _ => exact .pure _

theorem keeps_executeLoadConst {ci : ℕ} (hdest : dest < n) :
    vm.Local X m n f rest (vm.executeLoadConst os dest ci) := by
  refine keeps_currentImage.bind fun i => ?_
  split
  · exact .throw _
  · exact (keeps_constantValue _).bind fun _ => (keeps_writeReg hdest _).map _

theorem keeps_executeAwaitFuture {fr : ℕ} (hr : fr < n) :
    vm.Local X m n f rest (executeAwaitFuture dest fr rt) :=
  (keeps_readReg hr).bind fun _ => (Keeps.lift _).bind fun _ => keeps_currentModule.map _

theorem keeps_readFutures {rg : List ℕ} (hrg : ∀ r ∈ rg, r < n) :
    vm.Local X m n f rest (readFutures rg) := by
  induction rg with
  | nil => exact .pure _
  | cons r rg ih =>
    exact (keeps_readReg (hrg r (by simp))).bind fun _ => (Keeps.lift _).bind fun _ =>
      (ih fun r hr => hrg r (by simp [hr])).map _

theorem keeps_executeAwaitMany {e : List ℕ → ℕ → ℕ → VmEffect} {st c : ℕ}
    (hr : ∀ r ∈ regRange st c, r < n) :
    vm.Local X m n f rest (executeAwaitMany e dest st c rt) :=
  (keeps_readFutures hr).bind fun _ => keeps_currentModule.map _

theorem keeps_executeLen (hdest : dest < n) (hs : src < n) :
    vm.Local X m n f rest (executeLen dest src) :=
  (keeps_readReg hs).bind fun _ => (keeps_deref _).bind fun _ => (Keeps.lift _).bind fun _ =>
    (keeps_writeReg hdest _).map _

theorem keeps_executeCopyArray {ds : ℕ} (hdest : dest < n) (hs : ds < n)
    (hsr : src < n) : vm.Local X m n f rest (executeCopyArray dest ds src) := by
  refine (keeps_readReg hdest).bind fun _ => (keeps_readReg hs).bind fun _ =>
    (keeps_readReg hsr).bind fun _ => (Keeps.lift _).bind fun _ => ?_
  split
  · apply Keeps.get_bind
    · intro s t h
      rw [h.heap]
    · intro s
      refine (Keeps.lift _).bind fun _ => (Keeps.lift _).bind fun _ =>
        (Keeps.lift _).bind fun _ => ?_
      split
      · split
        · exact .stop
        · exact (Keeps.lift _).bind fun _ => (keeps_onHeap _).map _
      · exact .throw _
  · exact .throw _

theorem keeps_mathArgument {i : ℕ} (hr : ∀ r ∈ regRange argsStart ac, r < n) :
    vm.Local X m n f rest (vm.mathArgument argsStart ac i) := by
  unfold mathArgument
  split
  · exact .throw _
  · have hm : (argsStart + i) % 2 ^ 16 ∈ regRange argsStart ac :=
      List.mem_map.mpr ⟨i, List.mem_range.mpr (by omega), rfl⟩
    exact (keeps_readReg (hr _ hm)).bind fun _ => .lift _

theorem keeps_executeCallInternalMath {o : ℕ} (hdest : dest < n)
    (hr : ∀ r ∈ regRange argsStart ac, r < n) :
    vm.Local X m n f rest (vm.executeCallInternalMath dest o argsStart ac) := by
  have hs : ∀ v, vm.Local X m n f rest (do writeReg dest v; pure VmStep.continue) :=
    fun _ => (keeps_writeReg hdest _).map _
  unfold executeCallInternalMath
  split
  · exact (Keeps.throw _).bind hs
  · refine (keeps_mathArgument hr).bind fun x => ?_
    split
    all_goals first
      | exact hs _
      | exact (keeps_mathArgument hr).bind fun _ => hs _

theorem keeps_resolveFunction (moduleId fi : ℕ) :
    vm.Local X m n f rest (vm.resolveFunction moduleId fi) := by
  refine (Keeps.lift _).bind fun i => ?_
  split
  · exact .pure _
  · split
    · exact .throw _
    · exact .pure _
    · exact .stop

theorem keeps_executeCreateFuture {fn : ℕ} (hr : ∀ r ∈ regRange argsStart ac, r < n) :
    vm.Local X m n f rest (vm.executeCreateFuture dest fn argsStart ac argTypes rt) :=
  (keeps_gather hr).bind fun _ => keeps_currentModule.bind fun _ =>
    (keeps_resolveFunction _ _).map _

theorem keeps_executeHostOperation {e : ℕ → List VmValue → VmEffect}
    (hr : ∀ r ∈ regRange argsStart ac, r < n) : vm.Local X m n f rest
      (executeHostOperation e dest argsStart ac rt) :=
  (keeps_gather hr).bind fun _ => keeps_currentModule.map _

theorem keeps_executeCreateIndirectFuture {fr : ℕ} (hf : fr < n)
    (hr : ∀ r ∈ regRange argsStart ac, r < n) : vm.Local X m n f rest
      (executeCreateIndirectFuture dest fr argsStart ac argTypes rt) :=
  (keeps_readReg hf).bind fun _ => (keeps_gather hr).bind fun _ =>
    keeps_currentModule.map _

end System

end VirtualMachine

end Galfus
