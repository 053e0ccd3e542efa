import Galfus.Heap.Steady
import Galfus.Vm.Holders
import Galfus.Vm.TailEntry

/-! # Tail calls as calls and returns

A tail call from a bare frame and a call with a return of the result: the callee does the
same in both threads, and when it has returned they differ only in registers above their
frames.
-/

namespace Galfus

open Exec

variable {vm : VirtualMachine} {n k dest : ℕ} {f g g' : CallFrame} {rest : List CallFrame}
  {s t : ThreadState} {v : VmValue} {heap : PrivateHeap}

/-- Threads that are the same up to the registers above their frames. -/
structure Trimmed (s t : ThreadState) : Prop where
  eq : s = { t with registers := s.registers }
  registers : ∀ i < t.currentRegisterTop, s.registers[i]? = t.registers[i]?

/-- A value that is alive is anchored, and can be anchored once more. -/
def PrivateHeap.Holds (heap : PrivateHeap) (v : VmValue) : Prop :=
  ∀ r slot, v = .object r → heap.resolve r = some slot → 0 < slot.anchors ∧ slot.anchors < u32Max

/-- The last change to the anchors of a value was not a release. -/
def PrivateHeap.SteadyVal (heap : PrivateHeap) (v : VmValue) : Prop :=
  ∀ r, v = .object r → PrivateHeap.Steady r heap

namespace PrivateHeap

theorem steadyVal_retainAnchorVal (heap : PrivateHeap) (v : VmValue) :
    (heap.retainAnchorVal v).SteadyVal v := by
  rintro r rfl
  exact steady_retainAnchor r heap

theorem SteadyVal.releaseAnchorVal (h : heap.SteadyVal v) (w : VmValue) :
    (heap.releaseAnchorVal w).SteadyVal v := by
  intro r hr
  cases w with
  | object c => exact (h r hr).releaseAnchor c
  | _ => exact h r hr

theorem SteadyVal.foldl (h : heap.SteadyVal v) (ws : List VmValue) :
    (ws.foldl PrivateHeap.releaseAnchorVal heap).SteadyVal v := by
  induction ws generalizing heap with
  | nil => exact h
  | cons w ws ih => exact ih (h.releaseAnchorVal w)

theorem releaseAnchorVal_retainAnchorVal (h : heap.SteadyVal v) (hh : heap.Holds v) :
    (heap.retainAnchorVal v).releaseAnchorVal v = heap := by
  cases v with
  | object r => exact releaseAnchor_retainAnchor (h r rfl) fun sl hs => hh r sl rfl hs
  | _ => rfl

theorem releaseAnchorVal_plain (hv : v.isPlain = true) : heap.releaseAnchorVal v = heap :=
  ThreadState.releaseAnchorVal_of_isObject (VmValue.isObject_of_isPlain hv)

theorem foldl_releaseAnchorVal {vs : List VmValue} (h : ∀ v ∈ vs, v.isPlain = true) :
    vs.foldl PrivateHeap.releaseAnchorVal heap = heap := by
  induction vs with
  | nil => rfl
  | cons v vs ih =>
    rw [List.foldl_cons, releaseAnchorVal_plain (h v List.mem_cons_self)]
    exact ih fun w hw => h w (List.mem_cons_of_mem _ hw)

theorem foldl_releaseAnchorVal_single {vs : List VmValue} {i : ℕ} (hi : vs[i]? = some v)
    (h : ∀ j w, vs[j]? = some w → j ≠ i → w.isPlain = true) :
    vs.foldl PrivateHeap.releaseAnchorVal heap = heap.releaseAnchorVal v := by
  obtain ⟨hlt, rfl⟩ := List.getElem?_eq_some_iff.mp hi
  conv_lhs => rw [← List.take_append_drop i vs, List.drop_eq_getElem_cons hlt]
  rw [List.foldl_append, List.foldl_cons, foldl_releaseAnchorVal, foldl_releaseAnchorVal]
  · intro w hw
    obtain ⟨j, hj⟩ := List.mem_iff_getElem?.mp hw
    rw [List.getElem?_take] at hj
    split at hj
    · exact h j w hj (by omega)
    · cases hj
  · intro w hw
    obtain ⟨j, hj⟩ := List.mem_iff_getElem?.mp hw
    rw [List.getElem?_drop] at hj
    exact h _ w hj (by omega)

end PrivateHeap

namespace ThreadState

def releasedFrom (base : ℕ) (t : ThreadState) : ThreadState :=
  if t.currentFrameHasObjects then { t with
    registers := overwrite base (List.replicate (t.currentRegisterTop - base) .null) t.registers
    heap := (t.regValues base (t.currentRegisterTop - base)).foldl PrivateHeap.releaseAnchorVal
      t.heap }
  else t

theorem releaseFrame_of_le {b : ℕ} (hb : b ≤ t.currentRegisterTop)
    (ht : t.currentRegisterTop ≤ t.registers.length) :
    releaseFrame b t = some (.ok (), t.releasedFrom b) := by
  simp only [releaseFrame, Exec.get_bind, releasedFrom]
  split
  · exact forM_releaseReg _ _ (by omega)
  · rfl

theorem popFrame_of_le (hs : t.callStack = f :: rest) (hb : f.registerBase ≤ t.currentRegisterTop)
    (ht : t.currentRegisterTop ≤ t.registers.length) :
    popFrame t = some (.ok (some f), leaveFrame f rest
      (({ t with callStack := rest } : ThreadState).releasedFrom f.registerBase)) := by
  rw [popFrame_apply hs, bind_apply, releaseFrame_of_le (t := { t with callStack := rest }) hb ht]
  rfl

theorem releasedFrom_eq (b : ℕ) (t : ThreadState) : t.releasedFrom b = { t with
    registers := (t.releasedFrom b).registers
    heap := (t.releasedFrom b).heap } := by
  unfold releasedFrom
  split <;> rfl

theorem getElem?_releasedFrom {b i : ℕ} (hi : i < b) :
    (t.releasedFrom b).registers[i]? = t.registers[i]? := by
  unfold releasedFrom
  split
  · exact getElem?_overwrite_of_lt hi
  · rfl

theorem steadyVal_releasedFrom {b : ℕ} (h : t.heap.SteadyVal v) :
    (t.releasedFrom b).heap.SteadyVal v := by
  unfold releasedFrom
  split
  · exact h.foldl _
  · exact h

/-- A frame that holds nothing but a value which was anchored once more is given up. -/
theorem releasedFrom_heap {b : ℕ} (htp : t.currentRegisterTop = b + n)
    (hln : b + n ≤ t.registers.length) (hds : dest < n) (hv : t.registers[b + dest]? = some v)
    (hpl : ∀ i < n, i ≠ dest → ∀ w ∈ t.registers[b + i]?, w.isPlain = true)
    (hfl : t.currentFrameHasObjects = false → v.isObject = false)
    (hhp : t.heap = heap.retainAnchorVal v) (hst : heap.SteadyVal v) (hhl : heap.Holds v) :
    (t.releasedFrom b).heap = heap := by
  unfold releasedFrom
  split
  · have hfo : (t.regValues b (t.currentRegisterTop - b)).foldl PrivateHeap.releaseAnchorVal
        t.heap = t.heap.releaseAnchorVal v := by
      rw [htp, Nat.add_sub_cancel_left]
      apply PrivateHeap.foldl_releaseAnchorVal_single (i := dest)
      · rw [getElem?_regValues _ hds, hv]
      · intro j w hj hne
        have hlt := (List.getElem?_eq_some_iff.mp hj).1
        rw [length_regValues _ _ hln] at hlt
        rw [getElem?_regValues _ hlt] at hj
        exact hpl j hlt hne w hj
    rw [hfo, hhp]
    exact PrivateHeap.releaseAnchorVal_retainAnchorVal hst hhl
  · next hf =>
    have := hfl (by simpa using hf)
    rw [hhp]
    cases v with
    | object r => cases this
    | _ => rfl

def withCode (code : List Instruction) (t : ThreadState) : ThreadState :=
  { t with callStack := t.callStack.modifyHead fun f => { f with cachedInstructions := code } }

end ThreadState

namespace VirtualMachine

open ThreadState

/-- The frame `g` with `n` registers is current and holds no objects and no futures but for `v` in
the register `dest`. -/
structure Carries (g : CallFrame) (n dest : ℕ) (v : VmValue) (s : ThreadState) : Prop where
  base : s.currentRegisterBase = g.registerBase
  top : s.currentRegisterTop = g.registerBase + n
  top_le : g.registerBase + n ≤ s.registers.length
  dest_lt : dest < n
  value : s.registers[g.registerBase + dest]? = some v
  plain : ∀ i < n, i ≠ dest → ∀ w ∈ s.registers[g.registerBase + i]?, w.isPlain = true
  flag : s.currentFrameHasObjects = false → v.isObject = false

/-- A frame that holds nothing else returns a value that its callee left in a register. -/
theorem executeRet_of_carries (vm : VirtualMachine) (hst : s.callStack = g :: rest)
    (h : Carries g n dest v s) (hs : s.heap.SteadyVal v) (hh : s.heap.Holds v) :
    ∃ rs, (∀ i < g.registerBase, rs[i]? = s.registers[i]?) ∧
      vm.executeRet dest s = vm.returnTo g v (leaveFrame g rest { s with
        callStack := rest
        registers := rs }) := by
  have ht := h.top
  have hl := h.top_le
  set s₁ : ThreadState := { s with callStack := rest, heap := s.heap.retainAnchorVal v } with hs₁
  refine ⟨(s₁.releasedFrom g.registerBase).registers, fun i hi => getElem?_releasedFrom hi, ?_⟩
  have hhp : (s₁.releasedFrom g.registerBase).heap = s.heap :=
    releasedFrom_heap ht hl h.dest_lt h.value h.plain h.flag rfl hs hh
  have hpp := popFrame_of_le (t := { s with heap := s.heap.retainAnchorVal v }) hst
    (by dsimp only; omega) (by dsimp only; omega)
  have hrd : readReg dest s = some (.ok v, s) := by
    rw [readReg, h.base, h.value]
    rfl
  simp only [executeRet, bind_apply, hrd, Option.bind_some, onHeap, Exec.modify_apply,
    executeReturn, hpp]
  rw [releasedFrom_eq]
  rw [hhp]

def ReturnsAlike : VmStep → VmStep → Prop
  | .continue, .continue => True
  | .ret v _ _, .ret w _ _ => v = w
  | _, _ => False

theorem returnTo_trimmed (h : Trimmed s t) (hds : g.returnDest = f.returnDest)
    (hrm : ∀ d ∈ f.returnDest, t.currentRegisterBase + d < t.currentRegisterTop)
    (htp : t.currentRegisterTop ≤ t.registers.length)
    (hg : ∃ fn, vm.getFunction g.moduleId g.funcIdx = .ok fn)
    (hf : ∃ fn, vm.getFunction f.moduleId f.funcIdx = .ok fn) :
    ∃ a b s' t', vm.returnTo g v s = some (.ok a, s') ∧ vm.returnTo f v t = some (.ok b, t') ∧
      ReturnsAlike a b ∧ Trimmed s' t' ∧ s'.callStack = t.callStack ∧
        t'.callStack = t.callStack := by
  obtain ⟨fn, hfn⟩ := hf
  obtain ⟨gn, hgn⟩ := hg
  obtain ⟨rs, rfl⟩ : ∃ rs, s = { t with registers := rs } := ⟨_, h.eq⟩
  unfold returnTo
  rw [hds]
  cases hd : f.returnDest with
  | none =>
    simp only [bind_apply, hgn, hfn, Exec.lift_apply, Option.bind_some, Exec.pure_apply]
    exact ⟨_, _, _, _, rfl, rfl, rfl, h, rfl, rfl⟩
  | some d =>
    have hlt := hrm d hd
    have hgt := h.registers _ hlt
    have hold := List.getElem?_eq_getElem (hlt.trans_le htp)
    simp only [bind_apply, writeReg, hgt.trans hold, hold, Exec.pure_apply]
    refine ⟨_, _, _, _, rfl, rfl, trivial, ⟨rfl, fun i hi => ?_⟩, rfl, rfl⟩
    rcases eq_or_ne (t.currentRegisterBase + d) i with rfl | hne
    · rw [List.getElem?_set_self (List.getElem?_eq_some_iff.mp (hgt.trans hold)).1,
        List.getElem?_set_self (hlt.trans_le htp)]
    · rw [List.getElem?_set_ne hne, List.getElem?_set_ne hne]
      exact h.registers i hi

/-- The frame `g` has made a call for `f` and goes on with a return of the result. -/
structure Resumes (vm : VirtualMachine) (f g : CallFrame) (n dest : ℕ) (rest : List CallFrame) :
    Prop where
  base : g.registerBase = f.registerBase
  returnDest : g.returnDest = f.returnDest
  saved : g.hasObjects = false
  code : g.cachedInstructions[g.pc]? = some (.ret dest)
  dest_lt : dest < n
  function : ∃ fn, vm.getFunction g.moduleId g.funcIdx = .ok fn
  caller : ∀ d ∈ f.returnDest, (rest.head?.map CallFrame.registerBase).getD 0 + d < f.registerBase

section Lowest

variable (orders : PrivateHeap → HashOrders) {t₂ s₂ : ThreadState}

def received (g : CallFrame) (dest : ℕ) (v : VmValue) (s : ThreadState) : ThreadState :=
  { s with
    currentFrameHasObjects := s.currentFrameHasObjects || v.isObject
    registers := s.registers.set (g.registerBase + dest) v }

section Received

variable (hp : Popped (f.underCallee g n dest rest) g' [] s₂ t₂)
  (hr : Resumes vm f g n dest rest) (hl : g'.registerBase = f.registerBase)
include hp

theorem base_of_popped :
    t₂.currentRegisterBase = (rest.head?.map CallFrame.registerBase).getD 0 := by
  rw [hp.base', hp.stack']
  rfl

include hr hl

theorem carries_received : Carries g n dest v (received g dest v s₂) where
  base := by
    show s₂.currentRegisterBase = _
    rw [hp.base, hp.stack]
    rfl
  top := hp.top.trans (by rw [hl, hr.base]; rfl)
  top_le := by
    rw [received, List.length_set, hr.base, ← hl]
    exact hp.top_le
  dest_lt := hr.dest_lt
  value := List.getElem?_set_self (by
    have hrm := hp.top_le
    have hd := hr.dest_lt
    dsimp only [CallFrame.underCallee] at hrm
    rw [hr.base]
    omega)
  plain := by
    intro i hi hne w hw
    rw [received, List.getElem?_set_ne (by omega), hr.base] at hw
    exact hp.plain i hi w hw
  flag := fun hf => (Bool.or_eq_false_iff.mp hf).2

theorem returnTo_underCallee : vm.returnTo ((f.underCallee g n dest rest).place [] g') v s₂ =
      some (.ok .continue, received g dest v s₂) := by
  have hb : s₂.currentRegisterBase = g.registerBase :=
    (carries_received (v := v) hp hr hl).base
  have hrm := hp.top_le
  have hd := hr.dest_lt
  have hg := hr.base
  dsimp only [CallFrame.underCallee] at hrm
  obtain ⟨o, h⟩ : ∃ o, s₂.registers[g.registerBase + dest]? = some o :=
    ⟨_, List.getElem?_eq_getElem (by omega)⟩
  have hpl : o.isPlain = true := hp.plain dest hd o (by rwa [hg] at h)
  have hw : writeReg dest v s₂ = some (.ok (), received g dest v s₂) := by
    simp [writeReg, hb, h, PrivateHeap.releaseAnchorVal_plain hpl, received]
  show (do writeReg dest v; pure .continue : ThreadExec VmStep) s₂ = _
  rw [bind_apply, hw]
  rfl

/-- The frame `g` returns what it has received. -/
theorem executeNext_received (hfl : g'.hasObjects = false) (hsd : t₂.heap.SteadyVal v)
    (hhl : t₂.heap.Holds v) :
    ∃ s₄, Trimmed s₄ t₂ ∧ vm.executeNext orders (received g dest v s₂) =
      vm.returnTo { g with pc := g.pc + 1 } v s₄ := by
  have hst : (received g dest v s₂).callStack = g :: rest := hp.stack
  have hcr : Carries { g with pc := g.pc + 1 } n dest v ((received g dest v s₂).setPc (g.pc + 1)) :=
    { carries_received hp hr hl with }
  have hhp : ((received g dest v s₂).setPc (g.pc + 1)).heap = t₂.heap := hp.heap
  have hst' : ((received g dest v s₂).setPc (g.pc + 1)).callStack =
      { g with pc := g.pc + 1 } :: rest := by
    rw [setPc, hst]
    rfl
  obtain ⟨rs, hrg, hrt⟩ :=
    vm.executeRet_of_carries hst' hcr (hhp ▸ hsd) (hhp ▸ hhl)
  have hlv : leaveFrame { g with pc := g.pc + 1 } rest
      { (received g dest v s₂).setPc (g.pc + 1) with callStack := rest, registers := rs } =
      { t₂ with registers := rs } := by
    have hst₂ : t₂.callStack = rest := hp.stack'
    simp only [leaveFrame, received, setPc, base_of_popped hp, hst₂, hp.top', hp.flag', hp.heap,
      hp.moduleStates, hp.maxCallDepth, hl, hr.base, hr.saved, hfl]
  rw [hlv] at hrt
  refine ⟨{ t₂ with registers := rs }, ⟨rfl, fun i hi => ?_⟩, ?_⟩
  · rw [hp.top', hl] at hi
    have hbs := hr.base
    refine (hrg i (by dsimp only; omega)).trans ?_
    rw [setPc, received, List.getElem?_set_ne (by omega)]
    exact hp.registers.low i hi
  · rw [executeNext_apply hst, hr.code]
    exact hrt

end Received

/-- What the instruction at the end of the callee returns, and the thread without its frame. -/
def leaveWith : Instruction → ThreadExec VmValue
  | .ret src => do
    let v ← readReg src
    onHeap fun h => h.retainAnchorVal v
    let _ ← popFrame
    pure v
  | _ => do
    let _ ← popFrame
    pure .null

/-- A return from the current frame finds no saved flag for objects and an existing function, and a
returned object is still anchored without the frame. -/
def CleanReturn (vm : VirtualMachine) (t : ThreadState) : Prop :=
  ∀ g frames i, t.callStack = g :: frames → g.cachedInstructions[g.pc]? = some i →
    i = .retNull ∨ (∃ src, i = .ret src) →
    g.hasObjects = false ∧ (∃ fn, vm.getFunction g.moduleId g.funcIdx = .ok fn) ∧
      ∀ v t', leaveWith i (t.setPc (g.pc + 1)) = some (.ok v, t') → t'.heap.Holds v

theorem popFrame_underCallee (h : Relocated vm (f.underCallee g n dest rest) k g' [] s t)
    (v : VmValue) :
    ∃ t₂ s₂, popFrame t = some (.ok (some g'), t₂) ∧
      popFrame s = some (.ok (some ((f.underCallee g n dest rest).place [] g')), s₂) ∧
      Popped (f.underCallee g n dest rest) g' [] s₂ t₂ ∧
      (t.heap.SteadyVal v → t₂.heap.SteadyVal v) := by
  have htop_le := h.top_le'
  have hst : t.callStack = g' :: rest := h.stack'
  have hpp := popFrame_of_le hst (by rw [h.top']; omega) (by rw [h.top']; exact htop_le)
  have hm := sim_popFrame (X := fun _ => False) (E := fun _ _ => True) s t h
  rw [hpp] at hm
  obtain ⟨_, s₂, hp', rfl, -, hp⟩ := hm.exists_ok fun _ hx => hx
  exact ⟨_, s₂, hpp, hp', hp,
    fun hs => steadyVal_releasedFrom (t := { t with callStack := rest }) hs⟩

/-- The callee returns, and after it the frame `g` in the thread where it is still there. -/
def ReturnsTwice (vm : VirtualMachine) (orders : PrivateHeap → HashOrders) (g : CallFrame)
    (rest : List CallFrame) (x y : Option (Except VmError VmStep × ThreadState)) : Prop :=
  ∃ s₃ a b s' t', y = some (.ok b, t') ∧ x = some (.ok .continue, s₃) ∧ s₃.callStack = g :: rest ∧
    vm.executeNext orders s₃ = some (.ok a, s') ∧ ReturnsAlike a b ∧ Trimmed s' t' ∧
    s'.callStack = rest ∧ t'.callStack = rest

theorem executeReturn_underCallee
    (h : Relocated vm (f.underCallee g n dest rest) k g' [] s t) (hr : Resumes vm f g n dest rest)
    (hfl : g'.hasObjects = false) (hfn : ∃ fn, vm.getFunction g'.moduleId g'.funcIdx = .ok fn)
    (hst : t.heap.SteadyVal v)
    (hhl : ∀ a t₂, popFrame t = some (.ok a, t₂) → t₂.heap.Holds v) :
    vm.ReturnsTwice orders g rest (vm.executeReturn v s) (vm.executeReturn v t) := by
  obtain ⟨⟨hlow, hbt⟩, -⟩ := h.chain
  obtain ⟨t₂, s₂, hpp, hpp', hp, hkp⟩ := popFrame_underCallee h v
  obtain ⟨s₄, htr, hnx⟩ := executeNext_received orders hp hr hlow hfl (hkp hst) (hhl _ _ hpp)
  have htp : t₂.currentRegisterTop = f.registerBase := hp.top'.trans hlow
  have hbt' : g'.returnDest = f.returnDest := hbt
  obtain ⟨a, b, s', t', hs', ht', hal, htr', hsc, hst'⟩ := returnTo_trimmed (v := v)
    (f := g') (g := { g with pc := g.pc + 1 }) htr (hr.returnDest.trans hbt'.symm)
    (fun d hd => by rw [base_of_popped hp, htp]; exact hr.caller d (hbt' ▸ hd))
    (hp.top'.trans_le hp.top_le') hr.function hfn
  refine ⟨received g dest v s₂, a, b, s', t', ?_, ?_, hp.stack, hnx.trans hs', hal, htr',
    hsc.trans hp.stack', hst'.trans hp.stack'⟩
  · simpa only [executeReturn, bind_apply, hpp, Option.bind_some] using ht'
  · simpa only [executeReturn, bind_apply, hpp', Option.bind_some] using
      returnTo_underCallee hp hr hlow

theorem readReg_of_relocated {m : Relocation} {r : ℕ} (h : Relocated vm m n f rest s t)
    (hr : r < n) :
    ∃ v, readReg r t = some (.ok v, t) ∧ readReg r s = some (.ok v, s) := by
  have hlt : t.currentRegisterBase + r < t.registers.length := by
    have := h.base'
    have := h.top_le'
    omega
  refine ⟨t.registers[t.currentRegisterBase + r], ?_, ?_⟩
  · rw [readReg, List.getElem?_eq_getElem hlt]
    rfl
  · rw [readReg, h.getElem? hr, List.getElem?_eq_getElem hlt]
    rfl

theorem executeNext_underCallee
    (h : Relocated vm (f.underCallee g n dest rest) k g' [] s t) (hr : Resumes vm f g n dest rest)
    {i : Instruction} (hi : g'.cachedInstructions[g'.pc]? = some i)
    (hre : i = .retNull ∨ ∃ sr, i = .ret sr) (hcl : vm.CleanReturn t) :
    vm.ReturnsTwice orders g rest (vm.executeNext orders s) (vm.executeNext orders t) := by
  obtain ⟨hfl, hfn, hhl⟩ := hcl g' rest i h.stack' hi hre
  have hpc := h.setPc (g'.pc + 1)
  rw [executeNext_apply h.stack, executeNext_apply h.stack']
  change ReturnsTwice vm orders g rest ((g'.cachedInstructions[g'.pc]?).bind _) _
  rw [hi]
  rcases hre with rfl | ⟨sr, rfl⟩
  · refine executeReturn_underCallee orders hpc hr hfl hfn (v := .null) (fun r hr => by cases hr) ?_
    intro a t₂ hpp r sl hr
    cases hr
  · obtain ⟨im, -, hft⟩ := h.chain.fits hi
    have hsr : sr < k := (hft sr (by simp [Instruction.reads])).1
    obtain ⟨v, hv, hv'⟩ := readReg_of_relocated hpc hsr
    have hhp := hpc.withHeap ((t.setPc (g'.pc + 1)).heap.retainAnchorVal v)
    have hrt := executeReturn_underCallee orders hhp hr hfl hfn (v := v)
      (PrivateHeap.steadyVal_retainAnchorVal _ v) (fun a t₂ hpp => hhl v t₂ (by
        simp only [leaveWith, bind_apply, hv, Option.bind_some, onHeap, Exec.modify_apply, hpp,
          Exec.pure_apply]))
    have hds : ∀ u : ThreadState, readReg sr u = some (.ok v, u) →
        vm.executeRet sr u = vm.executeReturn v { u with heap := u.heap.retainAnchorVal v } := by
      intro u hu
      simp [executeRet, bind_apply, hu, Option.bind_some, onHeap, Exec.modify_apply]
    rw [← hds _ hv] at hrt
    have hhp' : (t.setPc (g'.pc + 1)).heap = (s.setPc (g'.pc + 1)).heap := hpc.heap.symm
    rw [hhp', ← hds _ hv'] at hrt
    exact hrt

end Lowest

section Run

variable {orders : PrivateHeap → HashOrders} {depth count : ℕ} {t' : ThreadState} {step : VmStep}

/-- Instructions until the frame at `depth` has returned or the thread stops, `count` at most. -/
def runFrame (vm : VirtualMachine) (orders : PrivateHeap → HashOrders) (depth : ℕ) :
    ℕ → ThreadExec (Option VmStep)
  | 0 => pure none
  | count + 1 => do
    let step ← vm.executeNext orders
    let t ← Exec.get
    if step = .continue ∧ depth ≤ t.callStack.length then runFrame vm orders depth count
    else pure (some step)

theorem runFrame_next (h : vm.executeNext orders t = some (.ok .continue, t'))
    (hd : depth ≤ t'.callStack.length) :
    vm.runFrame orders depth (count + 1) t = vm.runFrame orders depth count t' := by
  simp only [runFrame, bind_apply, h, Option.bind_some, Exec.get_apply,
    if_pos (And.intro trivial hd)]

theorem runFrame_end (h : vm.executeNext orders t = some (.ok step, t'))
    (hen : step = .continue → t'.callStack.length < depth) :
    vm.runFrame orders depth (count + 1) t = some (.ok (some step), t') := by
  have hn : ¬ (step = .continue ∧ depth ≤ t'.callStack.length) :=
    fun hc => absurd (hen hc.1) (Nat.not_lt.mpr hc.2)
  simp [runFrame, bind_apply, h, Option.bind_some, Exec.get_apply, if_neg hn, Exec.pure_apply]

theorem runFrame_stop (h : vm.executeNext orders t = none) :
    vm.runFrame orders depth (count + 1) t = none := by
  rw [runFrame, bind_apply, h]
  rfl

theorem runFrame_error {e : VmError} (h : vm.executeNext orders t = some (.error e, t')) :
    vm.runFrame orders depth (count + 1) t = some (.error e, t') := by
  rw [runFrame, bind_apply, h]
  rfl

def DepthLimit : VmError → Prop
  | .resourceLimitExceeded failure => failure.resource = .callDepth
  | _ => False

/-- A run with a call and a return, and one with a tail call. The first may need one instruction
more, since it has to return twice. -/
inductive TailMatches : Option (Except VmError (Option VmStep) × ThreadState) →
    Option (Except VmError (Option VmStep) × ThreadState) →
    Option (Except VmError (Option VmStep) × ThreadState) → Prop where
  | stop {p} : TailMatches none p none
  | error {e s t p} : SameStore s t → TailMatches (some (.error e, s)) p (some (.error e, t))
  | running {s t p} : SameStore s t → TailMatches (some (.ok none, s)) p (some (.ok none, t))
  | suspended {step s t p} : SameStore s t →
      TailMatches (some (.ok (some step), s)) p (some (.ok (some step), t))
  | returned {step step' s t p} : ReturnsAlike step step' → Trimmed s t →
      TailMatches p (some (.ok (some step), s)) (some (.ok (some step'), t))
  | tooDeep {e s p q} : DepthLimit e → TailMatches (some (.error e, s)) p q

theorem sameStore_of_moved {m : Relocation} (h : vm.Moved m s t) : SameStore s t := by
  obtain ⟨n, f, rest, h⟩ := h
  exact ⟨h.heap, h.moduleStates⟩

theorem length_of_moved (h : vm.Moved (f.underCallee g n dest rest) s t) :
    rest.length + 1 ≤ s.callStack.length ∧ rest.length + 1 ≤ t.callStack.length := by
  obtain ⟨k, g', fs, h⟩ := h
  rw [h.stack, h.stack']
  simp only [List.length_append, Relocation.length_frames, List.length_cons, CallFrame.underCallee]
  omega

theorem depthLimit_of_excuses {m : Relocation} {e : VmError} (h : m.Excuses e) : DepthLimit e := by
  cases e with
  | resourceLimitExceeded fl => exact h.1
  | _ => exact h.elim

theorem tailMatches_of_step {m : Relocation} (hm : m = f.underCallee g n dest rest)
    (hst : Matches m.Excuses (fun a b s t => a = b ∧ vm.Moved m s t) SameStore
      (vm.executeNext orders s) (vm.executeNext orders t))
    (hrn : ∀ s₁ t₁, vm.executeNext orders t = some (.ok .continue, t₁) →
      rest.length + 1 ≤ t₁.callStack.length → vm.Moved m s₁ t₁ →
      TailMatches (vm.runFrame orders (rest.length + 1) count s₁)
        (vm.runFrame orders (rest.length + 1) (count + 1) s₁)
        (vm.runFrame orders (rest.length + 1) count t₁)) :
    TailMatches (vm.runFrame orders (rest.length + 1) (count + 1) s)
      (vm.runFrame orders (rest.length + 1) (count + 1 + 1) s)
      (vm.runFrame orders (rest.length + 1) (count + 1) t) := by
  subst hm
  generalize hp : vm.executeNext orders s = p at hst
  generalize hq : vm.executeNext orders t = q at hst hrn
  cases hst with
  | stop =>
    rw [runFrame_stop hp, runFrame_stop hq]
    exact .stop
  | error hm =>
    rw [runFrame_error hp, runFrame_error hq]
    exact .error hm
  | excused hx =>
    rw [runFrame_error hp]
    exact .tooDeep (depthLimit_of_excuses hx)
  | @ok a b s₁ t₁ hm =>
    obtain ⟨rfl, hm⟩ := hm
    cases a with
    | «continue» =>
      obtain ⟨hdp, hdp'⟩ := length_of_moved hm
      have hnx : vm.runFrame orders (rest.length + 1) (count + 1 + 1) s =
          vm.runFrame orders (rest.length + 1) (count + 1) s₁ := runFrame_next hp hdp
      rw [hnx, runFrame_next hp hdp, runFrame_next hq hdp']
      exact hrn s₁ t₁ rfl hdp' hm
    | ret | suspend =>
      rw [runFrame_end hp (fun hc => by cases hc), runFrame_end hq (fun hc => by cases hc)]
      exact .suspended (sameStore_of_moved hm)

theorem runFrame_underCallee (hvm : vm.Framed) (hr : Resumes vm f g n dest rest)
    (h : vm.Moved (f.underCallee g n dest rest) s t)
    (hcl : ∀ count t', vm.runFrame orders (rest.length + 1) count t = some (.ok none, t') →
      t'.callStack.length = rest.length + 1 → vm.CleanReturn t') (count : ℕ) :
    TailMatches (vm.runFrame orders (rest.length + 1) count s)
      (vm.runFrame orders (rest.length + 1) (count + 1) s)
      (vm.runFrame orders (rest.length + 1) count t) := by
  induction count generalizing s t with
  | zero => exact .running (sameStore_of_moved h)
  | succ count ih =>
    obtain ⟨k, g', fs, h⟩ := h
    by_cases hrt : fs = [] ∧ ∃ i, g'.cachedInstructions[g'.pc]? = some i ∧
        (i = .retNull ∨ ∃ sr, i = .ret sr)
    · obtain ⟨rfl, i, hi, hrt⟩ := hrt
      obtain ⟨s₃, a, b, s', t', ht', hs₃, hst₃, hs', hal, htr, hst, hst'⟩ :=
        executeNext_underCallee orders h hr hi hrt (hcl 0 t rfl (by rw [h.stack']; rfl))
      have htw : vm.runFrame orders (rest.length + 1) (count + 1 + 1) s = some (.ok (some a), s') :=
        (runFrame_next hs₃ (by rw [hst₃]; rfl)).trans
          (runFrame_end hs' fun _ => by rw [hst]; omega)
      rw [runFrame_end ht' fun _ => by rw [hst']; omega, htw]
      exact .returned hal htr
    · have hnx := executeNext_relocated orders hvm h fun i hi hri hrs =>
        hrt ⟨hrs, i, hi, hri⟩
      refine tailMatches_of_step rfl
        (hnx.mono (fun _ _ _ _ hq => hq) fun _ _ => sameStore_of_moved) ?_
      intro s₁ t₁ ht₁ hdp hm
      refine ih hm fun count t' hrn => hcl (count + 1) t' ?_
      rw [runFrame_next ht₁ hdp, hrn]

theorem Standing.caller (h : vm.Standing n f rest t) :
    ∀ d ∈ f.returnDest, (rest.head?.map CallFrame.registerBase).getD 0 + d < f.registerBase := by
  intro d hd
  have hc := h.chain
  cases rest with
  | nil =>
    obtain ⟨⟨-, hb⟩, -⟩ := hc
    rw [hb] at hd
    cases hd
  | cons g rest =>
    obtain ⟨-, k, hk, hlt, -⟩ := hc
    have := hlt d hd
    simp only [List.head?_cons, Option.map_some, Option.getD_some]
    omega

/-- A tail call from a bare frame does what a call and a return of the result do, if all returns
from the frame are clean. -/
theorem tail_call_is_call_and_return {code : List Instruction} {func argsStart argCount : ℕ}
    (orders : PrivateHeap → HashOrders) (hvm : vm.Framed) (h : vm.Standing n f rest t)
    (hbare : t.Bare n f)
    (htail : f.cachedInstructions[f.pc]? = some (.tailCall func argsStart argCount))
    (hcall : code[f.pc]? = some (.call dest func argsStart argCount))
    (hret : code[f.pc + 1]? = some (.ret dest)) (hdest : dest < n)
    (hfunction : ∃ fn, vm.getFunction f.moduleId f.funcIdx = .ok fn)
    (hclean : ∀ count t', vm.runFrame orders t.callStack.length count t = some (.ok none, t') →
      t'.callStack.length = t.callStack.length → vm.CleanReturn t') (count : ℕ) :
    TailMatches (vm.runFrame orders t.callStack.length count (t.withCode code))
      (vm.runFrame orders t.callStack.length (count + 1) (t.withCode code))
      (vm.runFrame orders t.callStack.length count t) := by
  have hln : t.callStack.length = rest.length + 1 := by rw [h.callStack]; rfl
  rw [hln] at hclean ⊢
  set f₁ : CallFrame := { f with pc := f.pc + 1 } with hf₁
  set g : CallFrame := { f with cachedInstructions := code, pc := f.pc + 1 } with hg
  have h₁ : vm.Standing n f₁ rest (t.setPc (f.pc + 1)) := h.setPc _
  have hbr₁ : (t.setPc (f.pc + 1)).Bare n f₁ := { hbare with }
  obtain ⟨i, -, hft⟩ := h.chain.fits htail
  have har : 0 < argCount → argsStart + argCount ≤ n ∧ argsStart + argCount ≤ 2 ^ 16 := by
    intro hps
    have := hft (argsStart + argCount - 1) (by
      simp only [Instruction.reads, List.mem_append, mem_registerRange]
      exact .inl ⟨by omega, by omega⟩)
    omega
  have hr : Resumes vm f₁ g n dest rest :=
    { base := rfl
      returnDest := rfl
      saved := hbare.saved
      code := hret
      dest_lt := hdest
      function := hfunction
      caller := h.caller }
  have hnx : vm.executeNext orders t =
      vm.executeTailCall func argsStart argCount (t.setPc (f.pc + 1)) := by
    rw [executeNext_apply h.callStack, htail]
    rfl
  have hnx' : vm.executeNext orders (t.withCode code) =
      vm.executeCall dest func argsStart argCount
        { t.setPc (f.pc + 1) with callStack := g :: rest } := by
    have hst : (t.withCode code).callStack = { f with cachedInstructions := code } :: rest := by
      rw [withCode, h.callStack]
      rfl
    rw [executeNext_apply hst]
    rw [hcall, setPc, hst]
    rfl
  cases count with
  | zero => exact .running ⟨rfl, rfl⟩
  | succ count =>
    have hen : Matches (f₁.underCallee g n dest rest).Excuses
        (fun a b s t => a = b ∧ vm.Moved (f₁.underCallee g n dest rest) s t) SameStore
        (vm.executeNext orders (t.withCode code)) (vm.executeNext orders t) := by
      rw [hnx, hnx']
      exact matches_enter hvm h₁ hbr₁ rfl rfl (fun hps => (har hps).1) fun hps => (har hps).2
    refine tailMatches_of_step rfl hen ?_
    intro s₁ t₁ ht₁ hdp hm
    refine runFrame_underCallee hvm hr hm (fun count t' hrn => hclean (count + 1) t' ?_) count
    rw [runFrame_next ht₁ hdp, hrn]

end Run

/-- A function with a tail call of another one, which returns its argument. -/
def tailModule : BytecodeModule :=
  ⟨"m", 0, [],
    [⟨"main", 0, 2, 0, 0, none, [.tailCall 1 0 1]⟩, ⟨"same", 1, 0, 0, 0, none, [.ret 0]⟩],
    [], [], [], [], [], none⟩

def tailThread : ThreadState := threadOf [.tailCall 1 0 1] [.int32 5, .null] 2 false

def tailThread' : ThreadState :=
  { tailThread with
    callStack := [⟨0, 1, 0, 0, none, [.ret 0], false⟩]
    currentRegisterTop := 1 }

theorem executeNext_tailThread : (single tailModule).executeNext (fun _ => .byIndex) tailThread =
      some (.ok .continue, tailThread') := by decide

theorem runFrame_tailThread {count : ℕ}
    (h : (single tailModule).runFrame (fun _ => .byIndex) 1 count tailThread = some (.ok none, t)) :
    t = tailThread ∨ t = tailThread' := by
  cases count with
  | zero =>
    cases h
    exact .inl rfl
  | succ count =>
    rw [runFrame_next executeNext_tailThread (by decide)] at h
    cases count with
    | zero =>
      cases h
      exact .inr rfl
    | succ count =>
      cases h

theorem tail_call_is_call_and_return_same : TailMatches
      ((single tailModule).runFrame (fun _ => .byIndex) 1 2
        (tailThread.withCode [.call 1 1 0 1, .ret 1]))
      ((single tailModule).runFrame (fun _ => .byIndex) 1 3
        (tailThread.withCode [.call 1 1 0 1, .ret 1]))
      ((single tailModule).runFrame (fun _ => .byIndex) 1 2 tailThread) := by
  refine tail_call_is_call_and_return (fun _ => .byIndex) (framed_single (by decide))
    (standing_threadOf (by decide) (by decide)) ⟨rfl, rfl, by decide, ?_⟩ rfl rfl rfl (by decide)
    ⟨_, rfl⟩ ?_ 2
  · intro i hi
    exact List.getD_eq_default _ _ hi
  · intro count t' hrn _
    rcases runFrame_tailThread hrn with rfl | rfl
    · rintro g fs i ⟨⟩ ⟨⟩ (hi | ⟨sr, hi⟩)
      · cases hi
      · cases hi
    · rintro g fs i ⟨⟩ ⟨⟩ -
      refine ⟨rfl, ⟨_, rfl⟩, ?_⟩
      rintro v t' ⟨⟩ r sl ⟨⟩

/-- The only anchor of a tuple is the register from which it is passed. -/
def anchoredThread : ThreadState :=
  { threadOf [.tailCall 1 0 1] [.object ⟨0, 1⟩, .null] 2 true with
    heap := .ofTuples [PrivateHeap.tupleSlot 1 0 .black []] ∅ }

/-- The caller of a frame that makes a tail call holds a tuple. -/
def holdingThread : ThreadState :=
  { threadOf [] [.object ⟨0, 1⟩, .null, .int32 5, .null] 4 false with
    callStack :=
      [⟨0, 0, 0, 2, some 1, [.tailCall 1 0 1], true⟩, ⟨0, 0, 0, 0, none, [.retNull], false⟩]
    currentRegisterBase := 2
    heap := .ofTuples [PrivateHeap.tupleSlot 1 0 .black []] ∅ }

/-- With exact counts, a tail call frees its argument, and the flag of the caller is lost. -/
theorem tail_call_frees_argument : anchoredThread.CountsExact ∧
    ((single tailModule).runFrame (fun _ => .byIndex) 1 2 anchoredThread).map
        (fun p => (p.1, decide (p.2.heap.Alive ⟨0, 1⟩))) =
      some (.ok (some (.ret (.object ⟨0, 1⟩) 0 0)), false) ∧
    ((single tailModule).runFrame (fun _ => .byIndex) 1 3
        (anchoredThread.withCode [.call 1 1 0 1, .ret 1])).map
        (fun p => (p.1, decide (p.2.heap.Alive ⟨0, 1⟩))) =
      some (.ok (some (.ret (.object ⟨0, 1⟩) 0 0)), true) ∧
    holdingThread.CountsExact ∧
    ((single tailModule).runFrame (fun _ => .byIndex) 2 2 holdingThread).map
        (fun p => (p.1, p.2.currentFrameHasObjects)) = some (.ok (some .continue), false) ∧
    ((single tailModule).runFrame (fun _ => .byIndex) 2 3
        (holdingThread.withCode [.call 1 1 0 1, .ret 1])).map
        (fun p => (p.1, p.2.currentFrameHasObjects)) = some (.ok (some .continue), true) := by
  refine ⟨by decide, by decide +kernel, by decide +kernel, by decide, by decide +kernel,
    by decide +kernel⟩

end VirtualMachine

end Galfus
