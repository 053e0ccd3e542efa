import Galfus.Vm.Locality

/-! # Locality of calls and returns

Relocated threads push, reuse and pop their frames in the same way. While a frame is set
up or taken down only registers, the heap and the flag for objects change.
-/

namespace Galfus

open Exec

variable {vm : VirtualMachine} {m : Relocation} {n k : ℕ} {f g : CallFrame}
  {rest : List CallFrame} {s t s₀ t₀ : ThreadState} {X : VmError → Prop} {os : HashOrders}
  {E : ThreadState → ThreadState → Prop}

/-- `s` and `t` came from `s₀` and `t₀` by the same changes to the registers from the cut on, the
heap and the flag for objects. -/
structure Aligned (m : Relocation) (s₀ t₀ s t : ThreadState) : Prop where
  eq : s = { s₀ with
    registers := s.registers
    heap := s.heap
    currentFrameHasObjects := s.currentFrameHasObjects }
  eq' : t = { t₀ with
    registers := t.registers
    heap := t.heap
    currentFrameHasObjects := t.currentFrameHasObjects }
  heap : s.heap = t.heap
  flag : s.currentFrameHasObjects = t.currentFrameHasObjects
  length : s.registers.length = s₀.registers.length
  length' : t.registers.length = t₀.registers.length
  registers : Shifted .null m.cut m.gap s.registers t.registers
  plain : ∀ i < m.gap, ∀ v ∈ s.registers[m.cut + i]?, v.isPlain = true

/-- A register from the cut on that both threads have. -/
def Aligned.Has (m : Relocation) (s₀ t₀ : ThreadState) (idx : ℕ) : Prop :=
  m.cut ≤ idx ∧ idx < t₀.registers.length ∧ idx + m.gap < s₀.registers.length

namespace Aligned

theorem refl (hh : s.heap = t.heap) (hf : s.currentFrameHasObjects = t.currentFrameHasObjects)
    (hr : Shifted .null m.cut m.gap s.registers t.registers)
    (hp : ∀ i < m.gap, ∀ v ∈ s.registers[m.cut + i]?, v.isPlain = true) : Aligned m s t s t :=
  ⟨rfl, rfl, hh, hf, rfl, rfl, hr, hp⟩

theorem store (h : Aligned m s₀ t₀ s t) {ix : ℕ} (hid : Has m s₀ t₀ ix) (v : VmValue)
    {fl f' : Bool} {hp hep' : PrivateHeap} (hf : fl = f') (hh : hp = hep') :
    Aligned m s₀ t₀ { s with
        currentFrameHasObjects := fl
        registers := s.registers.set (ix + m.gap) v
        heap := hp }
      { t with
        currentFrameHasObjects := f'
        registers := t.registers.set ix v
        heap := hep' } := by
  obtain ⟨hc, hlt, hlt'⟩ := hid
  refine ⟨?_, ?_, hh, hf, ?_, ?_, ?_, ?_⟩
  · conv_lhs => rw [h.eq]
  · conv_lhs => rw [h.eq']
  · simpa using h.length
  · simpa using h.length'
  · exact h.registers.set hc (by rwa [h.length']) (by rwa [h.length])
  · intro i hi
    rw [List.getElem?_set_ne (by omega)]
    exact h.plain i hi

theorem getElem? (h : Aligned m s₀ t₀ s t) {i : ℕ} (hi : Has m s₀ t₀ i) :
    s.registers[i + m.gap]? = t.registers[i]? :=
  h.registers.getElem?_add hi.1 (by rw [h.length']; exact hi.2.1) (by rw [h.length]; exact hi.2.2)

end Aligned

namespace ThreadState

open Aligned

theorem sim_placeArg {i : ℕ} (hi : Has m s₀ t₀ i) (v : VmValue) :
    Sim X (Aligned m s₀ t₀) (placeArg (i + m.gap) v) (placeArg i v)
      (fun _ _ => Aligned m s₀ t₀) E := by
  intro s t h
  unfold placeArg
  rw [if_pos (by rw [h.length]; exact hi.2.2), if_pos (by rw [h.length']; exact hi.2.1)]
  exact .ok (h.store hi v (by rw [h.flag]) (by rw [h.heap]))

theorem sim_clearReg {i : ℕ} (hi : Has m s₀ t₀ i) :
    Sim X (Aligned m s₀ t₀) (clearReg (i + m.gap)) (clearReg i) (fun _ _ => Aligned m s₀ t₀) E := by
  intro s t h
  unfold clearReg
  rw [if_pos (by rw [h.length]; exact hi.2.2), if_pos (by rw [h.length']; exact hi.2.1)]
  exact .ok (h.store hi .null h.flag h.heap)

theorem sim_releaseReg {i : ℕ} (hi : Has m s₀ t₀ i) :
    Sim X (Aligned m s₀ t₀) (releaseReg (i + m.gap)) (releaseReg i)
      (fun _ _ => Aligned m s₀ t₀) E := by
  intro s t h
  unfold releaseReg
  rw [h.getElem? hi]
  cases t.registers[i]? with
  | none => exact .stop
  | some o => exact .ok (h.store hi .null h.flag (by rw [h.heap]))

theorem sim_forM_range {bd : ℕ → ThreadExec PUnit} {b c : ℕ}
    (hb : ∀ i < c, Sim X (Aligned m s₀ t₀) (bd (b + i + m.gap)) (bd (b + i))
      (fun _ _ => Aligned m s₀ t₀) E) :
    Sim X (Aligned m s₀ t₀) ((List.range' (b + m.gap) c).forM bd)
      ((List.range' b c).forM bd) (fun _ _ => Aligned m s₀ t₀) E := by
  apply Sim.forM
  rw [List.forall₂_iff_get]
  refine ⟨by simp, fun i hi _ => ?_⟩
  simp only [List.length_range'] at hi
  simpa [List.getElem_range', Nat.add_right_comm] using hb i hi

theorem sim_releaseRegs {b tp : ℕ} (hc : m.cut ≤ b) (ht : tp ≤ t₀.registers.length)
    (ht' : tp + m.gap ≤ s₀.registers.length) :
    Sim X (Aligned m s₀ t₀) (releaseRegs (b + m.gap) (tp + m.gap)) (releaseRegs b tp)
      (fun _ _ => Aligned m s₀ t₀) E := by
  unfold releaseRegs
  rw [Nat.add_sub_add_right]
  exact sim_forM_range fun i hi => sim_releaseReg ⟨by omega, by omega, by omega⟩

end ThreadState

namespace Relocated

theorem aligned (h : Relocated vm m n f rest s t) : Aligned m s t s t :=
  .refl h.heap h.flag h.registers h.plain

theorem of_aligned (h : Relocated vm m n f rest s₀ t₀) (ha : Aligned m s₀ t₀ s t) :
    Relocated vm m n f rest s t := by
  rw [ha.eq, ha.eq']
  refine { h with
    heap := ha.heap, flag := ha.flag, registers := ha.registers, plain := ha.plain,
    top_le := ?_, top_le' := ?_ }
  · exact h.top_le.trans ha.length.ge
  · exact h.top_le'.trans ha.length'.ge

theorem has (h : Relocated vm m n f rest s t) {i : ℕ} (hi : i < n) :
    Aligned.Has m s t (f.registerBase + i) := by
  have := h.chain.cut_le
  have := h.top_le
  have := h.top_le'
  exact ⟨by omega, by omega, by omega⟩

end Relocated

/-- What is left when the frame `f` is popped above the frames `rest`. -/
structure Popped (m : Relocation) (f : CallFrame) (rest : List CallFrame) (s t : ThreadState) :
    Prop where
  heap : s.heap = t.heap
  moduleStates : s.moduleStates = t.moduleStates
  maxCallDepth : s.maxCallDepth = t.maxCallDepth
  flag : s.currentFrameHasObjects = f.hasObjects
  flag' : t.currentFrameHasObjects = f.hasObjects
  stack : s.callStack = m.frames rest ++ m.under
  stack' : t.callStack = rest ++ m.under'
  base : s.currentRegisterBase = (s.callStack.head?.map CallFrame.registerBase).getD 0
  base' : t.currentRegisterBase = (t.callStack.head?.map CallFrame.registerBase).getD 0
  top : s.currentRegisterTop = f.registerBase + m.gap
  top' : t.currentRegisterTop = f.registerBase
  top_le : f.registerBase + m.gap ≤ s.registers.length
  top_le' : f.registerBase ≤ t.registers.length
  registers : Shifted .null m.cut m.gap s.registers t.registers
  plain : ∀ i < m.gap, ∀ v ∈ s.registers[m.cut + i]?, v.isPlain = true

theorem Popped.relocated (h : Popped m f (g :: rest) s t) (hf : f.registerBase = g.registerBase + k)
    (hc : vm.Chain m k g rest) : Relocated vm m k g rest s t where
  heap := h.heap
  moduleStates := h.moduleStates
  flag := h.flag.trans h.flag'.symm
  maxCallDepth := h.maxCallDepth
  stack := h.stack
  stack' := h.stack'
  base := by rw [h.base, h.stack]; rfl
  base' := by rw [h.base', h.stack']; rfl
  top := by rw [h.top, hf]
  top' := by rw [h.top', hf]
  top_le := hf ▸ h.top_le
  top_le' := hf ▸ h.top_le'
  registers := h.registers
  plain := h.plain
  chain := hc

namespace ThreadState

theorem popFrame_apply {fs : List CallFrame} (h : t.callStack = f :: fs) : popFrame t = (do
      releaseFrame f.registerBase
      Exec.modify (leaveFrame f fs)
      pure (some f) : ThreadExec (Option CallFrame)) { t with callStack := fs } := by
  simp only [popFrame, Exec.get_bind, h, Exec.modify_bind]

theorem sim_releaseFrame {b : ℕ} (hc : m.cut ≤ b)
    (htp : t₀.currentRegisterTop ≤ t₀.registers.length)
    (ht' : s₀.currentRegisterTop ≤ s₀.registers.length)
    (hg : s₀.currentRegisterTop = t₀.currentRegisterTop + m.gap) :
    Sim X (Aligned m s₀ t₀) (releaseFrame (b + m.gap)) (releaseFrame b)
      (fun _ _ => Aligned m s₀ t₀) E := by
  apply Sim.get_bind
  intro s t h
  have hs : s.currentRegisterTop = s₀.currentRegisterTop := by rw [h.eq]
  have ht : t.currentRegisterTop = t₀.currentRegisterTop := by rw [h.eq']
  rw [h.flag, hs, ht, hg]
  split
  · exact sim_releaseRegs hc htp (hg ▸ ht') _ _ h
  · exact .ok h

theorem sim_popFrame : Sim X (Relocated vm m n f rest) popFrame popFrame
    (fun a b s t => a = some (m.place rest f) ∧ b = some f ∧ Popped m f rest s t) E := by
  intro s t h
  rw [popFrame_apply h.stack, popFrame_apply h.stack']
  have ht := h.top_le
  have ht' := h.top_le'
  have hal : Aligned m { s with callStack := m.frames rest ++ m.under }
      { t with callStack := rest ++ m.under' }
      { s with callStack := m.frames rest ++ m.under }
      { t with callStack := rest ++ m.under' } := .refl h.heap h.flag h.registers h.plain
  refine Sim.bind (sim_releaseFrame h.chain.cut_le (h.top' ▸ ht') (h.top ▸ ht)
    (by rw [h.top, h.top'])) ?_ _ _ hal
  rintro - - s₁ t₁ ha
  refine .ok ⟨rfl, rfl, ?_⟩
  have hl := ha.length
  have hl' := ha.length'
  unfold leaveFrame
  rw [ha.eq, ha.eq']
  exact ⟨ha.heap, h.moduleStates, h.maxCallDepth, rfl, rfl, rfl, rfl, rfl, rfl, rfl, rfl,
    by dsimp only at hl ⊢; omega, by dsimp only at hl' ⊢; omega, ha.registers, ha.plain⟩

theorem length_le_reserve (l nt : ℕ) (rs : List VmValue) :
    rs.length ≤ (reserve l nt rs).length := by
  unfold reserve
  split
  · simp
  · exact le_rfl

theorem le_length_reserve (l nt : ℕ) (rs : List VmValue) : nt ≤ (reserve l nt rs).length := by
  unfold reserve
  split
  · simp only [List.length_append, List.length_replicate]
    omega
  · omega

theorem getElem?_reserve {l nt i : ℕ} {rs : List VmValue} (hi : i < rs.length) :
    (reserve l nt rs)[i]? = rs[i]? := by
  unfold reserve
  split
  · exact List.getElem?_append_left hi
  · rfl

theorem exists_reserve (l nt : ℕ) (rs : List VmValue) :
    ∃ p, reserve l nt rs = rs ++ List.replicate p .null := by
  unfold reserve
  split
  · exact ⟨_, rfl⟩
  · exact ⟨0, by simp⟩

theorem shifted_reserve {c gp l l' nt nt' : ℕ}
    {xs ys : List VmValue} (h : Shifted .null c gp xs ys) (hxs : c ≤ xs.length)
    (hys : c ≤ ys.length) :
    Shifted .null c gp (reserve l nt xs) (reserve l' nt' ys) := by
  obtain ⟨p, hp⟩ := exists_reserve l nt xs
  obtain ⟨q, hq⟩ := exists_reserve l' nt' ys
  rw [hp, hq]
  exact h.append_replicate hxs hys p q

end ThreadState

namespace VirtualMachine

open ThreadState

/-- Threads that are related by a relocation of some frames. -/
def Moved (vm : VirtualMachine) (m : Relocation) (s t : ThreadState) : Prop :=
  ∃ n f rest, Relocated vm m n f rest s t

theorem getFunction_eq_ok {mi fi : ℕ} {c : BytecodeFunction} : vm.getFunction mi fi = .ok c ↔
      ∃ i, vm.modules mi = some i ∧ i.functions[fi]? = some c := by
  unfold getFunction getModule
  cases hm : vm.modules mi with
  | none => simp [bind, Except.bind]
  | some i => cases hf : i.functions[fi]? <;> simp [bind, Except.bind, hf]

theorem Framed.codeFits (hvm : vm.Framed) {mi fi : ℕ} {c : BytecodeFunction}
    (h : vm.getFunction mi fi = .ok c) :
    vm.CodeFits mi c.registerCount c.instructions := by
  obtain ⟨i, hm, hf⟩ := getFunction_eq_ok.mp h
  exact ⟨i, hm, hvm mi i hm c (List.mem_of_getElem? hf)⟩

end VirtualMachine

/-- The frame that a call opens above `f`, which has `n` registers. -/
def CallFrame.above (f : CallFrame) (n moduleId funcIdx dest : ℕ) (callee : BytecodeFunction)
    (saved : Bool) : CallFrame :=
  ⟨moduleId, funcIdx, 0, f.registerBase + n, some dest, callee.instructions, saved⟩

namespace Relocated

theorem setPc (h : Relocated vm m n f rest s t) (pc : ℕ) :
    Relocated vm m n { f with pc := pc } rest (s.setPc pc) (t.setPc pc) := by
  refine { h with stack := ?_, stack' := ?_, chain := h.chain.setPc pc }
  · rw [ThreadState.setPc, h.stack]
    rfl
  · rw [ThreadState.setPc, h.stack']
    rfl

/-- Both threads open a frame, and may reserve room in different ways. -/
theorem openFrame (h : Relocated vm m n f rest s t) {mi fi ds : ℕ}
    {c : BytecodeFunction} (hds : ds < n)
    (hft : vm.CodeFits mi c.registerCount c.instructions) (l l' : ℕ)
    (sv : Bool) :
    Relocated vm m c.registerCount (f.above n mi fi ds c sv) (f :: rest)
      (s.openFrame l sv mi fi (some ds) c)
      (t.openFrame l' sv mi fi (some ds) c) := by
  have hct := h.chain.cut_le
  have htp := h.top_le
  have htp' := h.top_le'
  dsimp only [ThreadState.openFrame]
  rw [h.top, h.top', Nat.add_right_comm _ m.gap]
  exact {
    heap := h.heap
    moduleStates := h.moduleStates
    flag := rfl
    maxCallDepth := h.maxCallDepth
    stack := by rw [h.stack]; rfl
    stack' := by rw [h.stack']; rfl
    base := rfl
    base' := rfl
    top := rfl
    top' := rfl
    top_le := ThreadState.le_length_reserve _ _ _
    top_le' := ThreadState.le_length_reserve _ _ _
    registers := ThreadState.shifted_reserve h.registers (by omega) (by omega)
    plain := fun i hi v hv => h.plain i hi v (by
      rwa [ThreadState.getElem?_reserve (by omega)] at hv)
    chain := ⟨hft, n, rfl, fun d hd => by cases hd; exact hds, h.chain⟩ }

end Relocated

namespace ThreadState

theorem sim_pushFrame {mi fi d : ℕ} {c : BytecodeFunction} (hds : d < n)
    (hft : vm.CodeFits mi c.registerCount c.instructions) :
    Sim m.Excuses (Relocated vm m n f rest) (pushFrame mi fi (some d) c)
      (pushFrame mi fi (some d) c)
      (fun _ _ s t => ∃ sv, Relocated vm m c.registerCount (f.above n mi fi d c sv) (f :: rest) s t)
      (Relocated vm m n f rest) := by
  apply Sim.get_bind
  intro s t h
  have hs : s.callStack.length = rest.length + m.under.length + 1 := by
    rw [h.stack]; simp [Nat.add_right_comm]
  have ht : t.callStack.length = rest.length + m.under'.length + 1 := by
    rw [h.stack']; simp
  have hle := m.length_le
  by_cases hlm : t.maxCallDepth ≤ t.callStack.length
  · rw [if_pos hlm, if_pos (by rw [h.maxCallDepth]; omega)]
    rcases hle.lt_or_eq with hlt | heq
    · exact .excused ⟨rfl, hlt⟩
    · have : s.callDepthExceeded = t.callDepthExceeded := by
        unfold callDepthExceeded
        rw [hs, ht, heq, h.maxCallDepth]
      rw [this]
      exact .error h
  · rw [if_neg hlm]
    by_cases hlm' : s.maxCallDepth ≤ s.callStack.length
    · rw [if_pos hlm']
      have hlt : m.under'.length < m.under.length := by
        rw [h.maxCallDepth] at hlm'
        omega
      exact .excused ⟨rfl, hlt⟩
    · rw [if_neg hlm', h.flag]
      exact .ok ⟨_, h.openFrame hds hft 64 64 _⟩

theorem sim_callerArg {bs sr : ℕ} (h : Aligned.Has m s₀ t₀ (bs + sr)) :
    Sim X (Aligned m s₀ t₀) (callerArg (bs + m.gap) sr) (callerArg bs sr)
      (fun a b s t => a = b ∧ Aligned m s₀ t₀ s t) E := by
  apply Sim.get_bind
  intro s t ha
  have hg := ha.getElem? h
  have hlt : bs + sr < t.registers.length := by rw [ha.length']; exact h.2.1
  rw [Nat.add_right_comm] at hg
  rw [hg, List.getElem?_eq_getElem hlt]
  exact .ok ⟨rfl, ha⟩

theorem setupArgsFromCaller_apply {a ac c : ℕ} {ha : Option ℕ}
    {fs : List CallFrame} (h : t.callStack = g :: f :: fs) :
    setupArgsFromCaller a ac c ha t = (do
      (argRegs a ac ha).zipIdx.forM fun p => do
        let v ← callerArg f.registerBase p.1
        placeArg (g.registerBase + p.2) v
      (List.range' ac (c - ac)).forM fun i =>
        clearReg (g.registerBase + i) : ThreadExec Unit) t := by
  simp only [setupArgsFromCaller, Exec.get_bind, h]

theorem keeps_setupArgsFromCaller {a ac p : ℕ} {hab : Option ℕ}
    (hbs : g.registerBase = f.registerBase + n) (hrg : ∀ r ∈ argRegs a ac hab, r < n)
    (har : ac ≤ p) (hpr : p ≤ k) (hct : m.cut ≤ f.registerBase) :
    Keeps X (Relocated vm m k g (f :: rest)) (setupArgsFromCaller a ac p hab) := by
  intro s t h
  have hhs : ∀ i < k, Aligned.Has m s t (g.registerBase + i) := fun i hi => h.has hi
  have hln : (argRegs a ac hab).length = ac := by
    cases hab <;> simp [argRegs, VirtualMachine.regRange]
  have htp := h.top_le
  have htp' := h.top_le'
  rw [setupArgsFromCaller_apply h.stack, setupArgsFromCaller_apply h.stack']
  refine (Sim.bind (P := Aligned m s t) (Q := fun _ _ => Aligned m s t)
    (S := fun _ _ => Aligned m s t) (E := Relocated vm m k g (f :: rest)) ?_ ?_ s t h.aligned).mono
    (fun _ _ _ _ ha => ⟨rfl, h.of_aligned ha⟩) fun _ _ he => he
  · apply Sim.forM
    rw [List.forall₂_same]
    rintro ⟨sr, i⟩ hmm
    obtain ⟨hi, hgt⟩ := List.mem_zipIdx' hmm
    have hsr : sr < n := hrg sr (by rw [hgt]; exact List.getElem_mem hi)
    have hhs' : Aligned.Has m s t (f.registerBase + sr) := ⟨by omega, by omega, by omega⟩
    refine (sim_callerArg hhs').bind ?_
    rintro v _ s₁ t₁ ⟨rfl, ha⟩
    have hpl := sim_placeArg (X := X) (E := Relocated vm m k g (f :: rest))
      (hhs i (by omega)) v s₁ t₁ ha
    rwa [Nat.add_right_comm] at hpl
  · rintro - -
    apply Sim.forM
    rw [List.forall₂_same]
    intro i hi
    rw [List.mem_range'_1] at hi
    have hcl := sim_clearReg (X := X) (E := Relocated vm m k g (f :: rest)) (hhs i (by omega))
    rwa [Nat.add_right_comm] at hcl

end ThreadState

end Galfus
