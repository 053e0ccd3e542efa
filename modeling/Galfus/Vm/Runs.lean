import Galfus.Vm.ControlLocality

/-! # Runs of relocated threads

Single steps and runs of `step` in relocated threads. Threads that differ only in how much
room their register files have beyond the frames have the same runs.
-/

namespace Galfus

open Exec

/-- Threads that are the same but for null registers at the end of the register file. -/
structure Alike (s t : ThreadState) : Prop where
  eq : s = { t with registers := s.registers }
  registers : ∀ i, s.registers.getD i .null = t.registers.getD i .null

/-- All frames of a thread stay where they are, and the lowest one ends the thread. -/
def Relocation.whole : Relocation := ⟨0, 0, none, none, [], [], le_rfl⟩

variable {vm : VirtualMachine} {m : Relocation} {n : ℕ} {f : CallFrame} {rest : List CallFrame}
  {s t : ThreadState} {orders : PrivateHeap → HashOrders} {X : VmError → Prop}

theorem VirtualMachine.Chain.frames_whole (h : vm.Chain .whole n f rest) :
    Relocation.whole.frames (f :: rest) = f :: rest := by
  induction rest generalizing n f with
  | nil =>
    obtain ⟨⟨-, hb⟩, -⟩ := h
    obtain ⟨_, _, _, _, d, _, _⟩ := f
    obtain rfl : d = none := hb
    rfl
  | cons g rest ih =>
    obtain ⟨-, k, -, -, h⟩ := h
    exact congrArg (f :: ·) (ih h)

theorem Relocated.alike (h : Relocated vm .whole n f rest s t) : Alike s t := by
  refine ⟨?_, fun i => h.registers.high i (Nat.zero_le i)⟩
  ext1
  · rw [h.stack, h.stack', h.chain.frames_whole]
    rfl
  · rfl
  · exact h.base.trans h.base'.symm
  · exact h.top.trans h.top'.symm
  · exact h.flag
  · exact h.heap
  · exact h.moduleStates
  · exact h.maxCallDepth

theorem Popped.alike (h : Popped .whole f [] s t) : Alike s t := by
  refine ⟨?_, fun i => h.registers.high i (Nat.zero_le i)⟩
  have hs : s.callStack = t.callStack := h.stack.trans h.stack'.symm
  ext1
  · exact hs
  · rfl
  · rw [h.base, h.base', hs]
  · exact h.top.trans h.top'.symm
  · exact h.flag.trans h.flag'.symm
  · exact h.heap
  · exact h.moduleStates
  · exact h.maxCallDepth

namespace VirtualMachine

open ThreadState

/-- Steps up to the first one that returns from the thread or suspends it, `count` at most. -/
def steps (vm : VirtualMachine) (orders : PrivateHeap → HashOrders) : ℕ → ThreadExec VmStep
  | 0 => pure .continue
  | count + 1 => do
    let s ← vm.step orders
    match s with
    | .continue => steps vm orders count
    | s => pure s

theorem executeNext_of_empty (h : t.callStack = []) :
    vm.executeNext orders t = some (.error .emptyCallStack, t) := by
  simp [executeNext, Exec.get_bind, h]

theorem executeNext_apply {fs : List CallFrame} (h : t.callStack = f :: fs) :
    vm.executeNext orders t = (f.cachedInstructions[f.pc]?).bind fun i =>
      vm.dispatch (orders t.heap) i (t.setPc (f.pc + 1)) := by
  simp only [executeNext, Exec.get_bind, h, Exec.unwrap_bind]
  rfl

/-- The instruction at the program counter of the current frame uses its registers only. -/
theorem Chain.fits (h : vm.Chain m n f rest) {i : Instruction} {pc : ℕ}
    (hi : f.cachedInstructions[pc]? = some i) :
    ∃ im, vm.modules f.moduleId = some im ∧ i.Fits im.constants n := by
  obtain ⟨im, him, hf⟩ := h.codeFits
  exact ⟨im, him, hf i (List.mem_of_getElem? hi)⟩

/-- One instruction in relocated threads, unless it returns from the lowest frame. -/
theorem executeNext_relocated (orders : PrivateHeap → HashOrders) (hvm : vm.Framed)
    (h : Relocated vm m n f rest s t)
    (hr : ∀ i, f.cachedInstructions[f.pc]? = some i →
      i = .retNull ∨ (∃ sr, i = .ret sr) → rest ≠ []) :
    Matches m.Excuses (fun a b s t => a = b ∧ vm.Moved m s t) (vm.Moved m)
      (vm.executeNext orders s) (vm.executeNext orders t) := by
  rw [executeNext_apply h.stack, executeNext_apply h.stack']
  show Matches _ _ _ ((f.cachedInstructions[f.pc]?).bind _) _
  cases hi : f.cachedInstructions[f.pc]? with
  | none => exact .stop
  | some i =>
    obtain ⟨im, him, hf⟩ := h.chain.fits hi
    rw [h.heap]
    exact (leads_dispatch (f := { f with pc := f.pc + 1 }) hvm him hf (hr i hi) _ _
      (h.setPc _)).mono (fun _ _ _ _ hst => ⟨hst.1, hst.2.moved⟩) fun _ _ hst => hst

theorem orDrop_apply_none (h : t.takeDrop = none) (x : ThreadExec VmStep) : orDrop x t = x t := by
  simp [orDrop, bind_apply, h]

theorem orDrop_apply_some {hn : AdapterHandleId} {t' : ThreadState}
    (h : t.takeDrop = some (hn, t')) (x : ThreadExec VmStep) :
    orDrop x t = some (.ok (.suspend (.adapterHandleDropped hn) (.new none)), t') := by
  simp [orDrop, bind_apply, h]

theorem orDrop_relocated {x : ThreadExec VmStep} (h : Relocated vm m n f rest s t)
    {Q : VmStep → VmStep → ThreadState → ThreadState → Prop}
    {E : ThreadState → ThreadState → Prop}
    (hQ : ∀ a s t, a ≠ .continue → Relocated vm m n f rest s t → Q a a s t)
    (hx : Matches X Q E (x s) (x t)) : Matches X Q E (orDrop x s) (orDrop x t) := by
  cases hd : t.heap.pendingAdapterHandleDrops.getLast? with
  | none =>
    have ht : t.takeDrop = none := by rw [takeDrop, hd]; rfl
    have hs : s.takeDrop = none := by rw [takeDrop, h.heap, hd]; rfl
    rwa [orDrop_apply_none hs, orDrop_apply_none ht]
  | some hn =>
    have ht : t.takeDrop = some (hn, { t with heap := { t.heap with
        pendingAdapterHandleDrops := t.heap.pendingAdapterHandleDrops.dropLast } }) := by
      rw [takeDrop, hd]; rfl
    have hs : s.takeDrop = some (hn, { s with heap := { t.heap with
        pendingAdapterHandleDrops := t.heap.pendingAdapterHandleDrops.dropLast } }) := by
      rw [takeDrop, h.heap, hd]; rfl
    rw [orDrop_apply_some hs, orDrop_apply_some ht]
    exact .ok (hQ _ _ _ (fun h => by cases h) (h.withHeap _))

theorem sim_executeReturn_whole (v : VmValue) :
    Sim X (Relocated vm .whole n f []) (vm.executeReturn v) (vm.executeReturn v)
      (fun a b s t => a = b ∧ Alike s t ∧ a ≠ .continue) Alike := by
  intro s t h
  refine Sim.bind sim_popFrame ?_ s t h
  rintro _ _ s₁ t₁ ⟨rfl, rfl, hp⟩
  have hd : f.returnDest = none := h.chain.1.2
  dsimp only [returnTo, Relocation.place, Relocation.whole, List.isEmpty_nil, if_true]
  rw [hd]
  cases hf : vm.getFunction f.moduleId f.funcIdx with
  | error e => exact .error hp.alike
  | ok g => exact .ok ⟨rfl, hp.alike, fun h => by cases h⟩

theorem sim_executeRet_whole {sr : ℕ} (hs : sr < n) :
    Sim X (Relocated vm .whole n f []) (vm.executeRet sr) (vm.executeRet sr)
      (fun a b s t => a = b ∧ Alike s t ∧ a ≠ .continue) Alike := by
  have hk {α : Type} {x : ThreadExec α} (hx : Keeps X (Relocated vm .whole n f []) x) :
      Sim X (Relocated vm .whole n f []) x x
        (fun a b s t => a = b ∧ Relocated vm .whole n f [] s t) Alike :=
    Sim.conseq hx (fun _ _ h => h) (fun _ _ _ _ h => h) fun _ _ h => h.alike
  refine (hk (keeps_readReg hs)).bind ?_
  rintro v _ s t ⟨rfl, h⟩
  refine (hk (keeps_onHeap _)).bind ?_ s t h
  rintro - - s t ⟨-, h⟩
  exact sim_executeReturn_whole v s t h

theorem executeNext_whole (hvm : vm.Framed) (h : Relocated vm .whole n f rest s t) :
    Matches (fun _ => False)
      (fun a b s t => a = b ∧ Alike s t ∧ (a = .continue → vm.Moved .whole s t)) Alike
      (vm.executeNext orders s) (vm.executeNext orders t) := by
  by_cases hrt : rest = [] ∧ ∃ i, f.cachedInstructions[f.pc]? = some i ∧
      (i = .retNull ∨ ∃ sr, i = .ret sr)
  · obtain ⟨rfl, i, hi, hrt⟩ := hrt
    obtain ⟨im, him, hft⟩ := h.chain.fits hi
    rw [executeNext_apply h.stack, executeNext_apply h.stack']
    show Matches _ _ _ ((f.cachedInstructions[f.pc]?).bind _) _
    rw [hi]
    have hpc := h.setPc (f.pc + 1)
    have hen : ∀ {p q : Option (Except VmError VmStep × ThreadState)}, Matches (fun _ => False)
        (fun a b s t => a = b ∧ Alike s t ∧ a ≠ .continue) Alike p q → Matches (fun _ => False)
        (fun a b s t => a = b ∧ Alike s t ∧ (a = .continue → vm.Moved .whole s t)) Alike p q :=
      fun hpq => hpq.mono (fun a b s t hq => ⟨hq.1, hq.2.1, fun ha => absurd ha hq.2.2⟩)
        fun _ _ he => he
    rcases hrt with rfl | ⟨sr, rfl⟩
    · exact hen (sim_executeReturn_whole .null _ _ hpc)
    · exact hen (sim_executeRet_whole (hft sr (by simp [Instruction.reads])).1 _ _ hpc)
  · have hnx := executeNext_relocated orders hvm h fun i hi hri hrs =>
      hrt ⟨hrs, i, hi, hri⟩
    refine (hnx.mono ?_ ?_).excuse ?_
    · rintro a b s t ⟨rfl, hm⟩
      obtain ⟨n, f, rest, hr⟩ := hm
      exact ⟨rfl, hr.alike, fun _ => ⟨n, f, rest, hr⟩⟩
    · rintro s t ⟨n, f, rest, hr⟩
      exact hr.alike
    · rintro (_ | _) he
      · exact absurd he.2 (lt_irrefl _)
      all_goals exact he

theorem step_whole (hvm : vm.Framed) (h : Relocated vm .whole n f rest s t) :
    Matches (fun _ => False)
      (fun a b s t => a = b ∧ Alike s t ∧ (a = .continue → vm.Moved .whole s t)) Alike
      (vm.step orders s) (vm.step orders t) :=
  orDrop_relocated h (fun _ _ _ ha hr => ⟨rfl, hr.alike, fun hc => absurd hc ha⟩)
    (executeNext_whole hvm h)

/-- Threads with the same runs of `step`: at each point both have the same results or errors and
like states, or both are undefined. -/
def SameRuns (vm : VirtualMachine) (orders : PrivateHeap → HashOrders) (s t : ThreadState) : Prop :=
  ∀ count, Matches (fun _ => False) (fun a b s t => a = b ∧ Alike s t) Alike
    (vm.steps orders count s) (vm.steps orders count t)

/-- The frames `f :: rest` stand on each other, where `f` has `n` registers, with code that uses the
registers of its frame only. -/
def Standing (vm : VirtualMachine) (n : ℕ) (f : CallFrame) (rest : List CallFrame)
    (t : ThreadState) : Prop :=
  Relocated vm .whole n f rest t t

/-- Whole threads that differ in the room of their register files have the same runs. -/
theorem sameRuns_of_moved (hvm : vm.Framed) (h : vm.Moved .whole s t) : vm.SameRuns orders s t := by
  intro c
  induction c generalizing s t with
  | zero =>
    obtain ⟨n, f, rest, h⟩ := h
    exact .ok ⟨rfl, h.alike⟩
  | succ c ih =>
    obtain ⟨n, f, rest, h⟩ := h
    refine Sim.bind (P := Relocated vm .whole n f rest) (fun s t h => step_whole hvm h) ?_ s t h
    rintro a _ s₁ t₁ ⟨rfl, ha, hn⟩
    cases a with
    | «continue» => exact ih (hn rfl)
    | ret | suspend => exact .ok ⟨rfl, ha⟩

def single (image : BytecodeModule) : VirtualMachine :=
  { bare with modules := fun moduleId => if moduleId = 0 then some image else none }

theorem framed_single {im : BytecodeModule}
    (h : ∀ f ∈ im.functions, ∀ i ∈ f.instructions, i.Fits im.constants f.registerCount) :
    (single im).Framed := by
  intro mi i' hi
  obtain ⟨-, rfl⟩ : mi = 0 ∧ im = i' := by
    simpa [single] using hi
  exact h

def threadOf (code : List Instruction) (registers : List VmValue) (top : ℕ) (hasObjects : Bool) :
    ThreadState :=
  ⟨[⟨0, 0, 0, 0, none, code, false⟩], registers, 0, top, hasObjects, .new (.new 8 1024) ⟨32, 16⟩,
    [], 64⟩

theorem standing_threadOf {im : BytecodeModule} {c : List Instruction}
    {rs : List VmValue} {tp : ℕ} {ho : Bool} (ht : tp ≤ rs.length)
    (h : ∀ i ∈ c, i.Fits im.constants tp) :
    (single im).Standing tp ⟨0, 0, 0, 0, none, c, false⟩ [] (threadOf c rs tp ho) where
  heap := rfl
  moduleStates := rfl
  flag := rfl
  maxCallDepth := rfl
  stack := rfl
  stack' := rfl
  base := rfl
  base' := rfl
  top := (Nat.zero_add tp).symm
  top' := (Nat.zero_add tp).symm
  top_le := (Nat.zero_add tp).trans_le ht
  top_le' := (Nat.zero_add tp).trans_le ht
  registers := .refl _ _ _
  plain := fun i hi => absurd hi (Nat.not_lt_zero i)
  chain := ⟨⟨rfl, rfl⟩, im, rfl, h⟩

/-- How much room the register file has above the frames cannot be observed. -/
theorem register_room_unobservable (hvm : vm.Framed) (h : vm.Standing n f rest t) (room room' : ℕ) :
    vm.SameRuns orders { t with registers := ThreadState.reserve 0 room t.registers }
      { t with registers := ThreadState.reserve 0 room' t.registers } :=
  sameRuns_of_moved hvm ⟨n, f, rest, h.reserveRegs room room'⟩

/-- A call with an argument, which the callee gives back. -/
def passing : List Instruction := [.call 0 1 0 1, .ret 0]

def passingModule : BytecodeModule :=
  ⟨"m", 0, [], [⟨"main", 0, 1, 0, 0, none, passing⟩, ⟨"same", 1, 0, 0, 0, none, [.ret 0]⟩],
    [], [], [], [], [], none⟩

def calling : ThreadState := threadOf passing [.bool true] 1 false

theorem register_room_unobservable_call :
    (single passingModule).SameRuns (fun _ => .byIndex) calling
      { calling with registers := [.bool true, .null, .null] } :=
  register_room_unobservable (framed_single (by decide))
    (standing_threadOf (by decide) (by decide)) 0 3

end VirtualMachine

end Galfus
