import Galfus.Vm.Metered

/-! # The end of the metered loop

A round of the loop that is not charged to the budget only moves the program counter on, so the
loop makes finitely many rounds with every budget.
-/

namespace Galfus.VirtualMachine

variable {vm : VirtualMachine} {orders : PrivateHeap → HashOrders}

/-- What the loop returns at the end of its rounds. -/
def loopResult : MeteredEnd (HotFrame × ThreadState) (Except VmError VmStep × ThreadState) →
    Option (Except VmError VmStep × ThreadState)
  | .paused s => some (.ok .continue, s.2.setPc s.1.pc)
  | .stopped r => some r
  | .stuck => none

variable {budget : ℕ} {s s' : HotFrame × ThreadState}

theorem hotLoop_of_run {e : MeteredEnd _ _} (h : MeteredRun (vm.loopNext orders) budget s e) :
    vm.hotLoop orders budget s.1 s.2 = loopResult e := by
  induction h with
  | pause => rfl
  | free hn _ ih | paid hn _ ih =>
    rw [hotLoop_loopNext, hn]
    exact ih
  | stop hn | stuck hn =>
    rw [hotLoop_loopNext, hn]
    rfl

theorem loopNext_free (h : vm.loopNext orders s = some (.next false s')) :
    s.1.pc < s.1.instructions.length ∧ s'.1 = { s.1 with pc := s.1.pc + 1 } := by
  obtain ⟨i, hi, h⟩ := Option.bind_eq_some_iff.mp h
  obtain ⟨⟨e | next, u⟩, hr, h⟩ := Option.map_eq_some_iff.mp h
  · cases h
  · have hrg := regular_hotInstruction _ _ _ hr
    cases next with
    | advance l =>
      cases h
      exact ⟨(List.getElem?_eq_some_iff.mp hi).1, hrg⟩
    | spend | done => cases h

theorem loop_ends (vm : VirtualMachine) (orders : PrivateHeap → HashOrders) (budget : ℕ)
    (s : HotFrame × ThreadState) : ∃ e, MeteredRun (vm.loopNext orders) budget s e := by
  -- the rounds that are not charged go on towards the end of the function
  refine MeteredRun.exists_of_measure (fun s => s.1.instructions.length - s.1.pc)
    (fun s s' h => ?_) budget s
  obtain ⟨hlt, heq⟩ := loopNext_free h
  simp only [heq]
  omega

/-- A round that is not charged goes on with the next instruction of its function, and the loop
ends with every budget: it has spent it, an instruction ends it or one does not return. -/
theorem hotLoop_ends (vm : VirtualMachine) (orders : PrivateHeap → HashOrders) (budget : ℕ)
    (s : HotFrame × ThreadState) :
    (∀ s', vm.loopNext orders s = some (.next false s') →
      s.1.pc < s.1.instructions.length ∧ s'.1 = { s.1 with pc := s.1.pc + 1 }) ∧
    ∃ e, MeteredRun (vm.loopNext orders) budget s e ∧
      vm.hotLoop orders budget s.1 s.2 = loopResult e := by
  constructor
  · intro s' h
    exact loopNext_free h
  · obtain ⟨e, h⟩ := vm.loop_ends orders budget s
    exact ⟨e, h, hotLoop_of_run h⟩

end Galfus.VirtualMachine
