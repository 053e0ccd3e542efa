import Galfus.Vm.Metered

/-! # Budgets

How a thread is driven by `execute_with_budget` with one budget after another. The budgets
make no difference, as long as no operator fails that does not write the program counter
back, and no adapter handle waits for its drop when a budget may be used up.
-/

namespace Galfus

open Exec

variable {vm : VirtualMachine} {orders : PrivateHeap → HashOrders} {l l' : HotFrame}
  {t t' s : ThreadState} {b : ℕ}

/-- What a failed or successful run of `execute_with_budget` returns. -/
abbrev VmReport := Except VmPanic VmStep × ThreadState

/-- The results of a thread with the states that they leave, the budget that was used since
the last one, and the state. -/
structure Progress where
  results : List VmReport
  used : ℕ
  state : ThreadState

namespace VirtualMachine

open ThreadState

/-- The stack trace is that of the state. -/
def report (q : Except VmError VmStep × ThreadState) : VmReport :=
  (q.1.mapError fun e => ⟨e, q.2.stackTrace⟩, q.2)

/-- Call `execute_with_budget` with one budget after another. After each result other than
`Continue` the host acts on the thread. -/
def drive (vm : VirtualMachine) (orders : PrivateHeap → HashOrders)
    (host : Except VmPanic VmStep → ThreadState → ThreadState) :
    ℕ → List ℕ → ThreadState → Option Progress
  | used, [], t => some ⟨[], used, t⟩
  | used, b :: bs, t => do
    let r ← vm.executeWithBudget orders b t
    match r with
    | (.ok .continue, t') => drive vm orders host (used + b) bs t'
    | (r, t') =>
      (drive vm orders host 0 bs (host r t')).map fun p =>
        { p with results := (r, t') :: p.results }

/-- No round fails without writing the program counter back, and no adapter handle waits for its
drop after a round that is charged. -/
def Undisturbed (vm : VirtualMachine) (orders : PrivateHeap → HashOrders) (t : ThreadState) :
    Prop :=
  ∀ t', MeteredReach (vm.hotNext orders) t t' → ¬ FailsUnsaved t' ∧
    ∀ t'', vm.hotNext orders t' = some (.next true t'') → t''.takeDrop = none

/-- The thread has no frames, or its frames stand on each other. -/
def Ready (vm : VirtualMachine) (t : ThreadState) : Prop :=
  t.callStack = [] ∨ vm.Moved .whole t t

def dropReport (handle : AdapterHandleId) : Except VmPanic VmStep :=
  .ok (.suspend (.adapterHandleDropped handle) (.new none))

section Drive

variable {host : Except VmPanic VmStep → ThreadState → ThreadState}

/-- The states in which the thread is taken up: the first one, and what the host makes of the
state after each result. -/
inductive Starts (vm : VirtualMachine) (orders : PrivateHeap → HashOrders)
    (host : Except VmPanic VmStep → ThreadState → ThreadState) (t₀ : ThreadState) :
    ThreadState → Prop where
  | first : Starts vm orders host t₀ t₀
  | drop {t t' : ThreadState} {handle : AdapterHandleId} : Starts vm orders host t₀ t →
      t.takeDrop = some (handle, t') → Starts vm orders host t₀ (host (dropReport handle) t')
  | result {t : ThreadState} {b : ℕ} {q : Except VmError VmStep × ThreadState} :
      Starts vm orders host t₀ t → t.takeDrop = none →
      MeteredRun (vm.hotNext orders) b t (.stopped q) →
      Starts vm orders host t₀ (host (report q).1 q.2)

/-- How a thread comes to its results, whatever the budgets are. -/
inductive Driven (vm : VirtualMachine) (orders : PrivateHeap → HashOrders)
    (host : Except VmPanic VmStep → ThreadState → ThreadState) :
    ThreadState → List VmReport → ℕ → ThreadState → Prop where
  | pause {t s : ThreadState} {used : ℕ} : MeteredRun (vm.hotNext orders) used t (.paused s) →
      Driven vm orders host t [] used s
  | drop {t t' s : ThreadState} {handle : AdapterHandleId} {rs : List VmReport} {used : ℕ} :
      t.takeDrop = some (handle, t') →
      Driven vm orders host (host (dropReport handle) t') rs used s →
      Driven vm orders host t ((dropReport handle, t') :: rs) used s
  | result {t s : ThreadState} {b : ℕ} {q : Except VmError VmStep × ThreadState}
      {rs : List VmReport} {used : ℕ} : t.takeDrop = none →
      MeteredRun (vm.hotNext orders) b t (.stopped q) →
      Driven vm orders host (host (report q).1 q.2) rs used s →
      Driven vm orders host t (report q :: rs) used s

theorem Driven.unique {rs rs' : List VmReport} {u u' : ℕ} {s' : ThreadState}
    (h : Driven vm orders host t rs u s) (h' : Driven vm orders host t rs' u' s')
    (hl : rs.length = rs'.length) : rs = rs' ∧ (u = u' → s = s') := by
  induction h generalizing rs' with
  | pause hr =>
    cases h' with
    | pause hr' =>
      refine ⟨rfl, ?_⟩
      rintro rfl
      cases hr.deterministic hr'
      rfl
    | drop | result => cases hl
  | drop hd _ ih =>
    cases h' with
    | pause => cases hl
    | drop hd' h' =>
      rw [hd] at hd'
      cases hd'
      obtain ⟨rfl, hs⟩ := ih h' (Nat.succ.inj hl)
      exact ⟨rfl, hs⟩
    | result hq =>
      rw [hd] at hq
      cases hq
  | result hq hr _ ih =>
    cases h' with
    | pause => cases hl
    | drop hd =>
      rw [hq] at hd
      cases hd
    | result _ hr' h' =>
      cases hr.result_unique hr'
      obtain ⟨rfl, hs⟩ := ih h' (Nat.succ.inj hl)
      exact ⟨rfl, hs⟩

theorem Undisturbed.saves (h : vm.Undisturbed orders t) : vm.Saves orders t :=
  fun t' ht' => (h t' ht').1

theorem Undisturbed.reach (h : vm.Undisturbed orders t)
    (ht : MeteredReach (vm.hotNext orders) t t') : vm.Undisturbed orders t' :=
  fun s hs => h s (ht.trans hs)

/-- After a budget is used up no adapter handle waits for its drop. -/
theorem Undisturbed.quiet (h : vm.Undisturbed orders t)
    (hr : MeteredRun (vm.hotNext orders) (b + 1) t (.paused s)) : s.takeDrop = none := by
  obtain ⟨t', ht', hl⟩ := hr.last_paid
  exact (h t' ht').2 s hl

theorem loaded_of_moved (h : vm.Moved .whole t t) :
    ∃ l, vm.Loaded l t ∧ vm.loadFrame t = some (.ok l, t) ∧ t.setPc l.pc = t := by
  obtain ⟨n, f, r, h⟩ := h
  obtain ⟨i, hi, -⟩ := h.chain.codeFits
  have hs := Standing.callStack h
  exact ⟨f.load f.pc i, ⟨h, hi, rfl⟩, loadFrame_apply hs hi, setPc_of_stack hs⟩

theorem Loaded.moved (h : vm.Loaded l t) : vm.Moved .whole t t := by
  obtain ⟨h, -, -⟩ := h
  exact ⟨_, _, _, h⟩

section

variable (hvm : vm.Framed)
include hvm

theorem moved_next (h : vm.Moved .whole t t) (hs : ¬ FailsUnsaved t) {paid : Bool}
    (hn : vm.hotNext orders t = some (.next paid t')) : vm.Moved .whole t' t' := by
  obtain ⟨l, hl, -, hpc⟩ := loaded_of_moved h
  have hr : LoopRound vm orders l t _ := loopRound hvm hl (hpc.symm ▸ hs)
  rw [hpc, hn] at hr
  cases hr with
  | free hl' | paid hl' => exact (hl'.setPc _).moved

theorem moved_reach (h : vm.Moved .whole t t) (hs : vm.Saves orders t)
    (hr : MeteredReach (vm.hotNext orders) t t') : vm.Moved .whole t' t' := by
  induction hr with
  | refl => exact h
  | tail hr hn ih =>
    obtain ⟨p, hn⟩ := hn
    exact moved_next hvm ih (hs _ hr) hn

theorem Ready.reach (h : vm.Ready t) (hs : vm.Saves orders t)
    (hr : MeteredReach (vm.hotNext orders) t t') : vm.Ready t' := by
  rcases h with h | h
  · rcases hr.cases_head with rfl | ⟨s, ⟨p, hn⟩, -⟩
    · exact .inl h
    · rw [hotNext_of_empty h] at hn
      cases hn
  · exact .inr (moved_reach hvm h hs hr)

theorem metered_hotRun (bd : ℕ) (h : vm.Moved .whole t t) (hs : vm.Saves orders t) :
    MeteredRun (vm.hotNext orders) bd t (ending (vm.hotRun orders bd t)) := by
  obtain ⟨l, hl, hld, hpc⟩ := loaded_of_moved h
  have hr : vm.hotRun orders bd t = vm.hotLoop orders bd l t := by
    rw [hotRun, bind_apply, hld]
    rfl
  have hm := metered_hotLoop hvm bd hl (hpc.symm ▸ hs)
  rwa [hpc, ← hr] at hm

/-- One call of `execute_with_budget` without a drop: it pauses when the budget is used up, or
it ends with a result. -/
theorem executeWithBudget_metered (hr : vm.Ready t) (hs : vm.Saves orders t)
    (hqt : t.takeDrop = none) {r : VmReport} (hrn : vm.executeWithBudget orders b t = some r) :
    (r.1 = .ok .continue ∧ MeteredRun (vm.hotNext orders) b t (.paused r.2)) ∨
      ∃ q c, r = report q ∧ q.1 ≠ .ok .continue ∧
        MeteredRun (vm.hotNext orders) c t (.stopped q) := by
  rw [executeWithBudget, orDrop_apply_none hqt] at hrn
  obtain ⟨q, hl, rfl⟩ := Option.map_eq_some_iff.mp hrn
  rcases hr with hem | hmv
  · have hq : q = (.error .emptyCallStack, t) := by
      rw [hotRun_of_empty hem] at hl
      exact (Option.some.inj hl).symm
    refine .inr ⟨q, 1, rfl, by simp [hq], ?_⟩
    rw [hq]
    exact .stop (hotNext_of_empty hem)
  · have hm := metered_hotRun hvm b hmv hs
    rw [hl] at hm
    by_cases hq : q.1 = .ok .continue
    · obtain ⟨_, t'⟩ := q
      cases hq
      exact .inl ⟨rfl, hm⟩
    · rw [ending_of_ne hq] at hm
      exact .inr ⟨q, b, rfl, hq, hm⟩

/-- However the budgets are chosen, a thread comes to its results in the one way. -/
theorem driven_of_drive {t₀ : ThreadState} (h : ∀ t, Starts vm orders host t₀ t →
      vm.Ready t ∧ (t.takeDrop = none → vm.Undisturbed orders t)) {bs : List ℕ} {u : ℕ}
    {p : Progress} (ht : Starts vm orders host t₀ t)
    (hrn : MeteredRun (vm.hotNext orders) u t (.paused s))
    (hqt : u = 0 ∨ t.takeDrop = none ∧ s.takeDrop = none)
    (hdr : vm.drive orders host u bs s = some p) :
    Driven vm orders host t p.results p.used p.state := by
  induction bs generalizing u t s p with
  | nil =>
    cases hdr
    exact .pause hrn
  | cons b bs ih =>
    obtain ⟨r, hec, hdr⟩ := Option.bind_eq_some_iff.mp hdr
    cases hd : s.takeDrop with
    | some d =>
      -- only a thread that is taken up can have a drop to deliver
      obtain rfl : u = 0 := by
        rcases hqt with h | h
        · exact h
        · rw [hd] at h
          cases h.2
      cases hrn
      rw [executeWithBudget, orDrop_apply_some hd] at hec
      cases hec
      obtain ⟨p', hp', rfl⟩ := Option.map_eq_some_iff.mp hdr
      have hnx := Starts.drop ht hd
      exact .drop hd (ih hnx .pause (.inl rfl) hp')
    | none =>
      have hqt' : t.takeDrop = none := by
        rcases hqt with rfl | h
        · cases hrn
          exact hd
        · exact h.1
      obtain ⟨hrd, hun⟩ := h t ht
      have hun := hun hqt'
      have hrc := hrn.reach
      have hcl := executeWithBudget_metered hvm (hrd.reach hvm hun.saves hrc)
        (hun.reach hrc).saves hd hec
      rcases hcl with ⟨hr, hb⟩ | ⟨q, c, rfl, hq, hc⟩
      · obtain ⟨r, s'⟩ := r
        cases hr
        have hrn' := hrn.append hb
        refine ih ht hrn' ?_ hdr
        rcases Nat.eq_zero_or_pos (u + b) with hzr | hps
        · exact .inl hzr
        · obtain ⟨k, hk⟩ := Nat.exists_eq_add_of_lt hps
          rw [hk] at hrn'
          exact .inr ⟨hqt', hun.quiet hrn'⟩
      · have hst := hrn.append hc
        obtain ⟨p', hp', rfl⟩ : ∃ p', vm.drive orders host 0 bs (host (report q).1 q.2) = some p' ∧
            { p' with results := report q :: p'.results } = p := by
          obtain ⟨e | st, s'⟩ := q
          · exact Option.map_eq_some_iff.mp hdr
          · cases st with
            | «continue» => exact absurd rfl hq
            | ret | suspend => exact Option.map_eq_some_iff.mp hdr
        exact .result hqt' hst (ih (.result ht hqt' hst) .pause (.inl rfl) hp')

end

/-- Two sequences of budgets that drive a thread to the same number of results drive it to the same
results and states, if no round fails without writing the program counter back and no adapter handle
waits for its drop when a budget may be used up. -/
theorem budgets_unobservable (vm : VirtualMachine) (orders : PrivateHeap → HashOrders)
    (host : Except VmPanic VmStep → ThreadState → ThreadState) (t : ThreadState) (bs cs : List ℕ)
    (p q : Progress) (hvm : vm.Framed)
    (h : ∀ t', Starts vm orders host t t' →
      vm.Ready t' ∧ (t'.takeDrop = none → vm.Undisturbed orders t'))
    (hp : vm.drive orders host 0 bs t = some p) (hq : vm.drive orders host 0 cs t = some q)
    (hlen : p.results.length = q.results.length) :
    p.results = q.results ∧ (p.used = q.used → p.state = q.state) := by
  have hdp := driven_of_drive hvm h .first .pause (.inl rfl) hp
  have hdq := driven_of_drive hvm h .first .pause (.inl rfl) hq
  exact hdp.unique hdq hlen

end Drive

def loopModule (code : List Instruction) : BytecodeModule :=
  ⟨"m", 0, [], [⟨"main", 0, 1, 0, 0, none, code⟩], [], [], [], [], [], none⟩

/-- The thread in the callee. -/
def inCallee : ThreadState :=
  { calling with
    callStack := [⟨0, 1, 0, 1, some 0, [.ret 0], false⟩, ⟨0, 0, 1, 0, none, passing, false⟩]
    registers := [.bool true, .bool true]
    currentRegisterBase := 1
    currentRegisterTop := 2 }

def afterCall : ThreadState := { calling.setPc 1 with registers := [.bool true, .bool true] }

abbrev nextPassing := (single passingModule).hotNext fun _ => .byIndex

theorem next_calling : nextPassing calling = some (.next true inCallee) := rfl

theorem next_inCallee : nextPassing inCallee = some (.next true afterCall) := rfl

theorem next_afterCall : nextPassing afterCall =
    some (.stop (.ok (.ret (.bool true) 0 0), { afterCall with
      callStack := [], currentRegisterTop := 0, currentFrameHasObjects := false })) := rfl

/-- What `calling` reaches, and what comes after that. -/
theorem calling_reach (h : MeteredReach nextPassing calling t') :
    (t' = calling ∨ t' = inCallee ∨ t' = afterCall) ∧ ∀ p s,
      nextPassing t' = some (.next p s) → s = inCallee ∨ s = afterCall := by
  have hnx {t' p s} (ht : t' = calling ∨ t' = inCallee ∨ t' = afterCall)
      (hn : nextPassing t' = some (.next p s)) : s = inCallee ∨ s = afterCall := by
    rcases ht with rfl | rfl | rfl
    · cases next_calling.symm.trans hn
      exact .inl rfl
    · cases next_inCallee.symm.trans hn
      exact .inr rfl
    · cases next_afterCall.symm.trans hn
  suffices ht : t' = calling ∨ t' = inCallee ∨ t' = afterCall from ⟨ht, fun _ _ => hnx ht⟩
  induction h with
  | refl => exact .inl rfl
  | tail _ hn ih =>
    obtain ⟨p, hn⟩ := hn
    exact .inr (hnx ih hn)

theorem calling_starts
    (h : Starts (single passingModule) (fun _ => .byIndex) (fun _ t => t) calling t') :
    t' = calling ∨ t'.callStack = [] ∧ t'.takeDrop = none := by
  induction h with
  | first => exact .inl rfl
  | drop _ hd ih =>
    rcases ih with rfl | ⟨-, hq⟩
    · cases hd
    · rw [hq] at hd
      cases hd
  | result _ _ hr ih =>
    rcases ih with rfl | ⟨hem, hq⟩
    · have hrn := MeteredRun.paid (b := 2) next_calling
        (.paid next_inCallee (.stop next_afterCall))
      cases hrn.result_unique hr
      exact .inr ⟨rfl, rfl⟩
    · cases (MeteredRun.stop (b := 0) (hotNext_of_empty hem)).result_unique hr
      exact .inr ⟨hem, hq⟩

theorem budgets_unobservable_call :
    ∃ p q, (single passingModule).drive (fun _ => .byIndex) (fun _ t => t) 0 [3] calling = some p ∧
      (single passingModule).drive (fun _ => .byIndex) (fun _ t => t) 0 [1, 2] calling = some q ∧
      p.results.length = 1 ∧ p.results = q.results ∧ (p.used = q.used → p.state = q.state) := by
  have hd (bs : List ℕ) (h : bs = [3] ∨ bs = [1, 2]) : ((single passingModule).drive
      (fun _ => .byIndex) (fun _ t => t) 0 bs calling).map (·.results.length) = some 1 := by
    rcases h with rfl | rfl <;> decide +kernel
  obtain ⟨p, hp, hlp⟩ := Option.map_eq_some_iff.mp (hd [3] (.inl rfl))
  obtain ⟨q, hq, hlq⟩ := Option.map_eq_some_iff.mp (hd [1, 2] (.inr rfl))
  refine ⟨p, q, hp, hq, hlp, budgets_unobservable _ _ _ calling [3] [1, 2] p q
    (framed_single (by decide)) (fun t' ht' => ?_) hp hq (hlp.trans hlq.symm)⟩
  rcases calling_starts ht' with rfl | ⟨hem, -⟩
  · refine ⟨.inr ⟨_, _, _, standing_threadOf (by decide) (by decide)⟩, fun _ s hs => ?_⟩
    constructor
    · rcases (calling_reach hs).1 with rfl | rfl | rfl <;> rintro ⟨_, _, _, ⟨⟩, ⟨⟩, ⟨⟩⟩
    · intro s' hn
      rcases (calling_reach hs).2 _ s' hn with rfl | rfl <;> rfl
  · refine ⟨.inl hem, fun _ s hs => ?_⟩
    obtain rfl : t' = s := by
      rcases hs.cases_head with rfl | ⟨_, ⟨_, hnx⟩, -⟩
      · rfl
      · rw [hotNext_of_empty hem] at hnx
        cases hnx
    constructor
    · rintro ⟨_, _, _, hst, -⟩
      rw [hem] at hst
      cases hst
    · intro s hnx
      rw [hotNext_of_empty hem] at hnx
      cases hnx

/-- The results of a thread: the traces of failures, the handles of drops, and the program counters
that the frames have saved. -/
def resultsOf (code : List Instruction) (t : ThreadState) (budgets : List ℕ) :
    Option (List (List StackFrameInfo × Option AdapterHandleId × List ℕ)) :=
  ((single (loopModule code)).drive (fun _ => .byIndex) (fun _ t => t) 0 budgets t).map fun p =>
    p.results.map fun r =>
      (match r.1 with | .error e => e.stackTrace | .ok _ => [],
        match r.1 with
        | .ok (.suspend (.adapterHandleDropped handle) _) => some handle
        | _ => none,
        r.2.callStack.map CallFrame.pc)

/-- Two jumps, and an operator that fails on null. -/
def failing : List Instruction := [.jump 0, .jump 0, .binaryImmediate 0 0 .add (.i32 1)]

/-- The last use of an adapter handle, and a jump. -/
def dropping : List Instruction := [.loadNull 0, .jump 0, .retNull]

def handleThread : ThreadState :=
  { threadOf dropping [.object ⟨0, 1⟩] 1 true with
    heap := { PrivateHeap.new (.new 8 1024) ⟨32, 16⟩ with
      objects := [.fresh 1 (.adapterHandle ⟨0, ⟨"m", "T"⟩, 7⟩)] } }

/-- A failure that leaves the program counter where a budget was used up, and a drop that is
delivered only if a budget is used up after it. -/
theorem budgets_observable :
    resultsOf failing (threadOf failing [.null] 1 false) [3] = some [([⟨0, 0, 0⟩], none, [0])] ∧
    resultsOf failing (threadOf failing [.null] 1 false) [2, 1] = some [([⟨0, 0, 1⟩], none, [2])] ∧
    resultsOf dropping handleThread [2] = some [([], none, [])] ∧
    resultsOf dropping handleThread [1, 1] = some [([], some ⟨0, ⟨"m", "T"⟩, 7⟩, [2])] := by
  refine ⟨by decide, by decide, by decide, by decide⟩

end VirtualMachine

end Galfus
