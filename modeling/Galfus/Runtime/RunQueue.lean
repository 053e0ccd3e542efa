import Mathlib.Data.List.Nodup
import Galfus.Runtime.Kernel

/-! # The run queue as a list

A thread that is removed from the run queue leaves its entry behind, and the entry is passed
over later. The entries that count, which are those with the current token of their thread,
are a list without duplicates, and each operation does to that list what its name says.
-/

namespace Galfus

inductive QueueOp where
  | enqueue (id : ℕ)
  | enqueueFront (id : ℕ)
  | remove (id : ℕ)
  | dequeue

inductive QueueAnswer where
  | done
  | removed (found : Bool)
  | next (entry : Option (ℕ × Bool))
  deriving DecidableEq

/-- The answers to a sequence of operations and the state after it. -/
def runOps {σ ι ο : Type} (step : σ → ι → ο × σ) (s : σ) : List ι → List ο × σ
  | [] => ([], s)
  | op :: ops =>
    let (answer, s) := step s op
    let (answers, s) := runOps step s ops
    (answer :: answers, s)

/-- Threads in the order in which they run, each with whether it came in at the front. -/
abbrev RunList := List (ℕ × Bool)

namespace RunList

def ids (l : RunList) : List ℕ := l.map Prod.fst

def step (l : RunList) : QueueOp → QueueAnswer × RunList
  | .enqueue id => (.done, if id ∈ l.ids then l else l ++ [(id, false)])
  | .enqueueFront id => (.done, if id ∈ l.ids then l else (id, true) :: l)
  | .remove id => (.removed (decide (id ∈ l.ids)), l.filter (·.1 ≠ id))
  | .dequeue => (.next l.head?, l.tail)

end RunList

namespace RunnableQueue

variable {q : RunnableQueue} {l : RunList} {id n : ℕ}

def isEmpty (q : RunnableQueue) : Bool := q.queued.keys.isEmpty

def len (q : RunnableQueue) : ℕ := q.queued.size

def step (q : RunnableQueue) : QueueOp → QueueAnswer × RunnableQueue
  | .enqueue id => (.done, q.enqueue id)
  | .enqueueFront id => (.done, q.enqueueFront id)
  | .remove id => (q.remove id).map .removed fun q => q
  | .dequeue => q.dequeueDetailed.map .next fun q => q

def live (queued : Table ℕ ℕ) (queue : List (ℕ × ℕ × Bool)) : RunList :=
  (queue.filter fun e => queued.lookup e.1 = some e.2.1).map fun e => (e.1, e.2.2)

/-- The entries that count are those of the list, and at most `n` tokens have been used. -/
structure Represents (n : ℕ) (q : RunnableQueue) (l : RunList) : Prop where
  live_eq : live q.queued q.queue = l
  nodup : l.ids.Nodup
  contains_iff : ∀ id, q.contains id = true ↔ id ∈ l.ids
  token_le : ∀ e ∈ q.queue, e.2.1 ≤ q.nextToken
  nextToken_le : q.nextToken ≤ n

theorem represents_new : Represents 0 new [] := by
  constructor <;> simp [new, live, RunList.ids, contains]

/-- A new token makes no old entry count. -/
theorem live_insert {qu : List (ℕ × ℕ × Bool)} {qd : Table ℕ ℕ} {t : ℕ}
    (hid : qd.lookup id = none) (ht : ∀ e ∈ qu, e.2.1 ≠ t) :
    live (qd.insert id t) qu = live qd qu := by
  refine congrArg (List.map _) (List.filter_congr fun e he => ?_)
  rw [Table.lookup_insert_eq]
  split
  · next heq =>
    have hne := ht e he
    rw [heq, hid]
    simp [hne.symm]
  · rfl

theorem live_erase (qu : List (ℕ × ℕ × Bool)) (qd : Table ℕ ℕ) :
    live (qd.erase id) qu = (live qd qu).filter (·.1 ≠ id) := by
  rw [live, live, List.filter_map, List.filter_filter]
  refine congrArg (List.map _) (List.filter_congr fun e _ => ?_)
  rw [Table.lookup_erase_eq]
  by_cases h : e.1 = id <;> simp [h]

theorem dequeueFrom_cases (qd : Table ℕ ℕ) (qu : List (ℕ × ℕ × Bool)) :
    (live qd qu = [] ∧ dequeueFrom qd qu = (none, [], qd)) ∨
      ∃ id t f r, qd.lookup id = some t ∧ r ⊆ qu ∧ live qd qu = (id, f) :: live qd r ∧
        dequeueFrom qd qu = (some (id, f), r, qd.erase id) := by
  induction qu with
  | nil => exact .inl ⟨rfl, rfl⟩
  | cons e r ih =>
    obtain ⟨id, t, f⟩ := e
    by_cases h : qd.lookup id = some t
    · exact .inr ⟨id, t, f, r, h, List.subset_cons_self _ _, by simp [live, h],
        by rw [dequeueFrom, if_pos h]⟩
    · have hl : live qd ((id, t, f) :: r) = live qd r := by
        simp [live, h]
      rw [dequeueFrom, if_neg h, hl]
      rcases ih with ih | ⟨id, t, f, r, hid, hs, ih⟩
      · exact .inl ih
      · exact .inr ⟨id, t, f, r, hid, List.subset_cons_of_subset _ hs, ih⟩

namespace Represents

theorem lookup_eq_none (h : Represents n q l) (hid : id ∉ l.ids) : q.queued.lookup id = none := by
  rw [← h.contains_iff, contains, Bool.not_eq_true, Option.isSome_eq_false_iff,
    Option.isNone_iff_eq_none] at hid
  exact hid

theorem wrappingSucc_eq (h : Represents n q l) (hn : n + 1 < usizeSize) :
    wrappingSucc q.nextToken = q.nextToken + 1 := by
  have := h.nextToken_le
  exact Nat.mod_eq_of_lt (by omega)

/-- An entry with a new token is added to the queue, at one of its ends. -/
theorem push (h : Represents n q l) (hid : id ∉ l.ids) {qu : List (ℕ × ℕ × Bool)}
    {l' : RunList} {f : Bool} (hq : qu.Perm ((id, q.nextToken + 1, f) :: q.queue))
    (hl : l'.Perm ((id, f) :: l))
    (hlv : live (q.queued.insert id (q.nextToken + 1)) qu = l') :
    Represents (n + 1) ⟨qu, q.queued.insert id (q.nextToken + 1), q.nextToken + 1⟩ l' := by
  have hi : l'.ids.Perm (id :: l.ids) := hl.map Prod.fst
  constructor
  · exact hlv
  · exact hi.nodup_iff.mpr (List.nodup_cons.mpr ⟨hid, h.nodup⟩)
  · intro k
    rw [hi.mem_iff, List.mem_cons, ← h.contains_iff]
    simp only [contains, Table.lookup_insert_eq]
    split <;> simp [*]
  · intro e he
    rcases List.mem_cons.mp (hq.mem_iff.mp he) with rfl | he
    · exact le_rfl
    · exact (h.token_le e he).trans (Nat.le_succ _)
  · exact Nat.succ_le_succ h.nextToken_le

theorem live_push (h : Represents n q l) (hid : id ∉ l.ids) :
    live (q.queued.insert id (q.nextToken + 1)) q.queue = l := by
  rw [live_insert (h.lookup_eq_none hid), h.live_eq]
  intro e he heq
  have := h.token_le e he
  omega

theorem enqueue (h : Represents n q l) (hn : n + 1 < usizeSize) (id : ℕ) :
    Represents (n + 1) (q.enqueue id) (l.step (.enqueue id)).2 := by
  unfold RunnableQueue.enqueue RunList.step
  simp only [h.contains_iff, h.wrappingSucc_eq hn]
  split
  · exact { h with nextToken_le := h.nextToken_le.trans (Nat.le_succ n) }
  · next hid =>
    refine h.push hid (List.perm_append_singleton _ _) (List.perm_append_singleton _ _) ?_
    have := h.live_push hid
    simp_all [live]

theorem enqueueFront (h : Represents n q l) (hn : n + 1 < usizeSize) (id : ℕ) :
    Represents (n + 1) (q.enqueueFront id) (l.step (.enqueueFront id)).2 := by
  unfold RunnableQueue.enqueueFront RunList.step
  simp only [h.contains_iff, h.wrappingSucc_eq hn]
  split
  · exact { h with nextToken_le := h.nextToken_le.trans (Nat.le_succ n) }
  · next hid =>
    refine h.push hid .rfl .rfl ?_
    have := h.live_push hid
    simp_all [live]

theorem remove (h : Represents n q l) (id : ℕ) :
    Represents n (q.remove id).2 (l.filter (·.1 ≠ id)) := by
  have hi : RunList.ids (l.filter (·.1 ≠ id)) = l.ids.filter (· ≠ id) := by
    simp [RunList.ids, List.filter_map, Function.comp_def]
  constructor
  · exact (live_erase _ _).trans (congrArg _ h.live_eq)
  · rw [hi]
    exact h.nodup.filter _
  · intro k
    rw [hi, List.mem_filter, ← h.contains_iff]
    simp only [contains, RunnableQueue.remove, Table.lookup_erase_eq]
    split <;> simp [*]
  · exact h.token_le
  · exact h.nextToken_le

theorem dequeue (h : Represents n q l) :
    q.dequeueDetailed.1 = l.head? ∧ Represents n q.dequeueDetailed.2 l.tail := by
  unfold dequeueDetailed
  rcases dequeueFrom_cases q.queued q.queue with
    ⟨hl, heq⟩ | ⟨id, token, front, rest, -, hs, hl, heq⟩
  · obtain rfl : l = [] := h.live_eq.symm.trans hl
    rw [heq]
    exact ⟨rfl, { h with live_eq := rfl, token_le := by simp }⟩
  · obtain rfl : l = (id, front) :: live q.queued rest := h.live_eq.symm.trans hl
    -- no later entry of the list is of this thread
    have ht : ((id, front) :: live q.queued rest).filter (·.1 ≠ id) = live q.queued rest := by
      rw [List.filter_cons_of_neg (by simp), List.filter_eq_self]
      rintro e he
      have hne := List.rel_of_pairwise_cons h.nodup (List.mem_map_of_mem he)
      simpa using hne.symm
    have hr := h.remove id
    rw [ht] at hr
    rw [heq]
    refine ⟨rfl, { hr with live_eq := ?_, token_le := fun e he => h.token_le e (hs he) }⟩
    rw [live_erase, ← ht, List.filter_cons_of_neg (by simp)]
    simp

theorem step (h : Represents n q l) (hn : n + 1 < usizeSize) (op : QueueOp) :
    (q.step op).1 = (l.step op).1 ∧ Represents (n + 1) (q.step op).2 (l.step op).2 := by
  have hm {q l} (h : Represents n q l) : Represents (n + 1) q l :=
    { h with nextToken_le := h.nextToken_le.trans (Nat.le_succ n) }
  cases op with
  | enqueue id => exact ⟨rfl, h.enqueue hn id⟩
  | enqueueFront id => exact ⟨rfl, h.enqueueFront hn id⟩
  | remove id =>
    refine ⟨congrArg QueueAnswer.removed ?_, hm (h.remove id)⟩
    exact Bool.eq_iff_iff.mpr ((h.contains_iff id).trans decide_eq_true_iff.symm)
  | dequeue => exact ⟨congrArg QueueAnswer.next h.dequeue.1, hm h.dequeue.2⟩

theorem run (h : Represents n q l) (o : List QueueOp) (hn : n + o.length < usizeSize) :
    (runOps RunnableQueue.step q o).1 = (runOps RunList.step l o).1 ∧
      Represents (n + o.length) (runOps RunnableQueue.step q o).2 (runOps RunList.step l o).2 := by
  induction o generalizing n q l with
  | nil => exact ⟨rfl, h⟩
  | cons op o ih =>
    rw [List.length_cons] at hn ⊢
    obtain ⟨han, hs⟩ := h.step (by omega) op
    obtain ⟨ha, hr⟩ := ih hs (by omega)
    exact ⟨congrArg₂ List.cons han ha, by rwa [Nat.add_comm o.length, ← Nat.add_assoc]⟩

theorem keys_perm (h : Represents n q l) : q.queued.keys.Perm l.ids := by
  refine (List.perm_ext_iff_of_nodup q.queued.keys_nodup h.nodup).mpr fun id => ?_
  rw [← h.contains_iff, Table.mem_keys_iff, contains, Option.isSome_iff_exists]

theorem len_eq (h : Represents n q l) : q.len = l.length :=
  h.keys_perm.length_eq.trans (List.length_map _)

theorem isEmpty_eq (h : Represents n q l) : q.isEmpty = l.isEmpty := by
  rw [isEmpty, h.keys_perm.isEmpty_eq, RunList.ids, List.isEmpty_map]

end Represents

/-- The run queue behaves as a list without duplicates. -/
theorem run_eq_runList (ops : List QueueOp) (h : ops.length < 2 ^ 64) :
    let q := (runOps step new ops).2
    let l := (runOps RunList.step [] ops).2
    (runOps step new ops).1 = (runOps RunList.step [] ops).1 ∧ l.ids.Nodup ∧
      q.len = l.length ∧ q.isEmpty = l.isEmpty ∧ ∀ id, q.contains id = decide (id ∈ l.ids) := by
  obtain ⟨ha, hr⟩ := represents_new.run ops (by unfold usizeSize; omega)
  refine ⟨ha, hr.nodup, hr.len_eq, hr.isEmpty_eq, fun id => ?_⟩
  exact Bool.eq_iff_iff.mpr ((hr.contains_iff id).trans decide_eq_true_iff.symm)

/-- A thread that is removed and comes back runs at its new place. -/
theorem run_eq_runList_of_return :
    (runOps step new [.enqueue 1, .enqueue 2, .remove 1, .enqueue 1, .dequeue, .dequeue]).1 =
      [.done, .done, .removed true, .done, .next (some (2, false)), .next (some (1, false))] :=
  (run_eq_runList _ (by decide)).1.trans (by decide)

end RunnableQueue

end Galfus
