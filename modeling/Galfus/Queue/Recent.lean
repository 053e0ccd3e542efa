import Mathlib.Data.Finset.Insert
import Mathlib.Data.Finset.Erase

/-! # The most recent entries

A queue that forgets its oldest entry when it is full, with an index for membership. While
no entry is recorded twice, the index holds the last entries that were recorded.
-/

namespace Galfus

/-- A bounded queue, oldest entry first, and the set of its entries. -/
structure Recent (α : Type) where
  queue : List α
  index : Finset α

namespace Recent

variable {α : Type} [DecidableEq α] {bound : ℕ} {seen : List α} {q : Recent α} {x y : α}

def empty : Recent α := ⟨[], ∅⟩

def record (bound : ℕ) (x : α) (q : Recent α) : Recent α :=
  let kept : Recent α :=
    match q.queue with
    | oldest :: rest =>
      if bound ≤ q.queue.length then ⟨rest, q.index.erase oldest⟩ else q
    | [] => q
  ⟨kept.queue ++ [x], insert x kept.index⟩

/-- The queue holds the last entries of `seen`. -/
structure Keeps (bound : ℕ) (seen : List α) (q : Recent α) : Prop where
  queue_eq : q.queue = seen.drop (seen.length - bound)
  mem_index : ∀ x, x ∈ q.index ↔ x ∈ q.queue

omit [DecidableEq α] in
theorem keeps_empty : Keeps bound [] (empty : Recent α) :=
  ⟨by simp [empty], by simp [empty]⟩

theorem Keeps.record (h : Keeps bound seen q) (hbn : 0 < bound) (hnd : (seen ++ [x]).Nodup) :
    Keeps bound (seen ++ [x]) (q.record bound x) := by
  have hln : q.queue.length = min seen.length bound := by
    rw [h.queue_eq, List.length_drop]
    omega
  have hqu : q.queue.Nodup := by
    rw [h.queue_eq]
    exact (List.nodup_append.mp hnd).1.sublist (List.drop_sublist _ _)
  unfold Recent.record
  cases hq : q.queue with
  | nil =>
    have hsn : seen = [] := by
      rw [hq, List.length_nil] at hln
      exact List.eq_nil_of_length_eq_zero (by omega)
    subst hsn
    refine ⟨by simp [hq, show 1 - bound = 0 by omega], fun y => ?_⟩
    simp [h.mem_index, hq, or_comm]
  | cons o r =>
    rw [hq] at hln hqu
    by_cases hfl : bound ≤ (o :: r).length
    · -- the oldest entry leaves the queue and the index
      have hrs : r = seen.drop (seen.length - bound + 1) := by
        rw [← List.tail_drop, ← h.queue_eq, hq, List.tail_cons]
      refine ⟨?_, fun y => ?_⟩
      · simp only [if_pos hfl]
        rw [hrs, List.length_append, List.length_singleton,
          show seen.length + 1 - bound = seen.length - bound + 1 by omega,
          List.drop_append_of_le_length (by omega)]
      · have hne : y ∈ r → y ≠ o := fun hy heq =>
          (List.nodup_cons.mp hqu).1 (heq ▸ hy)
        simp only [if_pos hfl, Finset.mem_insert, Finset.mem_erase, h.mem_index, hq,
          List.mem_cons, List.mem_append, List.not_mem_nil, or_false]
        tauto
    · have hsh : seen.length < bound := by omega
      refine ⟨?_, fun y => ?_⟩
      · simp only [if_neg hfl]
        rw [h.queue_eq, show seen.length - bound = 0 by omega, List.drop_zero, List.length_append,
          List.length_singleton, show seen.length + 1 - bound = 0 by omega, List.drop_zero]
      · simp only [if_neg hfl, Finset.mem_insert, h.mem_index, List.mem_append,
          List.mem_singleton, or_comm]

end Recent

end Galfus
