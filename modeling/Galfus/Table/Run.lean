import Galfus.Table.Basic

/-! # Runs of keys

The entries that a table has from a key on without a gap.
-/

namespace Galfus.Table

variable {α : Type} {t : Table ℕ α}

def run (t : Table ℕ α) : ℕ → ℕ → List α
  | 0, _ => []
  | bound + 1, n =>
    match t.lookup n with
    | some a => a :: t.run bound (n + 1)
    | none => []

theorem run_of_some {n : ℕ} {a : α} (h : t.lookup n = some a) (b : ℕ) :
    t.run (b + 1) n = a :: t.run b (n + 1) := by
  rw [run, h]

theorem run_of_none {n : ℕ} (h : t.lookup n = none) (b : ℕ) : t.run b n = [] := by
  cases b with
  | zero => rfl
  | succ b => rw [run, h]

theorem run_congr {t' : Table ℕ α} {n : ℕ} (h : ∀ m, n ≤ m → t.lookup m = t'.lookup m) (b : ℕ) :
    t.run b n = t'.run b n := by
  induction b generalizing n with
  | zero => rfl
  | succ b ih =>
    rw [run, run, h n le_rfl, ih fun m hm => h m (Nat.le_of_succ_le hm)]

theorem run_erase (t : Table ℕ α) (b n : ℕ) : run (t.erase n) b (n + 1) = t.run b (n + 1) :=
  run_congr (fun m hm => by rw [lookup_erase_eq, if_neg (by omega)]) b

/-- The run ends at a key that is missing if as many entries are taken as there are. -/
theorem lookup_run_end {b n : ℕ} (h : t.size ≤ b) : t.lookup (n + (t.run b n).length) = none := by
  induction b generalizing t n with
  | zero =>
    have hk : t.keys = [] := List.length_eq_zero_iff.mp (Nat.le_zero.mp h)
    refine notMem_keys_iff.mp ?_
    rw [hk]
    exact List.not_mem_nil
  | succ b ih =>
    cases hn : t.lookup n with
    | none => rwa [run_of_none hn]
    | some a =>
      have hs := size_erase_of_some hn
      have hen := @ih (t.erase n) (n + 1) (by omega)
      rw [run_erase, lookup_erase_eq, if_neg (by omega)] at hen
      rwa [run_of_some hn, List.length_cons, Nat.add_comm _ 1, ← Nat.add_assoc]

end Galfus.Table
