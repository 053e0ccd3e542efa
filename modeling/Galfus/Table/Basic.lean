import Mathlib.Data.List.AList
import Mathlib.Data.List.Sort

/-! # Finite tables

Tables from keys to values, with the entry of a key under a change of another one.
-/

namespace Galfus

abbrev Table (κ α : Type) := AList fun _ : κ => α

namespace Table

variable {κ α : Type} [DecidableEq κ] {t : Table κ α}

theorem lookup_insert_eq (t : Table κ α) (k k' : κ) (a : α) :
    (t.insert k a).lookup k' = if k' = k then some a else t.lookup k' := by
  split
  · next h => rw [h, AList.lookup_insert]
  · next h => rw [AList.lookup_insert_ne h]

theorem lookup_erase_eq (t : Table κ α) (k k' : κ) :
    (t.erase k).lookup k' = if k' = k then none else t.lookup k' := by
  split
  · next h => rw [h, AList.lookup_erase]
  · next h => rw [AList.lookup_erase_ne h]

/-- An entry with the default value may be left out. -/
theorem getD_lookup_put (t : Table κ α) (k k' : κ) {a d : α} {p : Prop} [Decidable p]
    (h : p → a = d) :
    ((if p then t.erase k else t.insert k a).lookup k').getD d =
      if k' = k then a else (t.lookup k').getD d := by
  split
  · next hp =>
    rw [lookup_erase_eq, h hp]
    split <;> rfl
  · rw [lookup_insert_eq]
    split <;> rfl

def update (t : Table κ α) (k : κ) (f : α → α) : Table κ α :=
  match t.lookup k with
  | some a => t.insert k (f a)
  | none => t

theorem mem_keys_iff {k : κ} : k ∈ t.keys ↔ ∃ a, t.lookup k = some a := by
  rw [← AList.mem_keys, ← AList.lookup_isSome, Option.isSome_iff_exists]

def size (t : Table κ α) : ℕ := t.keys.length

theorem notMem_keys_iff {k : κ} : k ∉ t.keys ↔ t.lookup k = none := by
  rw [← AList.mem_keys, AList.lookup_eq_none]

theorem size_insert_of_none {k : κ} (h : t.lookup k = none) (a : α) :
    size (t.insert k a) = size t + 1 := by
  unfold size
  rw [AList.keys_insert, List.erase_of_not_mem (notMem_keys_iff.mpr h)]
  rfl

theorem size_erase_of_none {k : κ} (h : t.lookup k = none) : size (t.erase k) = size t := by
  unfold size
  rw [AList.keys_erase, List.erase_of_not_mem (notMem_keys_iff.mpr h)]

theorem size_erase_of_some {k : κ} {a : α} (h : t.lookup k = some a) :
    size (t.erase k) + 1 = size t := by
  have hm : k ∈ t.keys := mem_keys_iff.mpr ⟨a, h⟩
  have hp : 0 < t.keys.length := List.length_pos_of_mem hm
  unfold size
  rw [AList.keys_erase, List.length_erase_of_mem hm]
  omega

end Table

end Galfus
