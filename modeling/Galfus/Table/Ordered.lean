import Mathlib.Order.Lattice
import Mathlib.Data.List.Induction
import Mathlib.Data.List.Perm.Basic
import Mathlib.Data.List.Pairwise

/-! # Ordered tables

Tables whose entries are kept in ascending order of their keys. A table is determined by
its lookups.
-/

namespace Galfus

structure OrderedTable (κ α : Type) [LinearOrder κ] where
  entries : List (κ × α)
  sorted : entries.Pairwise fun a b => a.1 < b.1

namespace OrderedTable

variable {κ α β : Type} [LinearOrder κ] {k : κ} {a : α} {l : List (κ × α)} {t : OrderedTable κ α}

instance [DecidableEq α] : DecidableEq (OrderedTable κ α) := fun s t =>
  decidable_of_iff (s.entries = t.entries) ⟨fun h => by cases s; cases t; cases h; rfl,
    fun h => h ▸ rfl⟩

def empty : OrderedTable κ α := ⟨[], List.Pairwise.nil⟩

def lookup (t : OrderedTable κ α) (k : κ) : Option α :=
  (t.entries.find? (·.1 = k)).map (·.2)

def keys (t : OrderedTable κ α) : List κ := t.entries.map (·.1)

def values (t : OrderedTable κ α) : List α := t.entries.map (·.2)

/-- Put an entry in its place, instead of one with the same key. -/
def insertEntry (k : κ) (a : α) : List (κ × α) → List (κ × α)
  | [] => [(k, a)]
  | e :: rest =>
    if k < e.1 then (k, a) :: e :: rest
    else if k = e.1 then (k, a) :: rest
    else e :: insertEntry k a rest

theorem mem_insertEntry {e : κ × α} (h : e ∈ insertEntry k a l) : e = (k, a) ∨ e ∈ l := by
  induction l with
  | nil => exact .inl (List.mem_singleton.mp h)
  | cons e' l ih =>
    unfold insertEntry at h
    split at h
    · exact List.mem_cons.mp h
    · split at h
      · exact (List.mem_cons.mp h).imp_right (List.mem_cons_of_mem _)
      · rcases List.mem_cons.mp h with rfl | h
        · exact .inr List.mem_cons_self
        · exact (ih h).imp_right (List.mem_cons_of_mem _)

theorem sorted_insertEntry (k : κ) (a : α) (h : l.Pairwise fun a b => a.1 < b.1) :
    (insertEntry k a l).Pairwise fun a b => a.1 < b.1 := by
  induction l with
  | nil => exact List.pairwise_singleton _ _
  | cons e l ih =>
    obtain ⟨he, hl⟩ := List.pairwise_cons.mp h
    unfold insertEntry
    split
    · next hlt =>
      refine List.pairwise_cons.mpr ⟨fun e' he' => ?_, h⟩
      rcases List.mem_cons.mp he' with rfl | he'
      · exact hlt
      · exact hlt.trans (he e' he')
    · next hge =>
      split
      · next heq => exact List.pairwise_cons.mpr ⟨fun e' he' => heq ▸ he e' he', hl⟩
      · next hne =>
        refine List.pairwise_cons.mpr ⟨fun e' he' => ?_, ih hl⟩
        rcases mem_insertEntry he' with rfl | he'
        · exact lt_of_le_of_ne (not_lt.mp hge) (Ne.symm hne)
        · exact he e' he'

def insert (t : OrderedTable κ α) (k : κ) (a : α) : OrderedTable κ α :=
  ⟨insertEntry k a t.entries, sorted_insertEntry k a t.sorted⟩

def erase (t : OrderedTable κ α) (k : κ) : OrderedTable κ α :=
  ⟨t.entries.filter (·.1 ≠ k), t.sorted.filter _⟩

def mapValues (f : α → β) (t : OrderedTable κ α) : OrderedTable κ β :=
  ⟨t.entries.map fun e => (e.1, f e.2), List.pairwise_map.mpr t.sorted⟩

/-- The table of a list of entries, where a later entry replaces an earlier one. -/
def ofList (l : List (κ × α)) : OrderedTable κ α :=
  l.foldl (fun t e => t.insert e.1 e.2) empty

theorem nodup (t : OrderedTable κ α) : t.entries.Nodup :=
  t.sorted.imp fun h heq => (heq ▸ h).false

theorem lookup_eq_some : t.lookup k = some a ↔ (k, a) ∈ t.entries := by
  obtain ⟨l, hl⟩ := t
  unfold lookup
  induction l with
  | nil => simp
  | cons e l ih =>
    obtain ⟨he, hl⟩ := List.pairwise_cons.mp hl
    rw [List.mem_cons, List.find?_cons]
    by_cases hk : e.1 = k
    · subst hk
      simp only [decide_true, Option.map_some, Option.some.injEq]
      constructor
      · rintro rfl
        exact .inl rfl
      · rintro (h | h)
        · rw [← h]
        · exact absurd (he _ h) (lt_irrefl _)
    · simp only [hk, decide_false]
      rw [ih hl, or_iff_right]
      rintro rfl
      exact hk rfl

theorem ext_lookup {s : OrderedTable κ α} (h : ∀ k, s.lookup k = t.lookup k) : s = t := by
  have hm (e : κ × α) : e ∈ s.entries ↔ e ∈ t.entries := by
    rw [← lookup_eq_some, ← lookup_eq_some, h]
  have heq : s.entries = t.entries :=
    List.Perm.eq_of_pairwise (fun a b _ _ hab hba => absurd hab hba.not_gt) s.sorted t.sorted
      ((List.perm_ext_iff_of_nodup s.nodup t.nodup).mpr hm)
  cases s
  cases t
  cases heq
  rfl

theorem mem_values : a ∈ t.values ↔ ∃ k, t.lookup k = some a := by
  simp only [values, List.mem_map, lookup_eq_some]
  constructor
  · rintro ⟨e, he, rfl⟩
    exact ⟨e.1, he⟩
  · rintro ⟨k, h⟩
    exact ⟨_, h, rfl⟩

theorem mem_keys : k ∈ t.keys ↔ ∃ a, t.lookup k = some a := by
  simp only [keys, List.mem_map, lookup_eq_some]
  constructor
  · rintro ⟨e, he, rfl⟩
    exact ⟨e.2, he⟩
  · rintro ⟨a, h⟩
    exact ⟨_, h, rfl⟩

@[simp] theorem lookup_empty (k : κ) : (empty : OrderedTable κ α).lookup k = none := rfl

theorem lookup_insertEntry (k k' : κ) (a : α) (l : List (κ × α)) :
    ((insertEntry k a l).find? (·.1 = k')).map (·.2) =
      if k' = k then some a else (l.find? (·.1 = k')).map (·.2) := by
  induction l with
  | nil => by_cases h : k = k' <;> simp [insertEntry, h, eq_comm]
  | cons e l ih =>
    unfold insertEntry
    split
    · next hlt => by_cases h : k = k' <;> simp [h, eq_comm]
    · split
      · next heq => by_cases h : k = k' <;> simp [h, ← heq, eq_comm]
      · next hne =>
        rw [List.find?_cons, List.find?_cons]
        by_cases h : e.1 = k'
        · have hk : k' ≠ k := fun hk => hne (hk.symm.trans h.symm)
          simp [h, hk]
        · simp only [h, decide_false]
          exact ih

theorem lookup_insert (t : OrderedTable κ α) (k k' : κ) (a : α) :
    (t.insert k a).lookup k' = if k' = k then some a else t.lookup k' :=
  lookup_insertEntry k k' a t.entries

theorem lookup_erase (t : OrderedTable κ α) (k k' : κ) :
    (t.erase k).lookup k' = if k' = k then none else t.lookup k' := by
  ext a
  rw [lookup_eq_some, erase]
  split
  · next h => simp [h]
  · next h => simp [h, lookup_eq_some]

@[simp] theorem lookup_mapValues (f : α → β) (t : OrderedTable κ α) (k : κ) :
    (t.mapValues f).lookup k = (t.lookup k).map f := by
  rw [lookup, lookup, mapValues, List.find?_map, Option.map_map, Option.map_map]
  rfl

theorem values_mapValues (f : α → β) (t : OrderedTable κ α) :
    (t.mapValues f).values = t.values.map f := by
  rw [values, values, mapValues, List.map_map, List.map_map]
  rfl

theorem lookup_inserts (l : List (κ × α)) (t : OrderedTable κ α) (k : κ) :
    (l.foldl (fun t e => t.insert e.1 e.2) t).lookup k =
      ((l.reverse.find? (·.1 = k)).map (·.2)).or (t.lookup k) := by
  induction l generalizing t with
  | nil => rfl
  | cons e l ih =>
    rw [List.foldl_cons, ih, lookup_insert, List.reverse_cons, List.find?_append]
    cases l.reverse.find? (·.1 = k) with
    | some e' => rfl
    | none => by_cases h : k = e.1 <;> simp [h, eq_comm]

theorem lookup_ofList (l : List (κ × α)) (k : κ) :
    (ofList l).lookup k = (l.reverse.find? (·.1 = k)).map (·.2) := by
  rw [ofList, lookup_inserts, lookup_empty, Option.or_none]

theorem mem_of_lookup_ofList (h : (ofList l).lookup k = some a) : (k, a) ∈ l := by
  rw [lookup_ofList, Option.map_eq_some_iff] at h
  obtain ⟨e, he, rfl⟩ := h
  have hk : e.1 = k := by simpa using List.find?_some he
  rw [← hk]
  exact List.mem_reverse.mp (List.mem_of_find?_eq_some he)

theorem lookup_ofList_isSome (h : (k, a) ∈ l) : ∃ b, (ofList l).lookup k = some b := by
  rw [← Option.isSome_iff_exists, lookup_ofList, Option.isSome_map, List.find?_isSome]
  exact ⟨(k, a), List.mem_reverse.mpr h, by simp⟩

theorem lookup_ofList_eq_some (hl : ∀ k a b, (k, a) ∈ l → (k, b) ∈ l → a = b) :
    (ofList l).lookup k = some a ↔ (k, a) ∈ l := by
  constructor
  · exact mem_of_lookup_ofList
  · intro h
    obtain ⟨b, hb⟩ := lookup_ofList_isSome h
    rw [hb, hl k a b h (mem_of_lookup_ofList hb)]

theorem ofList_append_singleton (l : List (κ × α)) (e : κ × α) :
    ofList (l ++ [e]) = (ofList l).insert e.1 e.2 := by
  rw [ofList, List.foldl_append]
  rfl

theorem lookup_ofList_zipIdx (key : β → κ) (l : List β) (k : κ) (i : ℕ) :
    (ofList (l.zipIdx.map fun e => (key e.1, e.2))).lookup k = some i ↔
      (l.map key)[i]? = some k ∧ ∀ j, (l.map key)[j]? = some k → j ≤ i := by
  induction l using List.reverseRecOn with
  | nil => simp [ofList]
  | append_singleton l b ih =>
    rw [List.zipIdx_append, List.map_append, List.zipIdx_singleton, List.map_singleton,
      ofList_append_singleton, lookup_insert, List.map_append, List.map_singleton]
    have hbn {j : ℕ} {x : κ} (h : (l.map key ++ [key b])[j]? = some x) : j ≤ l.length := by
      have := (List.getElem?_eq_some_iff.mp h).1
      simp at this
      omega
    have hls : (l.map key ++ [key b])[l.length]? = some (key b) := by simp
    by_cases h : k = key b
    · subst h
      rw [if_pos rfl, Option.some.injEq, Nat.zero_add]
      constructor
      · rintro rfl
        exact ⟨hls, fun j => hbn⟩
      · rintro ⟨hi, hj⟩
        exact Nat.le_antisymm (hj _ hls) (hbn hi)
    · have hiff (j : ℕ) : (l.map key ++ [key b])[j]? = some k ↔ (l.map key)[j]? = some k := by
        rw [List.getElem?_append]
        split
        · rfl
        · next hj =>
          have hnn : (l.map key)[j]? = none := List.getElem?_eq_none (Nat.not_lt.mp hj)
          rw [hnn, List.getElem?_singleton]
          split <;> simp [Ne.symm h]
      rw [if_neg h, ih]
      simp only [hiff]

end OrderedTable

end Galfus
