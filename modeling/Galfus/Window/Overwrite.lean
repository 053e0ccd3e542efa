import Mathlib.Data.List.GetD
import Mathlib.Tactic.Common

/-! # Overwritten windows

The elements of a list from a position on are replaced by others.
-/

namespace Galfus

variable {α : Type}

def overwrite : ℕ → List α → List α → List α
  | _, [], xs => xs
  | i, v :: vs, xs => overwrite (i + 1) vs (xs.set i v)

variable {d v : α} {vs ws xs : List α} {i j : ℕ}

@[simp] theorem overwrite_nil : overwrite i [] xs = xs := rfl

@[simp] theorem length_overwrite : (overwrite i vs xs).length = xs.length := by
  induction vs generalizing i xs with
  | nil => rfl
  | cons v vs ih => rw [overwrite, ih, List.length_set]

theorem getElem?_overwrite_of_lt (h : j < i) : (overwrite i vs xs)[j]? = xs[j]? := by
  induction vs generalizing i xs with
  | nil => rfl
  | cons v vs ih => rw [overwrite, ih (by omega), List.getElem?_set_ne (by omega)]

theorem getElem?_overwrite_of_ge (h : i + vs.length ≤ j) : (overwrite i vs xs)[j]? = xs[j]? := by
  induction vs generalizing i xs with
  | nil => rfl
  | cons v vs ih =>
    rw [List.length_cons] at h
    rw [overwrite, ih (by omega), List.getElem?_set_ne (by omega)]

theorem getElem?_overwrite_add (hj : j < vs.length) (h : i + j < xs.length) :
    (overwrite i vs xs)[i + j]? = vs[j]? := by
  induction vs generalizing i j xs with
  | nil => cases hj
  | cons v vs ih =>
    rw [List.length_cons] at hj
    rw [overwrite]
    cases j with
    | zero =>
      rw [getElem?_overwrite_of_lt (by omega), Nat.add_zero, List.getElem?_set_self (by omega)]
      rfl
    | succ j =>
      rw [show i + (j + 1) = i + 1 + j by omega, ih (by omega) (by rw [List.length_set]; omega)]
      rfl

theorem take_append_append_drop (h : i + vs.length ≤ xs.length) :
    xs.take i ++ vs ++ xs.drop (i + vs.length) = overwrite i vs xs := by
  apply List.ext_getElem?
  intro j
  rcases Nat.lt_or_ge j i with hlt | hge
  · rw [getElem?_overwrite_of_lt hlt, List.append_assoc, List.getElem?_append_left (by simp; omega),
      List.getElem?_take_of_lt hlt]
  rcases Nat.lt_or_ge j (i + vs.length) with hlt | hge'
  · obtain ⟨k, rfl⟩ := Nat.exists_eq_add_of_le hge
    rw [getElem?_overwrite_add (by omega) (by omega), List.getElem?_append_left (by simp; omega),
      List.getElem?_append_right (by rw [List.length_take]; omega), List.length_take]
    congr 1
    omega
  · rw [getElem?_overwrite_of_ge hge', List.getElem?_append_right (by simp; omega),
      List.getElem?_drop]
    congr 1
    simp only [List.length_append, List.length_take]
    omega

theorem overwrite_congr {ys : List α} (hl : xs.length = ys.length)
    (h : ∀ j, j < i ∨ i + vs.length ≤ j → xs[j]? = ys[j]?) :
    overwrite i vs xs = overwrite i vs ys := by
  apply List.ext_getElem?
  intro j
  rcases Nat.lt_or_ge j i with hlt | hge
  · rw [getElem?_overwrite_of_lt hlt, getElem?_overwrite_of_lt hlt, h j (.inl hlt)]
  rcases Nat.lt_or_ge j (i + vs.length) with hlt | hge'
  · obtain ⟨k, rfl⟩ := Nat.exists_eq_add_of_le hge
    rcases Nat.lt_or_ge (i + k) xs.length with hk | hk
    · rw [getElem?_overwrite_add (by omega) hk, getElem?_overwrite_add (by omega) (by omega)]
    · rw [List.getElem?_eq_none (by simpa using hk),
        List.getElem?_eq_none (by simpa [← hl] using hk)]
  · rw [getElem?_overwrite_of_ge hge', getElem?_overwrite_of_ge hge', h j (.inr hge')]

theorem getD_overwrite (hr : i + vs.length ≤ xs.length) (j : ℕ) : (overwrite i vs xs).getD j d =
      if i ≤ j ∧ j < i + vs.length then vs.getD (j - i) d else xs.getD j d := by
  simp only [List.getD_eq_getElem?_getD]
  split
  · next hj =>
    obtain ⟨k, rfl⟩ := Nat.exists_eq_add_of_le hj.1
    rw [getElem?_overwrite_add (by omega) (by omega), Nat.add_sub_cancel_left]
  · next hj =>
    rcases Nat.lt_or_ge j i with hlt | hge
    · rw [getElem?_overwrite_of_lt hlt]
    · rw [getElem?_overwrite_of_ge (by omega)]

theorem getD_overwrite_congr {ys : List α} (hxs : i + vs.length ≤ xs.length)
    (hys : i + vs.length ≤ ys.length)
    (h : ∀ j, j < i ∨ i + vs.length ≤ j → xs.getD j d = ys.getD j d) (j : ℕ) :
    (overwrite i vs xs).getD j d = (overwrite i vs ys).getD j d := by
  have hj := h j
  simp only [List.getD_eq_getElem?_getD] at hj ⊢
  rcases Nat.lt_or_ge j i with hlt | hge
  · rw [getElem?_overwrite_of_lt hlt, getElem?_overwrite_of_lt hlt]
    exact hj (.inl hlt)
  rcases Nat.lt_or_ge j (i + vs.length) with hlt | hge'
  · obtain ⟨k, rfl⟩ := Nat.exists_eq_add_of_le hge
    rw [getElem?_overwrite_add (by omega) (by omega), getElem?_overwrite_add (by omega) (by omega)]
  · rw [getElem?_overwrite_of_ge hge', getElem?_overwrite_of_ge hge']
    exact hj (.inr hge')

theorem getD_overwrite_replicate {n : ℕ} (hr : i + n ≤ xs.length)
    (h : ∀ j, i ≤ j → j < i + n → xs.getD j d = d) (j : ℕ) :
    (overwrite i (List.replicate n d) xs).getD j d = xs.getD j d := by
  have hj := h j
  simp only [List.getD_eq_getElem?_getD] at hj ⊢
  rcases Nat.lt_or_ge j i with hlt | hge
  · rw [getElem?_overwrite_of_lt hlt]
  rcases Nat.lt_or_ge j (i + n) with hlt | hge'
  · rw [hj hge hlt]
    obtain ⟨k, rfl⟩ := Nat.exists_eq_add_of_le hge
    rw [getElem?_overwrite_add (by simp; omega) (by omega), List.getElem?_replicate]
    split <;> rfl
  · rw [getElem?_overwrite_of_ge (by simpa using hge')]

end Galfus
