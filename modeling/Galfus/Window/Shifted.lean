import Mathlib.Data.List.GetD
import Mathlib.Tactic.Common

/-! # Lists with a gap

One list is another with a gap of foreign elements inserted at a position. Beyond their
ends both lists count as filled with a default element, so that they may be padded.
-/

namespace Galfus

variable {α : Type}

/-- `xs` is `ys` with `gap` elements inserted at `cut`, up to padding with `d`. -/
structure Shifted (d : α) (cut gap : ℕ) (xs ys : List α) : Prop where
  low : ∀ i < cut, xs[i]? = ys[i]?
  high : ∀ i, cut ≤ i → xs.getD (i + gap) d = ys.getD i d

namespace Shifted

variable {d : α} {c g : ℕ} {xs ys : List α} {i n : ℕ} {v : α}

theorem refl (d : α) (c : ℕ) (xs : List α) : Shifted d c 0 xs xs :=
  ⟨fun _ _ => rfl, fun _ _ => rfl⟩

variable (h : Shifted d c g xs ys)
include h

theorem getElem?_add (hi : c ≤ i) (hys : i < ys.length) (hxs : i + g < xs.length) :
    xs[i + g]? = ys[i]? := by
  have hg := h.high i hi
  rw [List.getD_eq_getElem _ _ hxs, List.getD_eq_getElem _ _ hys] at hg
  rw [List.getElem?_eq_getElem hxs, List.getElem?_eq_getElem hys, hg]

theorem set (hi : c ≤ i) (hys : i < ys.length) (hxs : i + g < xs.length) :
    Shifted d c g (xs.set (i + g) v) (ys.set i v) := by
  constructor
  · intro j hj
    rw [List.getElem?_set_ne (by omega), List.getElem?_set_ne (by omega)]
    exact h.low j hj
  · intro j hj
    have hg := h.high j hj
    simp only [List.getD_eq_getElem?_getD] at hg ⊢
    rcases eq_or_ne i j with rfl | hne
    · rw [List.getElem?_set_self hxs, List.getElem?_set_self hys]
    · rwa [List.getElem?_set_ne (by omega), List.getElem?_set_ne hne]

omit h in
theorem getD_append_replicate (xs : List α) (n i : ℕ) :
    (xs ++ List.replicate n d).getD i d = xs.getD i d := by
  simp only [List.getD_eq_getElem?_getD]
  rcases Nat.lt_or_ge i xs.length with hlt | hge
  · rw [List.getElem?_append_left hlt]
  · rw [List.getElem?_append_right hge, List.getElem?_eq_none hge, List.getElem?_replicate]
    split <;> rfl

theorem append_replicate (hxs : c ≤ xs.length) (hys : c ≤ ys.length) (n m : ℕ) :
    Shifted d c g (xs ++ List.replicate n d) (ys ++ List.replicate m d) := by
  constructor
  · intro i hi
    rw [List.getElem?_append_left (by omega), List.getElem?_append_left (by omega)]
    exact h.low i hi
  · intro i hi
    rw [getD_append_replicate, getD_append_replicate]
    exact h.high i hi

theorem take_drop (hi : c ≤ i) (hys : i + n ≤ ys.length) (hxs : i + g + n ≤ xs.length) :
    (xs.drop (i + g)).take n = (ys.drop i).take n := by
  apply List.ext_getElem?
  intro j
  simp only [List.getElem?_take, List.getElem?_drop]
  split
  · rename_i hj
    rw [Nat.add_right_comm]
    exact h.getElem?_add (by omega) (by omega) (by omega)
  · rfl

theorem take_add (hi : c ≤ i) (hys : i ≤ ys.length) (hxs : i + g ≤ xs.length) :
    xs.take (i + g) = ys.take c ++ (xs.drop c).take g ++ (ys.drop c).take (i - c) := by
  have hl : xs.take c = ys.take c := by
    apply List.ext_getElem?
    intro j
    simp only [List.getElem?_take]
    split
    · exact h.low j ‹_›
    · rfl
  have hs : i + g = c + g + (i - c) := by omega
  rw [hs, List.take_add, List.take_add, hl, h.take_drop Nat.le.refl (by omega) (by omega)]

end Shifted

end Galfus
