import Galfus.Graph.Reach

/-! # Painting traversals

Depth-first traversals of a graph whose nodes carry a colour and a counter.
The traversal gives every node it enters the target colour, stops at nodes that
already have it, and updates the counter of the far end of every edge that it
follows. A traversal with enough fuel enters a closed set of fresh nodes and
follows each of their edges exactly once.
-/

namespace Galfus.Graph

structure Marking (ν κ : Type*) where
  color : ν → κ
  count : ν → ℕ

namespace Marking

variable {ν κ : Type*} [DecidableEq ν]

def shade (c : κ) (s : Marking ν κ) (v : ν) : Marking ν κ :=
  { s with color := Function.update s.color v c }

def touch (τ : ℕ → ℕ) (s : Marking ν κ) (w : ν) : Marking ν κ :=
  { s with count := Function.update s.count w (τ (s.count w)) }

@[simp] theorem shade_color (c : κ) (s : Marking ν κ) (v u : ν) :
    (s.shade c v).color u = if u = v then c else s.color u := by
  simp [shade, Function.update_apply]

@[simp] theorem shade_count (c : κ) (s : Marking ν κ) (v : ν) : (s.shade c v).count = s.count := rfl

@[simp] theorem touch_color (τ : ℕ → ℕ) (s : Marking ν κ) (w : ν) :
    (s.touch τ w).color = s.color := rfl

@[simp] theorem touch_count (τ : ℕ → ℕ) (s : Marking ν κ) (w u : ν) :
    (s.touch τ w).count u = if u = w then τ (s.count u) else s.count u := by
  by_cases h : u = w <;> simp [touch, h]

end Marking

open Marking

variable {ν κ : Type*} [DecidableEq ν]

/-- The nodes of `N` were painted, and the edges out of `N` and to `ts` were followed. -/
structure Spread (succ : ν → List ν) (c : κ) (τ : ℕ → ℕ) (s : Marking ν κ)
    (N : Finset ν) (ts : List ν) (s' : Marking ν κ) : Prop where
  color : ∀ u, s'.color u = if u ∈ N then c else s.color u
  count : ∀ w, s'.count w = τ^[refs succ N w + ts.count w] (s.count w)
  fresh : ∀ u ∈ N, s.color u ≠ c

variable {succ : ν → List ν} {c : κ} {τ : ℕ → ℕ} {s s₁ s₂ : Marking ν κ} {M N : Finset ν}
  {ts ts' : List ν} {v w : ν}

namespace Spread

theorem rfl : Spread succ c τ s ∅ [] s where
  color := by simp
  count := by simp
  fresh := by simp

theorem keeps (h : Spread succ c τ s N ts s₁) {u : ν} (hu : s.color u = c) : s₁.color u = c := by
  rw [h.color]
  split
  · exact Eq.refl c
  · exact hu

theorem painted (h : Spread succ c τ s N ts s₁) {u : ν} (hu : u ∈ N) : s₁.color u = c := by
  rw [h.color, if_pos hu]

theorem trans (h : Spread succ c τ s M ts s₁) (h' : Spread succ c τ s₁ N ts' s₂) :
    Spread succ c τ s (M ∪ N) (ts ++ ts') s₂ := by
  have hd : Disjoint M N := Finset.disjoint_right.mpr fun u hu hM => h'.fresh u hu (h.painted hM)
  refine ⟨fun u => ?_, fun w => ?_, fun u hu => ?_⟩
  · rw [h'.color, h.color]
    by_cases hN : u ∈ N <;> by_cases hM : u ∈ M <;> simp [hN, hM]
  · rw [h'.count, h.count, ← Function.iterate_add_apply, refs_union hd, List.count_append]
    congr 1
    omega
  · rcases Finset.mem_union.mp hu with hM | hN
    · exact h.fresh u hM
    · exact fun hc => h'.fresh u hN (h.keeps hc)

theorem of_touch (h : Spread succ c τ (s.touch τ w) N [] s₁) : Spread succ c τ s N [w] s₁ where
  color u := by simpa using h.color u
  count u := by
    rw [h.count]
    by_cases hu : u = w
    · subst hu
      simp [Function.iterate_succ_apply]
    · simp [hu, Ne.symm hu]
  fresh u hu := by simpa using h.fresh u hu

theorem of_shade (hv : s.color v ≠ c) (h : Spread succ c τ (s.shade c v) N (succ v) s₁) :
    Spread succ c τ s (insert v N) [] s₁ := by
  have hN : v ∉ N := fun hm => h.fresh v hm (by simp)
  refine ⟨fun u => ?_, fun w => ?_, fun u hu => ?_⟩
  · rw [h.color, shade_color]
    by_cases hu : u ∈ N <;> by_cases huv : u = v <;> simp [hu, huv]
  · rw [h.count, shade_count, refs_insert hN]
    congr 1
    simp only [List.count_nil]
    omega
  · rcases Finset.mem_insert.mp hu with rfl | hm
    · exact hv
    · have hne : u ≠ v := fun he => hN (he ▸ hm)
      simpa [hne] using h.fresh u hm

end Spread

/-- What a finished traversal from the nodes of `vs` has done. -/
structure Paints (succ : ν → List ν) (c : κ) (τ : ℕ → ℕ) (s : Marking ν κ) (vs ts : List ν)
    (N : Finset ν) (s' : Marking ν κ) : Prop where
  spread : Spread succ c τ s N ts s'
  start : ∀ v ∈ vs, s'.color v = c
  closed : ∀ u ∈ N, ∀ w ∈ succ u, s'.color w = c
  reached : ∀ u ∈ N, ∃ v ∈ vs, Reaches succ v u

theorem Paints.nil : Paints succ c τ s [] [] ∅ s where
  spread := .rfl
  start := by simp
  closed := by simp
  reached := by simp

theorem Paints.append {vs vs' : List ν} (h : Paints succ c τ s vs ts M s₁)
    (h' : Paints succ c τ s₁ vs' ts' N s₂) :
    Paints succ c τ s (vs ++ vs') (ts ++ ts') (M ∪ N) s₂ where
  spread := h.spread.trans h'.spread
  start v hv := by
    rcases List.mem_append.mp hv with hv | hv
    · exact h'.spread.keeps (h.start v hv)
    · exact h'.start v hv
  closed u hu w hw := by
    rcases Finset.mem_union.mp hu with hu | hu
    · exact h'.spread.keeps (h.closed u hu w hw)
    · exact h'.closed u hu w hw
  reached u hu := by
    rcases Finset.mem_union.mp hu with hu | hu
    · obtain ⟨v, hv, hr⟩ := h.reached u hu
      exact ⟨v, List.mem_append_left _ hv, hr⟩
    · obtain ⟨v, hv, hr⟩ := h'.reached u hu
      exact ⟨v, List.mem_append_right _ hv, hr⟩

variable [DecidableEq κ]

/-- Paint `v` and everything the traversal reaches from it with `c`, applying
`τ` to the counter at the end of each edge followed. -/
def paint (succ : ν → List ν) (c : κ) (τ : ℕ → ℕ) : ℕ → Marking ν κ → ν → Marking ν κ
  | 0, s, _ => s
  | n + 1, s, v =>
    if s.color v = c then s
    else (succ v).foldl (fun s w => paint succ c τ n (s.touch τ w) w) (s.shade c v)

/-- The nodes of `U` that the traversal can still enter. -/
def unpainted (U : Finset ν) (c : κ) (s : Marking ν κ) : Finset ν :=
  U.filter fun u => s.color u ≠ c

theorem unpainted_shade (U : Finset ν) (c : κ) (s : Marking ν κ) (v : ν) :
    unpainted U c (s.shade c v) = (unpainted U c s).erase v := by
  ext u
  by_cases hu : u = v <;> simp [unpainted, hu]

theorem card_unpainted_shade_lt {U : Finset ν} {v : ν} (hv : v ∈ U) (hc : s.color v ≠ c) :
    (unpainted U c (s.shade c v)).card < (unpainted U c s).card := by
  rw [unpainted_shade]
  exact Finset.card_erase_lt_of_mem (by simp [unpainted, hv, hc])

/-- The nodes of `U` that have the color `c`. -/
def painted (U : Finset ν) (c : κ) (s : Marking ν κ) : Finset ν :=
  U.filter fun u => s.color u = c

theorem card_painted_shade_lt {U : Finset ν} {v : ν} {d : κ} (hv : v ∈ U) (hc : s.color v = c)
    (hd : d ≠ c) : (painted U c (s.shade d v)).card < (painted U c s).card := by
  refine Finset.card_lt_card ⟨fun u hu => ?_, fun hs => ?_⟩
  · by_cases huv : u = v
    · simp [painted, huv, hd] at hu
    · simpa [painted, huv] using hu
  · simpa [painted, hd] using hs (by simp [painted, hv, hc] : v ∈ painted U c s)

omit [DecidableEq ν] in
theorem card_painted_le {U : Finset ν} {t : Marking ν κ} (h : ∀ u, s.color u ≠ c → t.color u ≠ c) :
    (painted U c t).card ≤ (painted U c s).card := by
  refine Finset.card_le_card fun u hu => ?_
  simp only [painted, Finset.mem_filter] at hu ⊢
  exact ⟨hu.1, by_contra fun hne => h u hne hu.2⟩

theorem Spread.unpainted_subset (h : Spread succ c τ s N ts s₁) (U : Finset ν) :
    unpainted U c s₁ ⊆ unpainted U c s := by
  intro u hu
  simp only [unpainted, Finset.mem_filter] at hu ⊢
  exact ⟨hu.1, fun hc => hu.2 (h.keeps hc)⟩

theorem paint_color (succ : ν → List ν) (c : κ) (τ : ℕ → ℕ) (n : ℕ) (s : Marking ν κ) (v u : ν) :
    (paint succ c τ n s v).color u = s.color u ∨ (paint succ c τ n s v).color u = c := by
  induction n generalizing s v with
  | zero => exact .inl rfl
  | succ n ih =>
    simp only [paint]
    split
    · exact .inl rfl
    have hf : ∀ (ws : List ν) (t : Marking ν κ), t.color u = s.color u ∨ t.color u = c →
        (ws.foldl (fun s w => paint succ c τ n (s.touch τ w) w) t).color u = s.color u ∨
          (ws.foldl (fun s w => paint succ c τ n (s.touch τ w) w) t).color u = c := by
      intro ws
      induction ws with
      | nil => exact fun t ht => ht
      | cons w ws ihw =>
        intro t ht
        refine ihw _ ?_
        rcases ih (t.touch τ w) w with he | he
        · rw [he]
          exact ht
        · exact .inr he
    refine hf _ _ ?_
    rw [shade_color]
    split
    · exact .inr rfl
    · exact .inl rfl

/-- With fuel for every unpainted node, the traversal paints all it reaches. -/
theorem paint_paints {U : Finset ν} (hU : Closed succ (U : Set ν)) (n : ℕ) (s : Marking ν κ) (v : ν)
    (hv : v ∈ U) (hn : (unpainted U c s).card < n) :
    ∃ N, Paints succ c τ s [v] [] N (paint succ c τ n s v) := by
  induction n generalizing s v with
  | zero => omega
  | succ n ih =>
    by_cases hc : s.color v = c
    · refine ⟨∅, ?_⟩
      simp only [paint, hc, if_true]
      exact ⟨.rfl, by simpa using hc, by simp, by simp⟩
    -- entering `v` leaves one node fewer, so the calls on its successors have fuel
    have hlt : (unpainted U c (s.shade c v)).card < n := by
      have := card_unpainted_shade_lt hv hc
      omega
    have hfl : ∀ (ws : List ν) (t : Marking ν κ), (∀ w ∈ ws, w ∈ U) →
        (unpainted U c t).card < n → ∃ N, Paints succ c τ t ws ws N
          (ws.foldl (fun s w => paint succ c τ n (s.touch τ w) w) t) := by
      intro ws
      induction ws with
      | nil => exact fun t _ _ => ⟨∅, .nil⟩
      | cons w ws ihw =>
        intro t hws ht
        obtain ⟨M, hM⟩ := ih (t.touch τ w) w (hws w (by simp)) ht
        have hM' : Paints succ c τ t [w] [w] M (paint succ c τ n (t.touch τ w) w) :=
          ⟨hM.spread.of_touch, hM.start, hM.closed, hM.reached⟩
        have hcr := Finset.card_le_card (hM'.spread.unpainted_subset U)
        obtain ⟨N, hN⟩ := ihw _ (fun x hx => hws x (by simp [hx])) (lt_of_le_of_lt hcr ht)
        exact ⟨M ∪ N, hM'.append hN⟩
    obtain ⟨N, hN⟩ := hfl (succ v) (s.shade c v) (fun w hw => hU v hv w hw) hlt
    refine ⟨insert v N, ?_⟩
    simp only [paint, hc, if_false]
    refine ⟨hN.spread.of_shade hc, ?_, ?_, ?_⟩
    · simpa using hN.spread.keeps (u := v) (by simp)
    · intro u hu w hw
      rcases Finset.mem_insert.mp hu with rfl | hu
      · exact hN.start w hw
      · exact hN.closed u hu w hw
    · intro u hu
      refine ⟨v, by simp, ?_⟩
      rcases Finset.mem_insert.mp hu with rfl | hu
      · exact .refl u
      · obtain ⟨w, hw, hr⟩ := hN.reached u hu
        exact .head hw hr

end Galfus.Graph
