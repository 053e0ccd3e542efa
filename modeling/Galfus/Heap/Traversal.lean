import Galfus.Heap.Graph

/-! # The traversals of the collector

On a heap whose references stay in the table, `markGray`, `scanBlack` and `scan`
never panic and never run out of fuel. They compute the painting traversals of
the object graph on the colours and edge counts, and keep the shape of the heap.
-/

namespace Galfus.PrivateHeap

open Graph

variable {h h₁ h₂ : PrivateHeap} {i j n : ℕ} {s : HeapSlot}

/-- A loop over children follows the edges of the object graph, if each round
refines `g` and keeps `P`. -/
theorem forEachChild_run {f : PrivateHeap → ℕ → Option PrivateHeap}
    {g : Marking ℕ GcColor → ℕ → Marking ℕ GcColor} {P : Marking ℕ GcColor → Prop}
    (hf : ∀ h₁ j, SameShape h h₁ → j < h.objects.length → P h₁.marking →
      ∃ h₂, f h₁ j = some h₂ ∧ SameShape h₁ h₂ ∧ h₂.marking = g h₁.marking j ∧ P h₂.marking)
    (cs : List VmObjectRef) (hcs : ∀ c ∈ cs, c.index < h.objects.length) (h₁ : PrivateHeap)
    (a : SameShape h h₁) (hP : P h₁.marking) :
    ∃ h₂, h₁.forEachChild f cs = some h₂ ∧ SameShape h₁ h₂ ∧
      h₂.marking = ((cs.filter (h.Current ·)).map VmObjectRef.index).foldl g h₁.marking := by
  induction cs generalizing h₁ with
  | nil => exact ⟨h₁, rfl, .refl h₁, rfl⟩
  | cons c cs ih =>
    rw [List.forall_mem_cons] at hcs
    have hlt : c.index < h₁.objects.length := by rw [a.length]; exact hcs.1
    obtain ⟨t, ht⟩ : ∃ t, h₁.objects[c.index]? = some t := ⟨_, List.getElem?_eq_getElem hlt⟩
    have hcr : h.Current c ↔ t.generation = c.generation := by
      rw [← a.current]
      simp [Current, ht]
    by_cases hg : t.generation = c.generation
    · obtain ⟨h₂, hf₂, a₂, hm₂, hP₂⟩ := hf h₁ c.index a hcs.1 hP
      obtain ⟨h₃, hf₃, a₃, hm₃⟩ := ih hcs.2 h₂ (a.trans a₂) hP₂
      refine ⟨h₃, ?_, a₂.trans a₃, ?_⟩
      · simpa [forEachChild, ht, hg, hf₂] using hf₃
      · simpa [hcr.mpr hg, hm₂] using hm₃
    · obtain ⟨h₃, hf₃, a₃, hm₃⟩ := ih hcs.2 h₁ a hP
      refine ⟨h₃, ?_, a₃, ?_⟩
      · simpa [forEachChild, ht, hg] using hf₃
      · have hn : ¬ h.Current c := fun hc' => hg (hcr.mp hc')
        simpa [hn] using hm₃

theorem paintChildren_run {f : PrivateHeap → ℕ → Option PrivateHeap}
    {g : Marking ℕ GcColor → ℕ → Marking ℕ GcColor} {P : Marking ℕ GcColor → Prop}
    (hr : h.InRange) (hs : h.objects[i]? = some s) (c : GcColor) (hP : P (h.marking.shade c i))
    (hf : ∀ h₁ j, SameShape h h₁ → j < h.objects.length → P h₁.marking →
      ∃ h₂, f h₁ j = some h₂ ∧ SameShape h₁ h₂ ∧ h₂.marking = g h₁.marking j ∧ P h₂.marking) :
    ∃ h', (h.setSlot i (s.paint c)).forEachChild f s.children = some h' ∧ SameShape h h' ∧
      h'.marking = (h.succ i).foldl g (h.marking.shade c i) := by
  have a : SameShape h (h.setSlot i (s.paint c)) := .setSlot hs (by simp)
  rw [← marking_paint hs c] at hP ⊢
  rw [succ, childrenAt_eq hs]
  obtain ⟨h', hrn, a', hm⟩ := forEachChild_run hf s.children
    (fun d hd => hr i d (by rwa [childrenAt_eq hs])) _ a hP
  exact ⟨h', hrn, a.trans a', hm⟩

/-- The common body of `markGray` and `scanBlack`: paint with `c`, and update the
slot at the end of every reference with `f`. -/
def paintBody (c : GcColor) (f : HeapSlot → HeapSlot)
    (paint : PrivateHeap → ℕ → Option PrivateHeap) (h : PrivateHeap) (i : ℕ) :
    Option PrivateHeap := do
  let s ← h.objects[i]?
  if s.color = c then some h
  else
    (h.setSlot i (s.paint c)).forEachChild (fun h j => do
      let h ← h.modifySlot j f
      paint h j) s.children

/-- An update of the edge count alone. -/
structure Recounts (f : HeapSlot → HeapSlot) (τ : ℕ → ℕ) : Prop where
  color : ∀ s, (f s).color = s.color
  edges : ∀ s, (f s).edges = τ s.edges
  shape : ∀ s, (f s).shape = s.shape

theorem recounts_decEdges : Recounts .decEdges (· - 1) := ⟨fun _ => rfl, fun _ => rfl, fun _ => rfl⟩

theorem recounts_incEdges : Recounts .incEdges satSucc := ⟨fun _ => rfl, fun _ => rfl, fun _ => rfl⟩

theorem paintBody_run {c : GcColor} {f : HeapSlot → HeapSlot} {τ : ℕ → ℕ} (hτ : Recounts f τ)
    (n : ℕ) (h : PrivateHeap) (i : ℕ) (hr : h.InRange) (hi : i < h.objects.length)
    (hn : (unpainted (Finset.range h.objects.length) c h.marking).card < n) :
    ∃ h', Fuel.run (paintBody c f) (fun _ _ => none) n h i = some h' ∧ SameShape h h' ∧
      h'.marking = Graph.paint h.succ c τ n h.marking i := by
  induction n generalizing h i with
  | zero => omega
  | succ n ih =>
    obtain ⟨s, hs⟩ := exists_slot hi
    have hcl : h.marking.color i = s.color := colorAt_eq hs
    by_cases hc : s.color = c
    · refine ⟨h, ?_, .refl h, ?_⟩
      · simp [Fuel.run, paintBody, hs, hc]
      · simp [Graph.paint, hcl, hc]
    have hlt : (unpainted (Finset.range h.objects.length) c (h.marking.shade c i)).card < n := by
      have := card_unpainted_shade_lt (Finset.mem_range.mpr hi) (hcl ▸ hc)
      omega
    have hro : ∀ h₁ j, SameShape h h₁ → j < h.objects.length →
        (unpainted (Finset.range h.objects.length) c h₁.marking).card < n →
        ∃ h₂, (do let h ← h₁.modifySlot j f
                  Fuel.run (paintBody c f) (fun _ _ => none) n h j) = some h₂ ∧ SameShape h₁ h₂ ∧
          h₂.marking = Graph.paint h.succ c τ n (h₁.marking.touch τ j) j ∧
          (unpainted (Finset.range h.objects.length) c h₂.marking).card < n := by
      intro h₁ j a hj hP
      obtain ⟨t, ht⟩ := exists_slot (a.length.symm ▸ hj)
      have a' : SameShape h₁ (h₁.setSlot j (f t)) := .setSlot ht (hτ.shape t)
      have hm' : (h₁.setSlot j (f t)).marking = h₁.marking.touch τ j :=
        marking_recount ht (hτ.color t) (hτ.edges t)
      obtain ⟨h₂, hrn, a₂, hm₂⟩ := ih (h₁.setSlot j (f t)) j ((a.trans a').inRange hr)
        (by rwa [(a.trans a').length]) (by rwa [hm', (a.trans a').length])
      rw [(a.trans a').succ, hm'] at hm₂
      refine ⟨h₂, by simpa [modifySlot, ht] using hrn, a'.trans a₂, hm₂, ?_⟩
      obtain ⟨N, hN⟩ := paint_paints (c := c) (τ := τ) h.closed_range_succ n
        (h₁.marking.touch τ j) j (by simpa using hj) hP
      rw [hm₂]
      exact lt_of_le_of_lt (Finset.card_le_card (hN.spread.unpainted_subset _)) hP
    obtain ⟨h', hrn, a, hm⟩ := paintChildren_run
      (P := fun m => (unpainted (Finset.range h.objects.length) c m).card < n)
      (g := fun m w => Graph.paint h.succ c τ n (m.touch τ w) w) hr hs c hlt hro
    refine ⟨h', ?_, a, ?_⟩
    · simpa [Fuel.run, paintBody, hs, hc] using hrn
    · rw [hm]
      simp [Graph.paint, hcl, hc]

theorem card_unpainted_lt (h : PrivateHeap) (c : GcColor) :
    (unpainted (Finset.range h.objects.length) c h.marking).card < h.objects.length + 2 := by
  have := Finset.card_filter_le (Finset.range h.objects.length) (fun u => h.marking.color u ≠ c)
  rw [Finset.card_range] at this
  unfold unpainted
  omega

/-- `markGray` discounts every reference out of what it paints gray. -/
theorem markGray_run (hr : h.InRange) (hi : i < h.objects.length) :
    ∃ h' N, h.markGray i = some h' ∧ SameShape h h' ∧
      Paints h.succ .gray (· - 1) h.marking [i] [] N h'.marking := by
  have hn := card_unpainted_lt h .gray
  obtain ⟨h', hrn, a, hm⟩ := paintBody_run recounts_decEdges _ h i hr hi hn
  obtain ⟨N, hN⟩ := paint_paints (c := .gray) (τ := (· - 1)) h.closed_range_succ
    (h.objects.length + 2) h.marking i (by simpa using hi) hn
  exact ⟨h', N, hrn, a, hm ▸ hN⟩

/-- `scanBlack` agrees with the painting traversal where the latter has fuel. -/
theorem scanBlackBody_run (n : ℕ) (h h' : PrivateHeap) (i : ℕ) (hc : h.colorAt i ≠ .black)
    (hp : Fuel.run (paintBody .black .incEdges) (fun _ _ => none) n h i = some h') :
    Fuel.run scanBlackBody (fun _ _ => none) n h i = some h' := by
  induction n generalizing h h' i with
  | zero => simp [Fuel.run] at hp
  | succ n ih =>
    cases hs : h.objects[i]? with
    | none => simp [Fuel.run, paintBody, hs] at hp
    | some s =>
      rw [colorAt_eq hs] at hc
      simp only [Fuel.run, paintBody, hs, Option.bind_eq_bind, Option.bind_some, hc, if_false] at hp
      simp only [Fuel.run, scanBlackBody, hs, Option.bind_eq_bind, Option.bind_some]
      have hlp : ∀ (cs : List VmObjectRef) (h₁ : PrivateHeap),
          h₁.forEachChild (fun h j => (h.modifySlot j .incEdges).bind fun h =>
            Fuel.run (paintBody .black .incEdges) (fun _ _ => none) n h j) cs = some h' →
          h₁.forEachChild (fun h j => (h.objects[j]?).bind fun t =>
            if t.color = .black then some (h.setSlot j t.incEdges)
            else Fuel.run scanBlackBody (fun _ _ => none) n (h.setSlot j t.incEdges) j) cs =
              some h' := by
        intro cs
        induction cs with
        | nil => exact fun h₁ hh => hh
        | cons d cs ihd =>
          intro h₁ hh
          simp only [forEachChild, List.foldlM_cons, Option.bind_eq_bind,
            Option.bind_eq_some_iff] at hh ⊢
          obtain ⟨h₂, ⟨t, ht, hrn⟩, hrs⟩ := hh
          refine ⟨h₂, ⟨t, ht, ?_⟩, ihd h₂ hrs⟩
          split at hrn
          swap
          · rename_i hg
            rw [if_neg hg]
            exact hrn
          rename_i hg
          rw [if_pos hg]
          simp only [modifySlot, ht, Option.bind_eq_bind, Option.bind_some] at hrn
          rw [ht, Option.bind_some]
          have hlt := slot_lt ht
          have hcl : (h₁.setSlot d.index t.incEdges).colorAt d.index = t.color := by
            rw [colorAt_eq (getElem?_setSlot_self hlt)]
            rfl
          by_cases hb : t.color = .black
          · cases n with
            | zero => simp [Fuel.run] at hrn
            | succ n =>
              simpa [Fuel.run, paintBody, getElem?_setSlot_self hlt, HeapSlot.incEdges, hb]
                using hrn
          · rw [if_neg hb]
            exact ih _ _ _ (by rw [hcl]; exact hb) hrn
      exact hlp _ _ hp

/-- `scanBlack` on a node that is not black restores the references out of what it paints. -/
theorem scanBlack_run (hr : h.InRange) (hi : i < h.objects.length) (hc : h.colorAt i ≠ .black) :
    ∃ h', h.scanBlack i = some h' ∧ SameShape h h' ∧
      h'.marking = Graph.paint h.succ .black satSucc (h.objects.length + 2) h.marking i := by
  obtain ⟨h', hrn, a, hm⟩ := paintBody_run recounts_incEdges _ h i hr hi (card_unpainted_lt h _)
  exact ⟨h', scanBlackBody_run _ h h' i hc hrn, a, hm⟩

/-- The graph scan that `scan` computes on a heap with the shape of `h`. -/
def graphScan (h : PrivateHeap) (n : ℕ) : Marking ℕ GcColor → ℕ → Marking ℕ GcColor :=
  Graph.scan h.succ .gray .white .black (fun i => decide (0 < h.anchorsAt i)) satSucc
    (h.objects.length + 2) n

theorem SameShape.graphScan (a : SameShape h h₁) : h₁.graphScan = h.graphScan := by
  funext n
  simp only [PrivateHeap.graphScan, a.succ, a.anchorsAt, a.length]

theorem scanBody_run (n : ℕ) (h : PrivateHeap) (i : ℕ) (hr : h.InRange) (hi : i < h.objects.length)
    (hn : (painted (Finset.range h.objects.length) .gray h.marking).card < n) :
    ∃ h', Fuel.run scanBody (fun _ _ => none) n h i = some h' ∧ SameShape h h' ∧
      h'.marking = h.graphScan n h.marking i := by
  induction n generalizing h i with
  | zero => omega
  | succ n ih =>
    obtain ⟨s, hs⟩ := exists_slot hi
    have hcl : h.marking.color i = s.color := colorAt_eq hs
    have hcn : h.marking.count i = s.edges := edgesAt_eq hs
    have han := anchorsAt_eq hs
    by_cases hc : s.color = .gray
    swap
    · refine ⟨h, ?_, .refl h, ?_⟩
      · simp [Fuel.run, scanBody, hs, hc]
      · simp [PrivateHeap.graphScan, Graph.scan, hcl, hc]
    by_cases hsp : 0 < s.anchors ∨ 0 < s.edges
    · obtain ⟨h', hrn, a, hm⟩ := scanBlack_run hr hi (by rw [colorAt_eq hs, hc]; decide)
      refine ⟨h', ?_, a, ?_⟩
      · simpa [Fuel.run, scanBody, hs, hc, hsp] using hrn
      · rw [hm]
        simp [PrivateHeap.graphScan, Graph.scan, hcl, hcn, han, hc, hsp]
    have hlt : (painted (Finset.range h.objects.length) .gray
        (h.marking.shade .white i)).card < n := by
      have := card_painted_shade_lt (Finset.mem_range.mpr hi) (hcl.trans hc)
        (by decide : GcColor.white ≠ .gray)
      omega
    have hro : ∀ h₁ j, SameShape h h₁ → j < h.objects.length →
        (painted (Finset.range h.objects.length) .gray h₁.marking).card < n →
        ∃ h₂, Fuel.run scanBody (fun _ _ => none) n h₁ j = some h₂ ∧ SameShape h₁ h₂ ∧
          h₂.marking = h.graphScan n h₁.marking j ∧
          (painted (Finset.range h.objects.length) .gray h₂.marking).card < n := by
      intro h₁ j a hj hP
      obtain ⟨h₂, hrn, a₂, hm₂⟩ := ih h₁ j (a.inRange hr) (by rwa [a.length]) (by rwa [a.length])
      rw [a.graphScan] at hm₂
      refine ⟨h₂, hrn, a₂, hm₂, lt_of_le_of_lt (card_painted_le fun u hu => ?_) hP⟩
      rw [hm₂]
      exact scan_keeps _ _ _ _ _ (by decide) (by decide) n _ j u hu
    obtain ⟨h', hrn, a, hm⟩ := paintChildren_run
      (P := fun m => (painted (Finset.range h.objects.length) .gray m).card < n)
      (g := h.graphScan n) hr hs .white hlt hro
    refine ⟨h', ?_, a, ?_⟩
    · simpa [Fuel.run, scanBody, hs, hc, hsp] using hrn
    · rw [hm]
      simp [PrivateHeap.graphScan, Graph.scan, hcl, hcn, han, hc, hsp]

theorem scan_run (hr : h.InRange) (hi : i < h.objects.length) :
    ∃ h', h.scan i = some h' ∧ SameShape h h' ∧
      h'.marking = h.graphScan (h.objects.length + 2) h.marking i := by
  refine scanBody_run (h.objects.length + 2) h i hr hi ?_
  have := Finset.card_filter_le (Finset.range h.objects.length) (fun u => h.marking.color u = .gray)
  rw [Finset.card_range] at this
  unfold painted
  omega

end Galfus.PrivateHeap
