import Galfus.Heap.MarkRoots

/-! # What a collection does

The scan and sweep phases free nothing: the sweep paints a root black before it
asks whether the root is white. So a collection frees exactly what its mark phase
frees, and objects that scanning leaves white stay on the heap without their edges.
-/

namespace Galfus.PrivateHeap

open Graph

variable {h h₁ h₂ : PrivateHeap} {i j : ℕ} {s : HeapSlot}

theorem foldlM_scan (hr : h.InRange) (vs : List ℕ) (hvs : ∀ v ∈ vs, v < h.objects.length) :
    ∃ h', vs.foldlM scan h = some h' ∧ SameShape h h' ∧
      h'.marking = vs.foldl (h.graphScan (h.objects.length + 2)) h.marking := by
  induction vs generalizing h with
  | nil => exact ⟨h, rfl, .refl h, rfl⟩
  | cons v vs ih =>
    obtain ⟨h₁, hrn, a, hm⟩ := scan_run hr (hvs v (by simp))
    obtain ⟨h₂, hr', a', hm'⟩ := ih (a.inRange hr) fun x hx => by
      rw [a.length]
      exact hvs x (by simp [hx])
    refine ⟨h₂, by simp [hrn, hr'], a.trans a', ?_⟩
    rw [hm', a.graphScan, a.length, hm, List.foldl_cons]

theorem collectWhite_of_black (hs : h.objects[i]? = some s) (hc : s.color = .black) :
    h.collectWhite i = some h := by
  simp [collectWhite, Fuel.runWith, Fuel.run, collectWhiteBody, hs, hc]

theorem collectRoot_run (hi : i < h.objects.length) :
    ∃ h', h.collectRoot i = some h' ∧ SameShape h h' ∧ h'.marking = h.marking.shade .black i := by
  obtain ⟨s, hs⟩ := exists_slot hi
  refine ⟨h.setSlot i (s.paint .black), ?_, .setSlot hs (by simp), marking_paint hs .black⟩
  have hw := collectWhite_of_black (getElem?_setSlot_self (s := s.paint .black) hi) rfl
  simp [collectRoot, modifySlot, hs, hw]

theorem foldlM_collectRoot (vs : List ℕ) (hvs : ∀ v ∈ vs, v < h.objects.length) :
    ∃ h', vs.foldlM collectRoot h = some h' ∧ SameShape h h' ∧ h'.edgesAt = h.edgesAt ∧
      ∀ u, h'.colorAt u = if u ∈ vs then .black else h.colorAt u := by
  induction vs generalizing h with
  | nil => exact ⟨h, rfl, .refl h, rfl, by simp⟩
  | cons v vs ih =>
    obtain ⟨h₁, hr, a, hm⟩ := collectRoot_run (hvs v (by simp))
    obtain ⟨h₂, hr', a', he, hc⟩ := ih (h := h₁) fun x hx => by
      rw [a.length]
      exact hvs x (by simp [hx])
    refine ⟨h₂, by simp [hr, hr'], a.trans a', ?_, fun u => ?_⟩
    · exact he.trans (congrArg Marking.count hm)
    · have hv : h₁.colorAt u = if u = v then .black else h.colorAt u := by
        have := congrFun (congrArg Marking.color hm) u
        rw [Marking.shade_color] at this
        exact this
      rw [hc, hv]
      by_cases huv : u = v <;> by_cases hu : u ∈ vs <;> simp [huv, hu]

theorem scan_sweep_run (o : CollectOrder) (hr : h.InRange)
    (hrt : ∀ i ∈ h.roots, i < h.objects.length) :
    ∃ h', (h.scanRoots o.scan >>= collectRoots o.sweep) = some h' ∧ SameShape (h.putRoots ∅) h' ∧
      h'.edgesAt = ((o.scan.drain h.roots).foldl (h.graphScan (h.objects.length + 2))
        h.marking).count ∧
      ∀ u, h'.colorAt u = if u ∈ h.roots then .black else
        ((o.scan.drain h.roots).foldl (h.graphScan (h.objects.length + 2)) h.marking).color u := by
  obtain ⟨h₁, hrn, a, hm⟩ := foldlM_scan hr (o.scan.drain h.roots) fun v hv =>
    hrt v ((o.scan.mem_drain _ v).mp hv)
  obtain ⟨h₂, hr', a', he, hc⟩ := foldlM_collectRoot (h := h₁.putRoots ∅)
    (o.sweep.drain h₁.roots) fun v hv => by
      have := hrt v (a.roots ▸ (o.sweep.mem_drain _ v).mp hv)
      rwa [← a.length] at this
  refine ⟨h₂, ?_, (a.putRoots ∅).trans a', ?_, fun u => ?_⟩
  · unfold scanRoots
    rw [hrn]
    exact hr'
  · rw [he, ← hm]
    rfl
  · rw [hc, ← hm]
    simp only [o.sweep.mem_drain, a.roots]
    rfl

/-- A collection frees what its mark phase frees. -/
theorem collectCycles_of_marked (o : CollectOrder) (hr : h.InRange) (hne : h.roots ≠ ∅)
    {Θ : Finset ℕ} (hm : h.markRoots o.mark = some h₁) (m : Marked h Θ h₁) :
    ∃ h', h.collectCycles o = some h' ∧ SameShape (h₁.putRoots ∅) h' := by
  have hrt : ∀ i ∈ h₁.roots, i < h₁.objects.length := fun i hi => m.length ▸ m.roots i hi
  obtain ⟨h', hrn, a, -⟩ := scan_sweep_run o (m.inRange hr) hrt
  refine ⟨h', ?_, a⟩
  unfold collectCycles
  rw [if_neg hne, hm]
  exact hrn

section Frees

variable {r : ℕ} {pre p : List ℕ}

theorem markRoots_eq (o : DrainOrder ℕ) (h : PrivateHeap) :
    h.markRoots o = (o.drain h.roots).foldlM markRoot (h.putRoots ∅) := rfl

/-- A root whose references all come from what earlier roots reach is freed. -/
theorem foldlM_markRoot_dead (hr : h.AtRest) (hL : ∀ x ∈ pre ++ i :: p, x ∈ h.roots)
    (hrf : ∀ u, i ∈ h.succ u → ∃ a ∈ pre, Reaches h.succ a u)
    (hrn : (pre ++ i :: p).foldlM markRoot (h.putRoots ∅) = some h₁) : ¬ h₁.Live i := by
  have hrt : i ∈ h.roots := hL i (by simp)
  have hpr : ∀ x ∈ pre, x ∈ h.roots := fun x hx => hL x (by simp [hx])
  obtain ⟨s, hs, ho, -, ha, -⟩ := hr.buffered.root i hrt
  obtain ⟨g, hg, m, -⟩ := foldlM_markRoot (P := fun _ => True) hr pre hpr
    (fun _ _ _ _ _ _ _ _ h => h) (.start h) trivial
  obtain ⟨g₁, hg₁, st⟩ := markRoot_step hr m hrt
  have hed : g.edgesAt i = 0 := by
    have hle : refs h.succ (Finset.range h.objects.length) i ≤
        refs h.succ (∅ ∪ h.reachedFrom pre) i := by
      refine Finset.sum_le_sum_of_ne_zero fun u _ hu => ?_
      have hmm := List.count_pos_iff.mp (Nat.pos_of_ne_zero hu)
      simpa [mem_reachedFrom fun x hx => hr.buffered.lt (hpr x hx)] using hrf u hmm
    have := m.edges i
    rw [hr.accurate.edgesAt ⟨s, hs, ho⟩] at this
    omega
  have hdd := st.release ((m.anchors i).trans ((anchorsAt_eq hs).trans ha)) hed
  obtain ⟨g₂, hg₂, -, hd⟩ := foldlM_markRoot (P := fun g => ¬ g.Live i) hr p
    (fun x hx => hL x (by simp [hx]))
    (fun _ _ _ _ _ _ _ st hd hl => hd (st.frees.elim fun _ f => (f.live.mp hl).1)) st.marked hdd
  rw [List.foldlM_append, hg] at hrn
  simp only [Option.bind_eq_bind, Option.bind_some, List.foldlM_cons, hg₁, hg₂] at hrn
  cases hrn
  exact hd

/-- A root that no other root reaches survives the mark phase. -/
theorem foldlM_markRoot_keeps (hr : h.AtRest) (hL : ∀ x ∈ pre ++ i :: p, x ∈ h.roots)
    (hf : ∀ x ∈ pre ++ p, ¬ Reaches h.succ x i)
    (hrn : (pre ++ i :: p).foldlM markRoot (h.putRoots ∅) = some h₁) : h₁.Live i := by
  have hrt : i ∈ h.roots := hL i (by simp)
  have hp : ∀ x ∈ pre, x ∈ h.roots := fun x hx => hL x (by simp [hx])
  obtain ⟨s, hs, ho, -, -, he⟩ := hr.buffered.root i hrt
  obtain ⟨g, hg, m, hsm⟩ := foldlM_markRoot (P := fun g => g.objects[i]? = some s) hr pre hp
    (fun _ _ _ x hx _ _ st hP => (st.frame i (hf x (by simp [hx]))).trans hP) (.start h) hs
  obtain ⟨g₁, hg₁, st⟩ := markRoot_step hr m hrt
  have hl : g₁.Live i := st.keeps (by rwa [edgesAt_eq hsm]) i ⟨s, hsm, ho⟩
  obtain ⟨g₂, hg₂, -, hd⟩ := foldlM_markRoot (P := fun g => g.Live i) hr p
    (fun x hx => hL x (by simp [hx]))
    (fun _ _ _ x hx _ _ st hP => by
      obtain ⟨t, ht, hto⟩ := hP
      exact ⟨t, (st.frame i (hf x (by simp [hx]))).trans ht, hto⟩) st.marked hl
  rw [List.foldlM_append, hg] at hrn
  simp only [Option.bind_eq_bind, Option.bind_some, List.foldlM_cons, hg₁, hg₂] at hrn
  cases hrn
  exact hd

/-- Nothing that `r` reaches is reachable from an anchored object. -/
def Garbage (h : PrivateHeap) (r : ℕ) : Prop :=
  ∀ x y, h.Live x → 0 < h.anchorsAt x → Reaches h.succ r y → ¬ Reaches h.succ x y

/-- A root `b` that reaches `r` is drained when earlier roots reach all that refers to it. Other
objects between `b` and what `r` reaches are referenced from what `b` reaches, or from what the
first roots `q` reach, of which none is reached by an earlier one. -/
def Overtaken (h : PrivateHeap) (o : DrainOrder ℕ) (r : ℕ) : Prop :=
  ∃ q p b p', o.drain h.roots = q ++ p ++ b :: p' ∧
    q.Pairwise (fun a c => ¬ Reaches h.succ a c) ∧ Reaches h.succ b r ∧
    (∀ u, b ∈ h.succ u → ∃ a ∈ q ++ p, Reaches h.succ a u) ∧
    ∀ y u, y ≠ b → Reaches h.succ b y → Relation.Join (Reaches h.succ) y r → y ∈ h.succ u →
      Reaches h.succ b u ∨ ∃ a ∈ q, Reaches h.succ a u

/-- As long as an object between `b` and what `r` reaches is live, there is a path to it from `b`
on which no object has been freed. -/
theorem MarkStep.live_paths {h₀ h' : PrivateHeap} {Θ : Finset ℕ} {b : ℕ}
    (st : MarkStep h₀ Θ h j h') (m : Marked h₀ Θ h) (ha : h₀.Accurate) (hg : h₀.Garbage r)
    (hin : ∀ y u, y ≠ b → Reaches h₀.succ b y → Relation.Join (Reaches h₀.succ) y r →
      y ∈ h₀.succ u → u ∉ Θ → Reaches h₀.succ b u)
    (hP : ∀ y, Reaches h₀.succ b y → Relation.Join (Reaches h₀.succ) y r → h.Live y →
      Reaches h.succ b y) :
    ∀ y, Reaches h₀.succ b y → Relation.Join (Reaches h₀.succ) y r → h'.Live y →
      Reaches h'.succ b y := by
  obtain ⟨fs, f⟩ := st.frees
  have hpt : ∀ y, Reaches h.succ b y → Relation.Join (Reaches h₀.succ) y r → h'.Live y →
      Reaches h'.succ b y := by
    intro y hy
    induction hy with
    | refl => exact fun _ _ => .refl b
    | @tail u w hu hw ih =>
      rintro ⟨z, hwz, hrz⟩ hl
      by_cases hul : h'.Live u
      · have huw : Reaches h₀.succ u w := m.reaches (.head hw (.refl w))
        exact (ih ⟨z, huw.trans hwz, hrz⟩ hul).tail
          (by rwa [f.succ_of_not_mem (f.live.mp hul).2])
      by_cases hwb : w = b
      · exact hwb ▸ .refl w
      -- `u` died in this step, so what still holds `w` is a reference from an untouched slot
      have hz : h₀.anchorsAt w = 0 := by
        by_contra hne
        exact hg w z (st.marked.live hl) (Nat.pos_of_ne_zero hne) hrz hwz
      obtain ⟨v, hv, hvw⟩ := st.marked.exists_untouched ha hl hz
        (st.deaths u (live_of_mem_succ hw) hul w hw)
      have hbv : Reaches h₀.succ b v := hin w v hwb (m.reaches (hu.tail hw)) ⟨z, hwz, hrz⟩ hvw
        fun hvΘ => hv (Finset.mem_union_left _ hvΘ)
      exact (st.marked.reaches_untouched hv hbv).tail (by rwa [st.marked.succ_of_untouched hv])
  exact fun y hy hj hl => hpt y (hP y hy hj (f.live.mp hl).1) hj hl

/-- Garbage behind an overtaken root is freed. -/
theorem Overtaken.dead {o : DrainOrder ℕ} (ho : h.Overtaken o r) (hr : h.AtRest)
    (hg : h.Garbage r) (hrn : (o.drain h.roots).foldlM markRoot (h.putRoots ∅) = some h₁) :
    ∀ y, Reaches h.succ r y → ¬ h₁.Live y := by
  obtain ⟨q, p, b, p', hd, hap, hbr, hrf, hin⟩ := ho
  have hL : ∀ x ∈ q ++ p ++ b :: p', x ∈ h.roots :=
    fun x hx => (o.mem_drain _ x).mp (by rwa [hd])
  have hq : ∀ x ∈ q, x ∈ h.roots := fun x hx => hL x (by simp [hx])
  rw [hd] at hrn
  have hb := foldlM_markRoot_dead hr hL hrf hrn
  -- the roots `q` free nothing, and then all objects that the others leave untouched are in reach
  obtain ⟨g, N, hgr, a, -⟩ := foldlM_markRoot_apart hr.inRange hr.buffered q hq hap
  obtain ⟨g', hgr', m, -⟩ := foldlM_markRoot (P := fun _ => True) hr q hq
    (fun _ _ _ _ _ _ _ _ h => h) (.start h) trivial
  cases hgr.symm.trans hgr'
  obtain ⟨g₁, hgr₁, -, hP⟩ := foldlM_markRoot (P := fun g => ∀ y, Reaches h.succ b y →
      Relation.Join (Reaches h.succ) y r → g.Live y → Reaches g.succ b y) hr (p ++ b :: p')
    (fun x hx => hL x (by rw [List.append_assoc]; exact List.mem_append_right q hx))
    (fun Θ _ _ _ _ hs m st hP => st.live_paths m hr.accurate hg (fun y u hyb hby hj hyu hu => by
      refine (hin y u hyb hby hj hyu).resolve_right ?_
      rintro ⟨a, ha, hau⟩
      refine hu (hs (Finset.mem_union_right _ ?_))
      exact (mem_reachedFrom fun x hx => hr.buffered.lt (hq x hx)).mpr ⟨a, ha, hau⟩) hP) m
    (fun y hy _ _ => by
      rw [a.succ]
      exact hy)
  rw [List.append_assoc, List.foldlM_append, hgr] at hrn
  cases hgr₁.symm.trans hrn
  intro y hy hl
  rcases Relation.ReflTransGen.cases_head (hP y (hbr.trans hy) ⟨y, .refl y, hy⟩ hl) with rfl | hw
  · exact hb hl
  · obtain ⟨w, hw, -⟩ := hw
    exact hb (live_of_mem_succ hw)

end Frees

end Galfus.PrivateHeap
