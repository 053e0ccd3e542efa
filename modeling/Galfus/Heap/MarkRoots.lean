import Galfus.Heap.Release
import Galfus.Heap.Traversal

/-! # The mark phase

The buffered roots are marked one after the other. A root that an earlier root
has reached is no longer purple when its turn comes, and it is dropped from the
buffer or even freed. The mark phase is described by the set of slots that it
has touched: the others are as they were, and no reference out of a touched slot
counts any longer.
-/

namespace Galfus.PrivateHeap

open Graph

variable {h₀ h h₁ h₂ : PrivateHeap} {i j : ℕ} {s : HeapSlot} {Θ : Finset ℕ} {N : Finset ℕ}

/-- How often a reference occurs among the children of the objects on the heap. -/
def occurrences (h : PrivateHeap) (r : VmObjectRef) : ℕ :=
  ∑ u ∈ Finset.range h.objects.length, (h.childrenAt u).count r

def Accurate (h : PrivateHeap) : Prop :=
  ∀ i s, h.objects[i]? = some s → s.object.isSome → s.edges = h.occurrences ⟨i, s.generation⟩

/-- The root buffer holds the purple objects, which are referenced but not
anchored, and all other objects are black. -/
structure Buffered (h : PrivateHeap) : Prop where
  root : ∀ i ∈ h.roots, ∃ s, h.objects[i]? = some s ∧ s.object.isSome ∧ s.color = .purple ∧
    s.anchors = 0 ∧ 0 < s.edges
  other : ∀ i s, h.objects[i]? = some s → s.object.isSome → i ∉ h.roots → s.color = .black

/-- A heap on which a collection may start. -/
structure AtRest (h : PrivateHeap) : Prop where
  inRange : h.InRange
  accurate : h.Accurate
  buffered : h.Buffered

instance (h : PrivateHeap) : Decidable h.Accurate :=
  decidable_of_iff (∀ p ∈ h.objects.zipIdx, p.1.object.isSome →
      p.1.edges = h.occurrences ⟨p.2, p.1.generation⟩) <| by
    constructor
    · intro H i s hs ho
      exact H (s, i) (List.mem_zipIdx_iff_getElem?.mpr hs) ho
    · rintro H ⟨s, i⟩ hp ho
      exact H i s (List.mem_zipIdx_iff_getElem?.mp hp) ho

instance (h : PrivateHeap) : Decidable h.InRange :=
  decidable_of_iff (∀ s ∈ h.objects, ∀ c ∈ s.children, c.index < h.objects.length) <| by
    constructor
    · intro H i c hc
      cases hs : h.objects[i]? with
      | none => simp [childrenAt, hs] at hc
      | some s => exact H s (List.mem_of_getElem? hs) c (by rwa [childrenAt_eq hs] at hc)
    · intro H s hs c hc
      obtain ⟨i, hi⟩ := List.mem_iff_getElem?.mp hs
      exact H i c (by rwa [childrenAt_eq hi])

instance (h : PrivateHeap) : Decidable h.Buffered :=
  decidable_of_iff ((∀ i ∈ h.roots, ∃ s ∈ h.objects[i]?, s.object.isSome ∧ s.color = .purple ∧
      s.anchors = 0 ∧ 0 < s.edges) ∧
      ∀ p ∈ h.objects.zipIdx, p.1.object.isSome → p.2 ∉ h.roots → p.1.color = .black) <| by
    constructor
    · rintro ⟨H, H'⟩
      exact ⟨H, fun i s hs => H' (s, i) (List.mem_zipIdx_iff_getElem?.mpr hs)⟩
    · rintro ⟨H, H'⟩
      exact ⟨H, fun p hp => H' p.2 p.1 (List.mem_zipIdx_iff_getElem?.mp hp)⟩

instance (h : PrivateHeap) : Decidable h.AtRest :=
  decidable_of_iff (h.InRange ∧ h.Accurate ∧ h.Buffered)
    ⟨fun ⟨a, b, c⟩ => ⟨a, b, c⟩, fun ⟨a, b, c⟩ => ⟨a, b, c⟩⟩

theorem count_succ (hs : h.objects[i]? = some s) (u : ℕ) :
    (h.succ u).count i = (h.childrenAt u).count ⟨i, s.generation⟩ := by
  unfold succ
  induction h.childrenAt u with
  | nil => rfl
  | cons c cs ih =>
    have hcr : h.Current c ∧ c.index = i ↔ c = ⟨i, s.generation⟩ := by
      constructor
      · rintro ⟨hc, rfl⟩
        have hg : s.generation = c.generation := by simpa [Current, hs] using hc
        rw [hg]
      · rintro rfl
        simp [Current, hs]
    rw [List.count_cons, ← ih]
    by_cases hc : h.Current c
    · rw [List.filter_cons_of_pos (by simpa using hc), List.map_cons, List.count_cons]
      simp [← hcr, hc]
    · rw [List.filter_cons_of_neg (by simpa using hc)]
      have hne : ¬ c = ⟨i, s.generation⟩ := fun he => hc (hcr.mpr he).1
      simp [hne]

theorem occurrences_eq_refs (hs : h.objects[i]? = some s) :
    h.occurrences ⟨i, s.generation⟩ = refs h.succ (Finset.range h.objects.length) i := by
  simp only [occurrences, refs, count_succ hs]

theorem Accurate.edgesAt (ha : h.Accurate) (hl : h.Live i) :
    h.edgesAt i = refs h.succ (Finset.range h.objects.length) i := by
  obtain ⟨s, hs, ho⟩ := hl
  rw [edgesAt_eq hs, ha i s hs ho, occurrences_eq_refs hs]

/-- What a mark phase that started on `h₀` has reached after touching `Θ`. -/
structure Marked (h₀ : PrivateHeap) (Θ : Finset ℕ) (h : PrivateHeap) : Prop where
  frees : ∃ fs, Frees fs h₀ h
  anchors : ∀ i, h.anchorsAt i = h₀.anchorsAt i
  closed : Closed h₀.succ (Θ : Set ℕ)
  untouched : ∀ i ∉ Θ, h.objects[i]? = h₀.objects[i]?
  edges : ∀ i, h.edgesAt i ≤ h₀.edgesAt i - refs h₀.succ Θ i
  roots : ∀ i ∈ h.roots, i < h₀.objects.length

namespace Marked

theorem start (h : PrivateHeap) : Marked h ∅ (h.putRoots ∅) where
  frees := ⟨[], (Frees.refl h).putRoots ∅⟩
  anchors _ := rfl
  closed := by simp [Closed]
  untouched _ _ := rfl
  edges _ := by simp [edgesAt, putRoots]
  roots := by simp [putRoots]

variable (m : Marked h₀ Θ h)

include m

theorem length : h.objects.length = h₀.objects.length := m.frees.elim fun _ a => a.length

theorem live (hl : h.Live i) : h₀.Live i := m.frees.elim fun _ a => (a.live.mp hl).1

theorem reaches (hr : Reaches h.succ i j) : Reaches h₀.succ i j :=
  m.frees.elim fun _ a => a.reaches hr

theorem inRange (hr : h₀.InRange) : h.InRange := m.frees.elim fun _ a => a.inRange hr

theorem succ_of_untouched (hi : i ∉ Θ) : h.succ i = h₀.succ i := by
  obtain ⟨fs, a⟩ := m.frees
  simp only [PrivateHeap.succ, childrenAt, m.untouched i hi, a.current]

/-- A path in the graph at the start that ends in an untouched slot is still there. -/
theorem reaches_untouched (hj : j ∉ Θ) (hr : Reaches h₀.succ i j) : Reaches h.succ i j := by
  induction hr using Relation.ReflTransGen.head_induction_on with
  | refl => exact .refl j
  | @head a b hab hbj ih =>
    have ha : a ∉ Θ := fun ha => hj (m.closed.mem_of_reaches ha (.head hab hbj))
    exact .head (by rwa [m.succ_of_untouched ha]) ih

/-- What is still held after its references were discounted is referenced from an
untouched slot. -/
theorem exists_untouched (ha : h₀.Accurate) (hl : h.Live i) (hz : h₀.anchorsAt i = 0)
    (hh : h.Held i) : ∃ v, v ∉ Θ ∧ i ∈ h₀.succ v := by
  have hps : 0 < h.edgesAt i := by
    rcases hh hl with hp | hp
    · rw [m.anchors, hz] at hp
      omega
    · exact hp
  have hlt : refs h₀.succ Θ i < refs h₀.succ (Finset.range h₀.objects.length) i := by
    have := m.edges i
    rw [ha.edgesAt (m.live hl)] at this
    omega
  by_contra hno
  push Not at hno
  refine absurd hlt (Nat.not_lt.mpr (Finset.sum_le_sum_of_ne_zero fun u _ hu => ?_))
  by_contra huΘ
  exact hu (List.count_eq_zero.mpr (hno u huΘ))

end Marked

open Classical in
noncomputable def reachable (h : PrivateHeap) (i : ℕ) : Finset ℕ :=
  (Finset.range h.objects.length).filter (Reaches h.succ i ·)

theorem mem_reachable (hi : i < h.objects.length) : j ∈ h.reachable i ↔ Reaches h.succ i j := by
  simp only [reachable, Finset.mem_filter, and_iff_right_iff_imp]
  intro hr
  simpa using h.closed_range_succ.mem_of_reaches (by simpa using hi) hr

theorem lt_of_mem_reachable (hj : j ∈ h.reachable i) : j < h.objects.length := by
  simp only [reachable, Finset.mem_filter, Finset.mem_range] at hj
  exact hj.1

/-- What marking root `i` does after `Θ` has been touched. -/
structure MarkStep (h₀ : PrivateHeap) (Θ : Finset ℕ) (h : PrivateHeap) (i : ℕ) (h' : PrivateHeap) :
    Prop where
  marked : Marked h₀ (Θ ∪ h₀.reachable i) h'
  frees : ∃ fs, Frees fs h h'
  frame : ∀ u, ¬ Reaches h₀.succ i u → h'.objects[u]? = h.objects[u]?
  deaths : ∀ u, h.Live u → ¬ h'.Live u → ∀ w ∈ h.succ u, h'.Held w
  release : h.anchorsAt i = 0 → h.edgesAt i = 0 → ¬ h'.Live i
  keeps : 0 < h.edgesAt i → ∀ u, h.Live u → h'.Live u

theorem iterate_pred (n k : ℕ) : (fun c => c - 1)^[n] k = k - n := by
  induction n generalizing k with
  | zero => rfl
  | succ n ih =>
    rw [Function.iterate_succ_apply, ih]
    omega

theorem SameShape.slot_eq (a : SameShape h h₁) (hi : i < h.objects.length)
    (hc : h₁.colorAt i = h.colorAt i) (he : h₁.edgesAt i = h.edgesAt i) :
    h₁.objects[i]? = h.objects[i]? := by
  obtain ⟨s, hs⟩ := exists_slot hi
  obtain ⟨t, ht, hts⟩ := a.slot hs
  rw [colorAt_eq hs, colorAt_eq ht] at hc
  rw [edgesAt_eq hs, edgesAt_eq ht] at he
  obtain ⟨hg, ha, ho⟩ := HeapSlot.shape_eq_iff.mp hts
  cases s
  cases t
  simp_all

theorem SameShape.slot_none (a : SameShape h h₁) (hi : ¬ i < h.objects.length) :
    h₁.objects[i]? = h.objects[i]? := by
  rw [List.getElem?_eq_none (Nat.not_lt.mp hi),
    List.getElem?_eq_none (by rw [a.length]; exact Nat.not_lt.mp hi)]

/-- The paint spreads only to slots that `i` reaches, and follows only their references. -/
theorem frame_of_paints (a : SameShape h h₁)
    (hN : Paints h.succ .gray (· - 1) h.marking [i] [] N h₁.marking) (u : ℕ)
    (hu : ¬ Reaches h.succ i u) : h₁.objects[u]? = h.objects[u]? := by
  have hin : ∀ v ∈ N, Reaches h.succ i v := by
    intro v hv
    obtain ⟨x, hx, hr⟩ := hN.reached v hv
    obtain rfl := List.mem_singleton.mp hx
    exact hr
  by_cases hlt : u < h.objects.length
  swap
  · exact a.slot_none hlt
  have hrf : refs h.succ N u = 0 :=
    refs_eq_zero_iff.mpr fun v hv hmm => hu ((hin v hv).tail hmm)
  refine a.slot_eq hlt ?_ ?_
  · have := hN.spread.color u
    rwa [if_neg fun hm => hu (hin u hm)] at this
  · have := hN.spread.count u
    rwa [hrf] at this

/-- A painting run from an untouched root enters every live slot that it makes touched. -/
theorem Marked.painted (m : Marked h₀ Θ h) (hq : ∀ j, h₀.Live j → h₀.colorAt j ≠ .gray)
    (hN : Paints h.succ .gray (· - 1) h.marking [i] [] N h₁.marking) (hr : Reaches h₀.succ i j)
    (hj : j ∉ Θ) (hl : h₀.Live j) : j ∈ N := by
  have hg : h₁.marking.color j = .gray := by
    induction hr with
    | refl => exact hN.start i (by simp)
    | @tail a b hra hab ih =>
      have haΘ : a ∉ Θ := fun ha => hj (m.closed a ha b hab)
      have hal : h₀.Live a := live_of_mem_succ hab
      have hag := ih haΘ hal
      have haN : a ∈ N := by
        by_contra haN
        rw [hN.spread.color, if_neg haN] at hag
        refine hq a hal ?_
        have : h.colorAt a = .gray := hag
        rwa [colorAt, m.untouched a haΘ] at this
      exact hN.closed a haN b (by rwa [m.succ_of_untouched haΘ])
  by_contra hjN
  rw [hN.spread.color, if_neg hjN] at hg
  refine hq j hl ?_
  have : h.colorAt j = .gray := hg
  rwa [colorAt, m.untouched j hj] at this

theorem refs_le_of_live {M : Finset ℕ} (hs : ∀ u ∈ M, h.Live u → u ∈ N) (w : ℕ) :
    refs h.succ M w ≤ refs h.succ N w := by
  refine Finset.sum_le_sum_of_ne_zero fun u hu hne => hs u hu ?_
  exact live_of_mem_succ (List.count_pos_iff.mp (Nat.pos_of_ne_zero hne))

theorem Buffered.ne_gray (hb : h.Buffered) (hl : h.Live i) : h.colorAt i ≠ .gray := by
  obtain ⟨s, hs, ho⟩ := hl
  rw [colorAt_eq hs]
  by_cases hi : i ∈ h.roots
  · obtain ⟨t, ht, -, hc, -⟩ := hb.root i hi
    obtain rfl : s = t := by simpa [hs] using ht
    simp [hc]
  · simp [hb.other i s hs ho hi]

theorem Buffered.lt (hb : h.Buffered) (hi : i ∈ h.roots) : i < h.objects.length := by
  obtain ⟨s, hs, -⟩ := hb.root i hi
  exact slot_lt hs

theorem Marked.extend (m : Marked h₀ Θ h) (hi : i < h₀.objects.length)
    {fs : List (ℕ × HeapObject)} (f : Frees fs h h₁) (ha : ∀ u, h₁.anchorsAt u = h.anchorsAt u)
    (hf : ∀ u, ¬ Reaches h₀.succ i u → h₁.objects[u]? = h.objects[u]?)
    (he : ∀ u, h₁.edgesAt u ≤ h₀.edgesAt u - refs h₀.succ (Θ ∪ h₀.reachable i) u)
    (hr : ∀ u ∈ h₁.roots, u ∈ h.roots ∨ u < h₀.objects.length) :
    Marked h₀ (Θ ∪ h₀.reachable i) h₁ where
  frees := m.frees.elim fun gs g => ⟨gs ++ fs, g.trans f⟩
  anchors u := (ha u).trans (m.anchors u)
  closed := by
    intro u hu w hw
    simp only [Finset.coe_union, Set.mem_union, Finset.mem_coe, mem_reachable hi] at hu ⊢
    rcases hu with hu | hu
    · exact .inl (m.closed u hu w hw)
    · exact .inr (hu.tail hw)
  untouched u hu := by
    obtain ⟨huΘ, hur⟩ : u ∉ Θ ∧ ¬ Reaches h₀.succ i u := by simpa [mem_reachable hi] using hu
    exact (hf u hur).trans (m.untouched u huΘ)
  edges := he
  roots u hu := (hr u hu).elim (m.roots u) id

/-- The trial deletion of the references that the paint follows. -/
theorem Marked.edges_of_paints (m : Marked h₀ Θ h) (hb : h₀.Buffered) (hi : i < h₀.objects.length)
    (hN : Paints h.succ .gray (· - 1) h.marking [i] [] N h₁.marking) (u : ℕ) :
    h₁.edgesAt u ≤ h₀.edgesAt u - refs h₀.succ (Θ ∪ h₀.reachable i) u := by
  have hc : h₁.edgesAt u = h.edgesAt u - refs h.succ N u := by
    have := hN.spread.count u
    rw [iterate_pred] at this
    exact this
  have hs : refs h₀.succ (Θ ∪ h₀.reachable i) u =
      refs h₀.succ Θ u + refs h₀.succ (h₀.reachable i \ Θ) u := by
    rw [← Finset.union_sdiff_self_eq_union, refs_union Finset.disjoint_sdiff]
  have hp : refs h₀.succ (h₀.reachable i \ Θ) u ≤ refs h₀.succ (N \ Θ) u := by
    refine refs_le_of_live (fun v hv hl => ?_) u
    obtain ⟨hvr, hvΘ⟩ := Finset.mem_sdiff.mp hv
    have hvN := m.painted (fun j => hb.ne_gray) hN ((mem_reachable hi).mp hvr) hvΘ hl
    exact Finset.mem_sdiff.mpr ⟨hvN, hvΘ⟩
  have hsm : refs h₀.succ (N \ Θ) u = refs h.succ (N \ Θ) u :=
    Finset.sum_congr rfl fun v hv => by rw [m.succ_of_untouched (Finset.mem_sdiff.mp hv).2]
  have hm : refs h.succ (N \ Θ) u ≤ refs h.succ N u := refs_mono Finset.sdiff_subset u
  have := m.edges u
  omega

theorem Marked.reachable_subset (m : Marked h₀ Θ h) (hi : i < h₀.objects.length) (hiΘ : i ∈ Θ) :
    Θ ∪ h₀.reachable i = Θ :=
  Finset.union_eq_left.mpr fun _ hu => m.closed.mem_of_reaches hiΘ ((mem_reachable hi).mp hu)

theorem markRoot_step (hr : h₀.AtRest) (m : Marked h₀ Θ h) (hrt : i ∈ h₀.roots) :
    ∃ h', markRoot h i = some h' ∧ MarkStep h₀ Θ h i h' := by
  have hi : i < h₀.objects.length := hr.buffered.lt hrt
  have hi' : i < h.objects.length := by rw [m.length]; exact hi
  obtain ⟨s, hs⟩ := exists_slot hi'
  by_cases hp : s.color = .purple ∧ s.anchors = 0 ∧ 0 < s.edges
  · obtain ⟨h₁, N, hrn, a, hN⟩ := markGray_run (m.inRange hr.inRange) hi'
    have hfr : ∀ u, ¬ Reaches h₀.succ i u → h₁.objects[u]? = h.objects[u]? :=
      fun u hu => frame_of_paints a hN u fun hr => hu (m.reaches hr)
    have hmr : Marked h₀ (Θ ∪ h₀.reachable i) (h₁.addRoot i) := by
      refine m.extend hi ((Frees.of_sameShape a).putRoots _) a.anchorsAt hfr
        (m.edges_of_paints hr.buffered hi hN) fun u hu => ?_
      rcases Finset.mem_insert.mp hu with rfl | hu
      · exact .inr hi
      · exact .inl (a.roots ▸ hu)
    refine ⟨h₁.addRoot i, by simp [markRoot, hs, hp, hrn], hmr,
      ⟨[], (Frees.of_sameShape a).putRoots _⟩, hfr, fun u hu hd => ?_,
      fun _ he => ?_, fun _ u hu => (a.live u).mpr hu⟩
    · exact absurd ((a.live u).mpr hu) hd
    · rw [edgesAt_eq hs] at he
      omega
  -- an untouched root is still purple and referenced, so this one was reached before
  have hiΘ : i ∈ Θ := by
    by_contra hiΘ
    obtain ⟨t, ht, -, hc, ha, he⟩ := hr.buffered.root i hrt
    rw [← m.untouched i hiΘ, hs] at ht
    obtain rfl : s = t := by simpa using ht
    exact hp ⟨hc, ha, he⟩
  have hΘ := m.reachable_subset hi hiΘ
  have hpn : SameShape h (h.setSlot i (s.paint .black)) := .setSlot hs (by simp)
  have hpd : ∀ u, (h.setSlot i (s.paint .black)).edgesAt u = h.edgesAt u :=
    fun u => congrFun (congrArg Marking.count (marking_paint hs .black)) u
  have hpf : ∀ u, ¬ Reaches h₀.succ i u →
      (h.setSlot i (s.paint .black)).objects[u]? = h.objects[u]? :=
    fun u hu => getElem?_setSlot_ne fun hiu => hu (hiu ▸ .refl i)
  by_cases hz : s.anchors = 0 ∧ s.edges = 0
  · obtain ⟨fs, b, hdd⟩ := releaseInternal_releasesFrom (h.setSlot i (s.paint .black)) i
    have hrn : markRoot h i = some ((h.setSlot i (s.paint .black)).releaseInternal i) := by
      simp [markRoot, hs, hz]
    generalize (h.setSlot i (s.paint .black)).releaseInternal i = h₁ at b hdd hrn
    rw [hpn.succ] at b
    have hfr : ∀ u, ¬ Reaches h₀.succ i u → h₁.objects[u]? = h.objects[u]? :=
      fun u hu => (b.within u fun hr => hu (m.reaches hr)).trans (hpf u hu)
    have hmr : Marked h₀ (Θ ∪ h₀.reachable i) h₁ := by
      refine m.extend hi ((Frees.of_sameShape hpn).trans b.toFrees)
        (fun u => (b.anchors u).trans (hpn.anchorsAt u)) hfr (fun u => ?_) fun u hu => ?_
      · rw [hΘ]
        exact (b.edges u).trans ((hpd u).le.trans (m.edges u))
      · by_cases hu' : Reaches h.succ i u
        · exact .inr (lt_of_mem_reachable ((mem_reachable hi).mpr (m.reaches hu')))
        · exact .inl ((b.buffer u hu').mp hu)
    refine ⟨h₁, hrn, hmr, ⟨_, (Frees.of_sameShape hpn).trans b.toFrees⟩, hfr,
      fun u hu hd w hw => ?_, fun _ _ => hdd, fun he => ?_⟩
    · obtain ⟨p, hp, rfl⟩ := List.mem_map.mp (b.mem_freed_of_dead ((hpn.live u).mpr hu) hd)
      exact b.held p hp w (by rwa [hpn.succ])
    · rw [edgesAt_eq hs] at he
      omega
  · have hmr : Marked h₀ (Θ ∪ h₀.reachable i) (h.setSlot i (s.paint .black)) := by
      refine m.extend hi (.of_sameShape hpn) hpn.anchorsAt hpf (fun u => ?_) fun u hu => .inl hu
      rw [hΘ, hpd]
      exact m.edges u
    refine ⟨h.setSlot i (s.paint .black), by simp [markRoot, hs, hp, hz], hmr,
      ⟨[], .of_sameShape hpn⟩, hpf,
      fun u hu hd => ?_, fun ha he => ?_, fun _ u hu => (hpn.live u).mpr hu⟩
    · exact absurd ((hpn.live u).mpr hu) hd
    · rw [anchorsAt_eq hs] at ha
      rw [edgesAt_eq hs] at he
      exact absurd ⟨ha, he⟩ hz

noncomputable def reachedFrom (h : PrivateHeap) (rs : List ℕ) : Finset ℕ :=
  rs.foldr (fun r Θ => h.reachable r ∪ Θ) ∅

theorem mem_reachedFrom {rs : List ℕ} (hrs : ∀ r ∈ rs, r < h.objects.length) :
    j ∈ h.reachedFrom rs ↔ ∃ r ∈ rs, Reaches h.succ r j := by
  induction rs with
  | nil => simp [reachedFrom]
  | cons r rs ih =>
    have ih := ih fun x hx => hrs x (by simp [hx])
    simp only [reachedFrom, List.foldr_cons, Finset.mem_union] at ih ⊢
    simp [ih, mem_reachable (hrs r (by simp))]

theorem foldlM_markRoot (hr : h₀.AtRest) {P : PrivateHeap → Prop} (rs : List ℕ)
    (hrs : ∀ r ∈ rs, r ∈ h₀.roots)
    (hP : ∀ Θ' h h', ∀ r ∈ rs, Θ ⊆ Θ' → Marked h₀ Θ' h → MarkStep h₀ Θ' h r h' → P h → P h')
    (m : Marked h₀ Θ h) (h0 : P h) :
    ∃ h', rs.foldlM markRoot h = some h' ∧ Marked h₀ (Θ ∪ h₀.reachedFrom rs) h' ∧ P h' := by
  induction rs generalizing Θ h with
  | nil => exact ⟨h, rfl, by simpa [reachedFrom] using m, h0⟩
  | cons r rs ih =>
    obtain ⟨h₁, hrn, st⟩ := markRoot_step hr m (hrs r (by simp))
    obtain ⟨h₂, hr', m', hP'⟩ := ih (fun x hx => hrs x (by simp [hx]))
      (fun Θ' h h' x hx hs => hP Θ' h h' x (by simp [hx]) (Finset.union_subset_left hs)) st.marked
      (hP Θ h h₁ r (by simp) subset_rfl m st h0)
    refine ⟨h₂, by simp [hrn, hr'], ?_, hP'⟩
    rw [Finset.union_assoc] at m'
    exact m'

/-- No root is drained after a root that reaches it. -/
def RootsApart (h : PrivateHeap) (ord : DrainOrder ℕ) : Prop :=
  (ord.drain h.roots).Pairwise fun a b => ¬ Reaches h.succ a b

theorem SameShape.putRoots (a : SameShape h h₁) (R : Finset ℕ) :
    SameShape (h.putRoots R) (h₁.putRoots R) where
  shape := a.shape
  rest := by rw [a.rest]; rfl

/-- Roots that do not reach later ones are all still purple at their turn, so the
mark phase is a painting of what they reach. -/
theorem foldlM_markRoot_apart (hr : h.InRange) (hb : h.Buffered) (rs : List ℕ)
    (hrs : ∀ r ∈ rs, r ∈ h.roots) (hap : rs.Pairwise fun a b => ¬ Reaches h.succ a b) :
    ∃ h' N, rs.foldlM markRoot (h.putRoots ∅) = some h' ∧ SameShape (h.putRoots rs.toFinset) h' ∧
      Paints h.succ .gray (· - 1) h.marking rs [] N h'.marking := by
  induction rs using List.reverseRecOn with
  | nil => exact ⟨h.putRoots ∅, ∅, rfl, .refl _, .nil⟩
  | append_singleton rs r ih =>
    obtain ⟨hap₁, -, hap₂⟩ := List.pairwise_append.mp hap
    obtain ⟨h₁, N, hrn, a, hN⟩ := ih (fun x hx => hrs x (by simp [hx])) hap₁
    have hsc : h₁.succ = h.succ := a.succ
    have hfr : ∀ u ∈ N, ¬ Reaches h.succ u r := by
      intro u hu hur
      obtain ⟨v, hv, hvu⟩ := hN.reached u hu
      exact hap₂ v hv r (by simp) (hvu.trans hur)
    obtain ⟨s₀, hs₀, -, hc, ha, he⟩ := hb.root r (hrs r (by simp))
    obtain ⟨s, hs, hsh⟩ := a.slot (s := s₀) hs₀
    have hcl : s.color = .purple := by
      have := hN.spread.color r
      rw [if_neg fun hm => hfr r hm (.refl r)] at this
      rw [← colorAt_eq hs, ← hc, ← colorAt_eq hs₀]
      exact this
    have hed : s.edges = s₀.edges := by
      have := hN.spread.count r
      rw [refs_eq_zero_iff.mpr fun u hu hm => hfr u hu (.head hm (.refl r))] at this
      rw [← edgesAt_eq hs, ← edgesAt_eq hs₀]
      exact this
    have han : s.anchors = 0 := (HeapSlot.shape_eq_iff.mp hsh).2.1.trans ha
    obtain ⟨h₂, N', hrn', a', hN'⟩ := markGray_run (a.inRange hr) (slot_lt hs)
    rw [hsc] at hN'
    refine ⟨h₂.addRoot r, N ∪ N', ?_, ?_, hN.append hN'⟩
    · simp [List.foldlM_append, hrn, markRoot, hs, hcl, han, hed, he, hrn']
    · have hrt : insert r h₂.roots = (rs ++ [r]).toFinset := by
        rw [a'.roots, a.roots]
        ext x
        simp [PrivateHeap.putRoots]
      have := (a.trans a').putRoots (insert r h₂.roots)
      rw [hrt] at this
      unfold addRoot
      rw [hrt]
      exact this

end Galfus.PrivateHeap
