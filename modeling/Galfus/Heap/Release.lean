import Galfus.Heap.Graph

/-! # Freeing objects

What every heap operation other than an allocation or a store does to the
objects: some are freed, each one returns its slot, its quota and its adapter
handle exactly once, and all others stay. On top of that, what the cascade of
`releaseInternal` guarantees: it stays within the objects reachable from where
it starts, and leaves no released object without a count that holds it.
-/

namespace Galfus

open Graph

/-- What a slot keeps unless its object is freed. -/
def HeapSlot.content (s : HeapSlot) : ℕ × Option HeapObject := (s.generation, s.object)

theorem HeapSlot.content_eq_iff {s t : HeapSlot} :
    t.content = s.content ↔ t.generation = s.generation ∧ t.object = s.object := by
  simp [content]

theorem HeapSlot.content_of_shape {s t : HeapSlot} (h : t.shape = s.shape) :
    t.content = s.content := by
  obtain ⟨hg, -, ho⟩ := shape_eq_iff.mp h
  exact content_eq_iff.mpr ⟨hg, ho⟩

namespace PrivateHeap

variable {h h₁ h₂ : PrivateHeap} {i j : ℕ} {s t : HeapSlot} {obj : HeapObject}
  {fs gs : List (ℕ × HeapObject)} {internal : PrivateHeap → ℕ → PrivateHeap}

def putRoots (h : PrivateHeap) (R : Finset ℕ) : PrivateHeap := { h with roots := R }

def objectAt (h : PrivateHeap) (i : ℕ) : Option HeapObject := (h.objects[i]?).bind HeapSlot.object

theorem objectAt_eq (hs : h.objects[i]? = some s) : h.objectAt i = s.object := by
  simp [objectAt, hs]

theorem live_iff_objectAt : h.Live i ↔ ∃ obj, h.objectAt i = some obj := by
  simp only [Live, objectAt, Option.bind_eq_some_iff, Option.isSome_iff_exists]
  constructor
  · rintro ⟨s, hs, obj, ho⟩
    exact ⟨obj, s, hs, ho⟩
  · rintro ⟨obj, s, hs, ho⟩
    exact ⟨s, hs, obj, ho⟩

theorem childrenAt_eq_objectAt (h : PrivateHeap) (i : ℕ) :
    h.childrenAt i = (h.objectAt i).elim [] HeapObject.getChildren := by
  unfold childrenAt objectAt HeapSlot.children
  cases h.objects[i]? with
  | none => rfl
  | some s => cases hs : s.object <;> simp [hs]

/-- `h'` comes from `h` by freeing the objects `fs`, in this order. Colours, counts
and the root buffer may change as well. -/
structure Frees (fs : List (ℕ × HeapObject)) (h h' : PrivateHeap) : Prop where
  generation : ∀ i : ℕ, (h'.objects[i]?).map HeapSlot.generation =
    (h.objects[i]?).map HeapSlot.generation
  object : ∀ i, h'.objectAt i = if i ∈ fs.map Prod.fst then none else h.objectAt i
  freed : ∀ p ∈ fs, h.objectAt p.1 = some p.2
  nodup : (fs.map Prod.fst).Nodup
  freeSlots : h'.freeSlots = (fs.map Prod.fst).reverse ++ h.freeSlots
  pending : h'.pendingAdapterHandleDrops =
    h.pendingAdapterHandleDrops ++ fs.filterMap fun p => p.2.handle?
  quota : h'.quota = fs.foldl (fun q p => q.releaseHeap 1 (p.2.heapBytes h.sizes)) h.quota
  sizes : h'.sizes = h.sizes
  allocations : h'.allocationsSinceRelease = h.allocationsSinceRelease

namespace Frees

theorem setSlot (hs : h.objects[i]? = some s) (hc : t.content = s.content) :
    Frees [] h (h.setSlot i t) where
  generation j := by
    rw [getElem?_setSlot]
    split
    · rename_i hij
      obtain ⟨rfl, -⟩ := hij
      simpa [hs] using (HeapSlot.content_eq_iff.mp hc).1
    · rfl
  object j := by
    unfold objectAt
    rw [getElem?_setSlot]
    split
    · rename_i hij
      obtain ⟨rfl, -⟩ := hij
      simpa [hs] using (HeapSlot.content_eq_iff.mp hc).2
    · simp
  freed := by simp
  nodup := by simp
  freeSlots := rfl
  pending := by simp [PrivateHeap.setSlot]
  quota := rfl
  sizes := rfl
  allocations := rfl

theorem putRoots (a : Frees fs h h₁) (R : Finset ℕ) : Frees fs h (h₁.putRoots R) :=
  ⟨a.generation, a.object, a.freed, a.nodup, a.freeSlots, a.pending, a.quota, a.sizes,
    a.allocations⟩

theorem of_rest (hm : h₁.objects.map HeapSlot.content = h.objects.map HeapSlot.content)
    (hr : h₁ = { h with objects := h₁.objects, roots := h₁.roots }) : Frees [] h h₁ where
  generation i := by
    have := congrArg (fun l => (l[i]?).map Prod.fst) hm
    simpa [Option.map_map, Function.comp_def, HeapSlot.content] using this
  object i := by
    have := congrArg (fun l => (l[i]?).bind Prod.snd) hm
    simpa [Option.bind_map, Function.comp_def, HeapSlot.content, objectAt] using this
  freed := by simp
  nodup := by simp
  freeSlots := by rw [hr]; rfl
  pending := by rw [hr]; simp
  quota := by rw [hr]; rfl
  sizes := by rw [hr]
  allocations := by rw [hr]

theorem refl (h : PrivateHeap) : Frees [] h h := of_rest rfl rfl

theorem of_sameShape (a : SameShape h h₁) : Frees [] h h₁ := by
  refine of_rest ?_ (by rw [a.rest])
  have := congrArg (List.map fun x : ℕ × ℕ × Option HeapObject => (x.1, x.2.2)) a.shape
  rw [List.map_map, List.map_map] at this
  exact this

theorem discard (hs : h.objects[i]? = some s) (ho : s.object = some obj)
    (hc : t.content = s.content) : Frees [(i, obj)] h (h.discard i t obj) where
  generation j := by
    show ((h.setSlot i t.vacate).objects[j]?).map _ = _
    rw [getElem?_setSlot]
    split
    · rename_i hij
      obtain ⟨rfl, -⟩ := hij
      simpa [hs, HeapSlot.vacate] using (HeapSlot.content_eq_iff.mp hc).1
    · rfl
  object j := by
    have hi := slot_lt hs
    show ((h.setSlot i t.vacate).objects[j]?).bind _ = _
    rw [getElem?_setSlot]
    by_cases hij : i = j
    · subst hij
      simp [hi, HeapSlot.vacate]
    · simp [hij, Ne.symm hij, objectAt]
  freed := by simp [objectAt_eq hs, ho]
  nodup := by simp
  freeSlots := rfl
  pending := by cases hh : obj.handle? <;> simp [PrivateHeap.discard, hh]
  quota := rfl
  sizes := rfl
  allocations := rfl

theorem trans (a : Frees fs h h₁) (b : Frees gs h₁ h₂) : Frees (fs ++ gs) h h₂ where
  generation i := (b.generation i).trans (a.generation i)
  object i := by
    rw [b.object, a.object]
    by_cases hf : i ∈ fs.map Prod.fst <;> by_cases hg : i ∈ gs.map Prod.fst <;> simp [hf, hg]
  freed p hp := by
    rcases List.mem_append.mp hp with hp | hp
    · exact a.freed p hp
    · have hb := b.freed p hp
      rw [a.object] at hb
      split at hb
      · simp at hb
      · exact hb
  nodup := by
    rw [List.map_append, List.nodup_append']
    refine ⟨a.nodup, b.nodup, fun i hi hj => ?_⟩
    obtain ⟨p, hp, rfl⟩ := List.mem_map.mp hj
    have hb := b.freed p hp
    rw [a.object, if_pos hi] at hb
    simp at hb
  freeSlots := by rw [b.freeSlots, a.freeSlots]; simp
  pending := by rw [b.pending, a.pending]; simp
  quota := by rw [b.quota, a.quota, List.foldl_append, a.sizes]
  sizes := b.sizes.trans a.sizes
  allocations := b.allocations.trans a.allocations

variable (a : Frees fs h h₁)

include a

theorem length : h₁.objects.length = h.objects.length := by
  have hg : h₁.objects.map HeapSlot.generation = h.objects.map HeapSlot.generation :=
    List.ext_getElem? fun i => by simpa using a.generation i
  simpa using congrArg List.length hg

theorem slot (hs : h.objects[i]? = some s) :
    ∃ t, h₁.objects[i]? = some t ∧ t.generation = s.generation := by
  have := a.generation i
  rw [hs] at this
  simpa using this

theorem forall_generation {P : ℕ → Prop} (hP : ∀ s ∈ h.objects, P s.generation) :
    ∀ s ∈ h₁.objects, P s.generation := by
  intro s hs
  obtain ⟨i, hi⟩ := List.mem_iff_getElem?.mp hs
  have hg := a.generation i
  rw [hi] at hg
  obtain ⟨t, ht, hts⟩ := Option.map_eq_some_iff.mp hg.symm
  rw [← hts]
  exact hP t (List.mem_of_getElem? ht)

theorem current (c : VmObjectRef) : h₁.Current c ↔ h.Current c := by
  unfold Current
  rw [a.generation]

theorem live : h₁.Live i ↔ h.Live i ∧ i ∉ fs.map Prod.fst := by
  rw [live_iff_objectAt, live_iff_objectAt, a.object]
  split <;> simp_all

theorem succ_of_not_mem (hi : i ∉ fs.map Prod.fst) : h₁.succ i = h.succ i := by
  simp [succ, childrenAt_eq_objectAt, a.object, hi, a.current]

theorem succ_subset (i : ℕ) : h₁.succ i ⊆ h.succ i := by
  by_cases hi : i ∈ fs.map Prod.fst
  · simp [succ, childrenAt_eq_objectAt, a.object, hi]
  · rw [a.succ_of_not_mem hi]
    exact fun _ hx => hx

theorem reaches (hr : Reaches h₁.succ i j) : Reaches h.succ i j := hr.mono a.succ_subset

theorem inRange (hr : h.InRange) : h₁.InRange := by
  intro i c hc
  rw [a.length]
  rw [childrenAt_eq_objectAt, a.object] at hc
  split at hc
  · simp at hc
  · rw [← childrenAt_eq_objectAt] at hc
    exact hr i c hc

theorem mem_freed_of_dead (hl : h.Live i) (hd : ¬ h₁.Live i) : i ∈ fs.map Prod.fst := by
  by_contra hi
  exact hd (a.live.mpr ⟨hl, hi⟩)

end Frees

def liveCount (h : PrivateHeap) : ℕ :=
  ((Finset.range h.objects.length).filter fun i => (h.objectAt i).isSome).card

theorem liveCount_le_length (h : PrivateHeap) : h.liveCount ≤ h.objects.length := by
  have := Finset.card_filter_le (Finset.range h.objects.length) fun i => (h.objectAt i).isSome
  rwa [Finset.card_range] at this

theorem Frees.liveCount_le (a : Frees fs h h₁) : h₁.liveCount ≤ h.liveCount := by
  refine Finset.card_le_card fun i hi => ?_
  simp only [Finset.mem_filter, a.length, a.object] at hi ⊢
  split at hi <;> simp_all

theorem Frees.liveCount_lt (a : Frees fs h h₁) (hf : fs ≠ []) : h₁.liveCount < h.liveCount := by
  obtain ⟨p, hp⟩ := List.exists_mem_of_ne_nil fs hf
  have hl := a.freed p hp
  have hlt : p.1 < h.objects.length := (live_iff_objectAt.mpr ⟨p.2, hl⟩).lt
  refine Finset.card_lt_card ((Finset.ssubset_iff_of_subset fun i hi => ?_).mpr ⟨p.1, ?_, ?_⟩)
  · simp only [Finset.mem_filter, a.length, a.object] at hi ⊢
    split at hi <;> simp_all
  · simp [hlt, hl]
  · have hm : p.1 ∈ fs.map Prod.fst := List.mem_map_of_mem hp
    simp [a.object, hm]

/-- A live object that no count holds any longer would have to be freed. -/
def Held (h : PrivateHeap) (i : ℕ) : Prop := h.Live i → 0 < h.anchorsAt i ∨ 0 < h.edgesAt i

theorem held_of_dead (hd : ¬ h.Live i) : h.Held i := fun hl => absurd hl hd

/-- A cascade of releases within `R` that frees `fs`. -/
structure Cascade (R : Set ℕ) (fs : List (ℕ × HeapObject)) (h h' : PrivateHeap) : Prop
    extends Frees fs h h' where
  anchors : ∀ i, h'.anchorsAt i = h.anchorsAt i
  edges : ∀ i, h'.edgesAt i ≤ h.edgesAt i
  within : ∀ i ∉ R, h'.objects[i]? = h.objects[i]?
  buffer : ∀ i ∉ R, i ∈ h'.roots ↔ i ∈ h.roots
  keeps : ∀ i, h.Held i → h'.Held i
  held : ∀ p ∈ fs, ∀ j ∈ h.succ p.1, h'.Held j

namespace Cascade

variable {R S : Set ℕ}

theorem refl (R : Set ℕ) (h : PrivateHeap) : Cascade R [] h h :=
  ⟨.refl h, fun _ => rfl, fun _ => le_rfl, fun _ _ => rfl, fun _ _ => Iff.rfl,
    fun _ hh => hh, by simp⟩

theorem mono (a : Cascade R fs h h₁) (hRS : R ⊆ S) : Cascade S fs h h₁ :=
  ⟨a.toFrees, a.anchors, a.edges, fun i hi => a.within i fun hm => hi (hRS hm),
    fun i hi => a.buffer i fun hm => hi (hRS hm), a.keeps, a.held⟩

theorem trans (a : Cascade R fs h h₁) (b : Cascade R gs h₁ h₂) : Cascade R (fs ++ gs) h h₂ where
  toFrees := a.toFrees.trans b.toFrees
  anchors i := (b.anchors i).trans (a.anchors i)
  edges i := (b.edges i).trans (a.edges i)
  within i hi := (b.within i hi).trans (a.within i hi)
  buffer i hi := (b.buffer i hi).trans (a.buffer i hi)
  keeps i hh := b.keeps i (a.keeps i hh)
  held p hp j hj := by
    rcases List.mem_append.mp hp with hp | hp
    · exact b.keeps j (a.held p hp j hj)
    · have hl := b.freed p hp
      rw [a.object] at hl
      split at hl
      · simp at hl
      · rename_i hm
        exact b.held p hp j (by rwa [a.succ_of_not_mem hm])

/-- A slot of `R` loses edges before the cascade. Either the cascade frees it or
it is still held. -/
theorem after_setSlot (hs : h.objects[i]? = some s) (ht : t.shape = s.shape)
    (he : t.edges ≤ s.edges) (hi : i ∈ R) {B : Finset ℕ} (hB : ∀ j ∉ R, j ∈ B ↔ j ∈ h.roots)
    (a : Cascade R fs ((h.setSlot i t).putRoots B) h₁) (hh : h₁.Held i) :
    Cascade R fs h h₁ := by
  have hlt := slot_lt hs
  have hsl : ((h.setSlot i t).putRoots B).objects[i]? = some t :=
    getElem?_setSlot_self hlt
  have hot : ∀ j, j ≠ i → ((h.setSlot i t).putRoots B).objects[j]? = h.objects[j]? :=
    fun j hj => getElem?_setSlot_ne (Ne.symm hj)
  have f : Frees [] h ((h.setSlot i t).putRoots B) :=
    (Frees.setSlot hs (HeapSlot.content_of_shape ht)).putRoots B
  refine ⟨by simpa using f.trans a.toFrees, fun j => ?_, fun j => ?_, fun j hj => ?_,
    fun j hj => ?_, fun j hj => ?_, fun p hp j hj => ?_⟩
  · rw [a.anchors]
    by_cases hji : j = i
    · subst hji
      rw [anchorsAt_eq hsl, anchorsAt_eq hs, (HeapSlot.shape_eq_iff.mp ht).2.1]
    · simp [anchorsAt, hot j hji]
  · refine (a.edges j).trans ?_
    by_cases hji : j = i
    · subst hji
      rwa [edgesAt_eq hsl, edgesAt_eq hs]
    · simp [edgesAt, hot j hji]
  · rw [a.within j hj]
    exact hot j fun hji => hj (hji ▸ hi)
  · rw [a.buffer j hj]
    exact hB j hj
  · by_cases hji : j = i
    · subst hji
      exact hh
    · refine a.keeps j ?_
      simpa only [Held, Live, anchorsAt, edgesAt, hot j hji] using hj
  · exact a.held p hp j (by rwa [f.succ_of_not_mem (by simp)])

end Cascade

/-- The specification of `releaseInternal` at slot `i`. -/
def ReleasesFrom (h : PrivateHeap) (i : ℕ) (h' : PrivateHeap) : Prop :=
  ∃ fs, Cascade {j | Reaches h.succ i j} fs h h' ∧ ¬ h'.Live i

/-- Releasing an edge is a cascade that leaves the object freed or held. -/
theorem releaseEdgeBody_cascade {n : ℕ}
    (hit : ∀ h i, h.liveCount < n → ReleasesFrom h i (internal h i)) (h : PrivateHeap)
    (c : VmObjectRef) (hn : h.liveCount < n) :
    ∃ fs, Cascade {j | Reaches h.succ c.index j} fs h (h.orKeep (releaseEdgeBody internal h c)) ∧
      (h.Current c → (h.orKeep (releaseEdgeBody internal h c)).Held c.index) := by
  cases hr : h.resolve c with
  | none =>
    have he : h.orKeep (releaseEdgeBody internal h c) = h := by simp [releaseEdgeBody, hr, orKeep]
    rw [he]
    refine ⟨[], Cascade.refl _ h, fun hc hl => ?_⟩
    obtain ⟨s, hs, ho⟩ := hl
    have hg : s.generation = c.generation := by simpa [Current, hs] using hc
    simp [resolve_eq_some_iff.mpr ⟨hs, hg, ho⟩] at hr
  | some s =>
    obtain ⟨hs, hg, -⟩ := resolve_eq_some_iff.mp hr
    have hlt := slot_lt hs
    have hsl : c.index ∈ {j | Reaches h.succ c.index j} := Reaches.refl _
    have hsb : s.decEdges.edges ≤ s.edges := Nat.sub_le _ _
    by_cases hz : s.decEdges.anchors = 0 ∧ s.decEdges.edges = 0
    · have he : h.orKeep (releaseEdgeBody internal h c) =
          internal (h.setSlot c.index s.decEdges) c.index := by
        simp [releaseEdgeBody, hr, orKeep, hz]
      rw [he]
      have a : SameShape h (h.setSlot c.index s.decEdges) := SameShape.setSlot hs (by simp)
      obtain ⟨fs, b, hdd⟩ := hit (h.setSlot c.index s.decEdges) c.index
        (lt_of_le_of_lt (Frees.of_sameShape a).liveCount_le hn)
      rw [a.succ] at b
      exact ⟨fs, b.after_setSlot (B := h.roots) hs (by simp) hsb hsl (fun _ _ => Iff.rfl)
        (held_of_dead hdd), fun _ => held_of_dead hdd⟩
    have hhl : 0 < s.anchors ∨ 0 < s.decEdges.edges := by
      have : ¬ (s.anchors = 0 ∧ s.decEdges.edges = 0) := hz
      omega
    by_cases hp : s.decEdges.anchors = 0 ∧ 0 < s.decEdges.edges ∧ s.decEdges.color ≠ .purple
    · have he : h.orKeep (releaseEdgeBody internal h c) =
          (h.setSlot c.index (s.decEdges.paint .purple)).putRoots (insert c.index h.roots) := by
        unfold releaseEdgeBody
        simp only [hr]
        rw [if_neg hz, if_pos hp]
        simp [orKeep, makePurple, setSlot, addRoot, putRoots]
      have hh : ((h.setSlot c.index (s.decEdges.paint .purple)).putRoots
          (insert c.index h.roots)).Held c.index := by
        intro _
        have hs' : ((h.setSlot c.index (s.decEdges.paint .purple)).putRoots
            (insert c.index h.roots)).objects[c.index]? = some (s.decEdges.paint .purple) :=
          getElem?_setSlot_self hlt
        rw [anchorsAt_eq hs', edgesAt_eq hs']
        exact hhl
      rw [he]
      refine ⟨[], (Cascade.refl _ _).after_setSlot (t := s.decEdges.paint .purple) hs (by simp)
        hsb hsl (fun j hj => ?_) hh, fun _ => hh⟩
      have hne : j ≠ c.index := fun hji => hj (hji ▸ hsl)
      simp [hne]
    · have he : h.orKeep (releaseEdgeBody internal h c) = h.setSlot c.index s.decEdges := by
        simp [releaseEdgeBody, hr, hz, hp, orKeep]
      have hh : (h.setSlot c.index s.decEdges).Held c.index := by
        intro _
        have hs' : (h.setSlot c.index s.decEdges).objects[c.index]? = some s.decEdges :=
          getElem?_setSlot_self hlt
        rw [anchorsAt_eq hs', edgesAt_eq hs']
        exact hhl
      rw [he]
      exact ⟨[], (Cascade.refl _ _).after_setSlot (B := h.roots) hs (by simp) hsb hsl
        (fun _ _ => Iff.rfl) hh, fun _ => hh⟩

theorem releaseEdges_cascade {n : ℕ}
    (hit : ∀ h i, h.liveCount < n → ReleasesFrom h i (internal h i)) (cs : List VmObjectRef)
    (h : PrivateHeap) (hn : h.liveCount < n) (R : Set ℕ) (hR : Closed h.succ R)
    (hcs : ∀ c ∈ cs, h.Current c → c.index ∈ R) :
    ∃ fs, Cascade R fs h (cs.foldl (fun h c => h.orKeep (releaseEdgeBody internal h c)) h) ∧
      ∀ c ∈ cs, h.Current c →
        (cs.foldl (fun h c => h.orKeep (releaseEdgeBody internal h c)) h).Held c.index := by
  induction cs generalizing h with
  | nil => exact ⟨[], .refl R h, by simp⟩
  | cons c cs ih =>
    rw [List.foldl_cons]
    obtain ⟨fs, a, ha⟩ : ∃ fs, Cascade R fs h (h.orKeep (releaseEdgeBody internal h c)) ∧
        (h.Current c → (h.orKeep (releaseEdgeBody internal h c)).Held c.index) := by
      by_cases hc : h.Current c
      · obtain ⟨fs, a, ha⟩ := releaseEdgeBody_cascade hit h c hn
        exact ⟨fs, a.mono fun j hj => hR.mem_of_reaches (hcs c (by simp) hc) hj, ha⟩
      · -- a stale reference does not resolve
        have he : h.orKeep (releaseEdgeBody internal h c) = h := by
          have hr : h.resolve c = none := resolve_eq_none_of_not_current hc
          simp [releaseEdgeBody, hr, orKeep]
        rw [he]
        exact ⟨[], .refl R h, fun hc' => absurd hc' hc⟩
    generalize h.orKeep (releaseEdgeBody internal h c) = h₁ at a ha ⊢
    obtain ⟨gs, b, hb⟩ := ih h₁ (lt_of_le_of_lt a.liveCount_le hn)
      (fun u hu w hw => hR u hu w (a.succ_subset u hw))
      fun d hd hdc => hcs d (by simp [hd]) ((a.current d).mp hdc)
    refine ⟨fs ++ gs, a.trans b, fun d hd hdc => ?_⟩
    rcases List.mem_cons.mp hd with rfl | hd
    · exact b.keeps _ (ha hdc)
    · exact hb d hd ((a.current d).mpr hdc)

theorem run_releasesFrom (n : ℕ) (h : PrivateHeap) (i : ℕ) (hn : h.liveCount < n) :
    ReleasesFrom h i (Fuel.run releaseInternalBody (fun h _ => h) n h i) := by
  induction n generalizing h i with
  | zero => omega
  | succ n ih =>
    have hse : i ∈ {j | Reaches h.succ i j} := Reaches.refl i
    simp only [Fuel.run, releaseInternalBody]
    cases hs : h.objects[i]? with
    | none =>
      refine ⟨[], Cascade.refl _ h, ?_⟩
      rintro ⟨s, hs', -⟩
      simp [hs] at hs'
    | some s =>
      have hlt := slot_lt hs
      cases ho : s.object with
      | none =>
        have hs' : ((h.setSlot i (s.paint .black)).putRoots (h.roots.erase i)).objects[i]? =
            some (s.paint .black) := getElem?_setSlot_self hlt
        have hdd : ¬ ((h.setSlot i (s.paint .black)).putRoots (h.roots.erase i)).Live i := by
          rw [live_iff hs']
          simp [HeapSlot.paint, ho]
        simp only [ho]
        refine ⟨[], (Cascade.refl _ _).after_setSlot (B := h.roots.erase i) hs (t := s.paint .black)
          (by simp) le_rfl hse (fun j hj => ?_) (held_of_dead hdd), hdd⟩
        have hne : j ≠ i := fun hji => hj (hji ▸ hse)
        simp [hne]
      | some obj =>
        have f : Frees [(i, obj)] h ((h.dropRoot i).discard i s obj) :=
          ((Frees.refl h).putRoots (h.roots.erase i)).trans
            (Frees.discard (h := h.dropRoot i) hs ho rfl)
        have hsl : ∀ j, j ≠ i → ((h.dropRoot i).discard i s obj).objects[j]? = h.objects[j]? :=
          fun j hj => getElem?_setSlot_ne (h := h.dropRoot i) (Ne.symm hj)
        have hvc : ((h.dropRoot i).discard i s obj).objects[i]? = some s.vacate :=
          getElem?_setSlot_self (h := h.dropRoot i) hlt
        have hdd : ¬ ((h.dropRoot i).discard i s obj).Live i := by
          simp [live_iff hvc, HeapSlot.vacate]
        have hch : h.childrenAt i = obj.getChildren := by
          simp [childrenAt_eq hs, HeapSlot.children, ho]
        simp only [ho]
        have hbf : ((h.dropRoot i).discard i s obj).roots = h.roots.erase i := rfl
        generalize (h.dropRoot i).discard i s obj = h₁ at f hsl hvc hdd hbf ⊢
        obtain ⟨fs, b, hb⟩ := releaseEdges_cascade ih obj.getChildren h₁
          (by have := f.liveCount_lt (by simp); omega) {j | Reaches h.succ i j}
          (fun u hu w hw => hu.tail (f.succ_subset u hw))
          (fun c hc hcr => .head (mem_succ_iff.mpr ⟨c, by rwa [hch],
            (f.current c).mp hcr, rfl⟩) (.refl _))
        refine ⟨(i, obj) :: fs, ⟨f.trans b.toFrees, fun j => ?_, fun j => ?_, fun j hj => ?_,
          fun j hj => ?_, fun j hj => ?_, fun p hp j hj => ?_⟩, fun hl => hdd (b.live.mp hl).1⟩
        · rw [b.anchors]
          by_cases hji : j = i
          · subst hji
            simp [anchorsAt_eq hvc, anchorsAt_eq hs, HeapSlot.vacate]
          · simp [anchorsAt, hsl j hji]
        · refine (b.edges j).trans ?_
          by_cases hji : j = i
          · subst hji
            simp [edgesAt_eq hvc, edgesAt_eq hs, HeapSlot.vacate]
          · simp [edgesAt, hsl j hji]
        · rw [b.within j hj]
          exact hsl j fun hji => hj (hji ▸ hse)
        · have hne : j ≠ i := fun hji => hj (hji ▸ hse)
          rw [b.buffer j hj, hbf]
          simp [hne]
        · by_cases hji : j = i
          · subst hji
            exact held_of_dead fun hl => hdd (b.live.mp hl).1
          · refine b.keeps j ?_
            simpa only [Held, Live, anchorsAt, edgesAt, hsl j hji] using hj
        · rcases List.mem_cons.mp hp with rfl | hp
          · obtain ⟨c, hc, hcr, rfl⟩ := mem_succ_iff.mp hj
            rw [hch] at hc
            exact hb c hc ((f.current c).mpr hcr)
          · have hlv : h₁.Live p.1 := live_iff_objectAt.mpr ⟨p.2, b.freed p hp⟩
            have hne : p.1 ≠ i := fun he => hdd (he ▸ hlv)
            exact b.held p hp j (by rwa [f.succ_of_not_mem (by simpa using hne)])

/-- `releaseInternal` frees its object and everything whose last count goes with it. -/
theorem releaseInternal_releasesFrom (h : PrivateHeap) (i : ℕ) :
    ReleasesFrom h i (h.releaseInternal i) :=
  run_releasesFrom _ h i (Nat.lt_succ_of_le h.liveCount_le_length)

section Releasing

variable {G : HeapSlot → Prop} {R : PrivateHeap → PrivateHeap → Prop}
  {internal : PrivateHeap → ℕ → PrivateHeap}

/-- A relation between heaps that holds for all that a release does. The slots that it empties have
the property `G`. -/
structure Releasing (G : HeapSlot → Prop) (R : PrivateHeap → PrivateHeap → Prop) : Prop where
  refl : ∀ h, R h h
  trans : ∀ {h h₁ h₂}, R h h₁ → R h₁ h₂ → R h h₂
  dropRoot : ∀ h i, R h (h.dropRoot i)
  lower : ∀ {h i s}, h.objects[i]? = some s → R h (h.setSlot i s.decEdges)
  purple : ∀ {h i s}, h.objects[i]? = some s → s.anchors = 0 → R h (h.makePurple i s)
  blacken : ∀ {h i s}, h.objects[i]? = some s → s.object = none → R h (h.setSlot i (s.paint .black))
  discard : ∀ {h i s obj}, h.objects[i]? = some s → s.object = some obj → G s →
    R h (h.discard i s obj)
  gone : ∀ {s}, s.anchors = 0 → G s

/-- The relation holds for the release of a slot that may be emptied. -/
def Follows (G : HeapSlot → Prop) (R : PrivateHeap → PrivateHeap → Prop)
    (internal : PrivateHeap → ℕ → PrivateHeap) : Prop :=
  ∀ h i, (∀ s, h.objects[i]? = some s → G s) → R h (internal h i)

namespace Releasing

variable (hR : Releasing G R)
include hR

theorem settle (hi : Follows G R internal) (hs : h.objects[i]? = some s)
    (ht : R h (h.setSlot i t)) (hz : t.anchors = 0) :
    R h (internal (h.setSlot i t) i) ∧ R h ((h.setSlot i t).makePurple i t) := by
  have hsl := getElem?_setSlot_self (s := t) (slot_lt hs)
  constructor
  · exact hR.trans ht (hi _ _ fun u hu => Option.some.inj (hsl.symm.trans hu) ▸ hR.gone hz)
  · exact hR.trans ht (hR.purple hsl hz)

theorem releaseEdgeBody (hi : Follows G R internal) (h : PrivateHeap) (c : VmObjectRef) :
    R h (h.orKeep (releaseEdgeBody internal h c)) := by
  unfold PrivateHeap.releaseEdgeBody
  cases hr : h.resolve c with
  | none => exact hR.refl h
  | some s =>
    have hs := (resolve_eq_some_iff.mp hr).1
    have hst := hR.settle hi hs (hR.lower hs)
    dsimp only
    split
    · next hz => exact (hst hz.1).1
    · split
      · next hz => exact (hst hz.1).2
      · exact hR.lower hs

theorem releaseInternalBody (hi : Follows G R internal) :
    Follows G R (releaseInternalBody internal) := by
  intro h i hG
  unfold PrivateHeap.releaseInternalBody
  cases hs : h.objects[i]? with
  | none => exact hR.refl h
  | some s =>
    dsimp only
    cases ho : s.object with
    | none => exact hR.trans (hR.dropRoot h i) (hR.blacken hs ho)
    | some obj =>
      have hd := hR.trans (hR.dropRoot h i) (hR.discard hs ho (hG s hs))
      dsimp only
      generalize (h.dropRoot i).discard i s obj = h₁ at hd
      induction obj.getChildren generalizing h₁ with
      | nil => exact hd
      | cons c cs ih => exact ih _ (hR.trans hd (hR.releaseEdgeBody hi h₁ c))

theorem releaseInternal : Follows G R releaseInternal := by
  have hr (n : ℕ) : Follows G R (Fuel.run PrivateHeap.releaseInternalBody (fun h _ => h) n) := by
    induction n with
    | zero => exact fun h i _ => hR.refl h
    | succ n ih => exact hR.releaseInternalBody ih
  exact fun h i hG => hr _ h i hG

theorem releaseAnchor {c : VmObjectRef}
    (hl : ∀ s, h.objects[c.index]? = some s → R h (h.setSlot c.index s.decAnchors)) :
    R h (h.orKeep (h.releaseAnchor c)) := by
  unfold PrivateHeap.releaseAnchor
  cases hr : h.resolve c with
  | none => exact hR.refl h
  | some s =>
    have hs := (resolve_eq_some_iff.mp hr).1
    have hst := hR.settle hR.releaseInternal hs (hl s hs)
    dsimp only
    split
    · next hz =>
      split
      · exact (hst hz).1
      · split
        · exact (hst hz).2
        · exact hl s hs
    · exact hl s hs

end Releasing

end Releasing

section Equation

variable {f g : PrivateHeap → ℕ → PrivateHeap} {k : ℕ}

theorem releasing_liveCount : Releasing (fun _ => True) fun h h' => h'.liveCount ≤ h.liveCount where
  refl _ := le_rfl
  trans a b := b.trans a
  dropRoot h _ := ((Frees.refl h).putRoots _).liveCount_le
  lower {_ _ s} hs := (Frees.setSlot (t := s.decEdges) hs rfl).liveCount_le
  purple {_ _ s} hs _ := ((Frees.setSlot (t := s.paint .purple) hs rfl).putRoots _).liveCount_le
  blacken {_ _ s} hs _ := (Frees.setSlot (t := s.paint .black) hs rfl).liveCount_le
  discard hs ho _ := (Frees.discard hs ho rfl).liveCount_le
  gone _ := trivial

theorem releaseEdges_congr (hf : ∀ h i, (f h i).liveCount ≤ h.liveCount)
    (hfg : ∀ h i, h.liveCount < k → f h i = g h i) (cs : List VmObjectRef) (h : PrivateHeap)
    (hk : h.liveCount < k) :
    cs.foldl (fun h c => h.orKeep (releaseEdgeBody f h c)) h =
      cs.foldl (fun h c => h.orKeep (releaseEdgeBody g h c)) h := by
  induction cs generalizing h with
  | nil => rfl
  | cons c cs ih =>
    have he : releaseEdgeBody f h c = releaseEdgeBody g h c := by
      unfold releaseEdgeBody
      cases hr : h.resolve c with
      | none => rfl
      | some s =>
        have hs := (resolve_eq_some_iff.mp hr).1
        have a : Frees [] h (h.setSlot c.index s.decEdges) := .setSlot hs rfl
        simp only [hfg _ c.index (lt_of_le_of_lt a.liveCount_le hk)]
    rw [List.foldl_cons, List.foldl_cons, ← he]
    exact ih _ (lt_of_le_of_lt (releasing_liveCount.releaseEdgeBody (fun h i _ => hf h i) h c) hk)

theorem discard_liveCount_lt (hs : h.objects[i]? = some s) (ho : s.object = some obj) :
    ((h.dropRoot i).discard i s obj).liveCount < h.liveCount :=
  (((Frees.refl h).putRoots (h.roots.erase i)).trans
    (.discard (h := h.dropRoot i) hs ho rfl)).liveCount_lt (by simp)

theorem decreasing_releaseInternalBody : Fuel.Decreasing releaseInternalBody
    (fun h h' => h'.liveCount ≤ h.liveCount) (fun h _ => h.liveCount) where
  keeps f hf h i :=
    releasing_liveCount.releaseInternalBody (fun h i _ => hf h i) h i fun _ _ => trivial
  congr f g hf hg h i hfg := by
    unfold releaseInternalBody
    cases hs : h.objects[i]? with
    | none => rfl
    | some s =>
      cases ho : s.object with
      | none => simp only [ho]
      | some obj =>
        simp only [ho]
        exact releaseEdges_congr hf hfg _ _ (discard_liveCount_lt hs ho)

theorem releaseInternal_eq (h : PrivateHeap) (i : ℕ) :
    h.releaseInternal i = releaseInternalBody releaseInternal h i :=
  decreasing_releaseInternalBody.runWith_eq (fun _ _ => le_rfl)
    (fun h _ => Nat.lt_succ_of_le h.liveCount_le_length) h i

end Equation

end PrivateHeap

end Galfus
