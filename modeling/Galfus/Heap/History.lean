import Galfus.Heap.Release

/-! # Heap histories

The states that a heap can reach from the empty one by its operations. Slots are
recycled, but only empty ones are on the free list and each reuse raises the
generation of its slot, so a reference to a freed object never resolves again.
-/

namespace Galfus

open Option (bind_eq_bind bind_eq_some_iff isSome_iff_exists)

namespace PrivateHeap

variable {h h' h₁ h₂ : PrivateHeap} {i j : ℕ} {s : HeapSlot} {obj : HeapObject} {r : VmObjectRef}
  {fs : List (ℕ × HeapObject)} {f : PrivateHeap → ℕ → Option PrivateHeap}
  {res : Except VmError VmObjectRef}

/-- `h'` comes from `h` by freeing some objects. -/
def FreesTo (h h' : PrivateHeap) : Prop := ∃ fs, Frees fs h h'

namespace FreesTo

theorem refl (h : PrivateHeap) : FreesTo h h := ⟨[], .refl h⟩

theorem trans (a : FreesTo h h₁) (b : FreesTo h₁ h₂) : FreesTo h h₂ := by
  obtain ⟨fs, a⟩ := a
  obtain ⟨gs, b⟩ := b
  exact ⟨fs ++ gs, a.trans b⟩

theorem setSlot {t : HeapSlot} (hs : h.objects[i]? = some s) (hc : t.content = s.content) :
    FreesTo h (h.setSlot i t) := ⟨[], .setSlot hs hc⟩

theorem putRoots (a : FreesTo h h₁) (R : Finset ℕ) : FreesTo h (h₁.putRoots R) :=
  a.elim fun fs a => ⟨fs, a.putRoots R⟩

theorem discard (hs : h.objects[i]? = some s) (ho : s.object = some obj) :
    FreesTo h (h.discard i s obj) := ⟨_, .discard hs ho rfl⟩

theorem releaseInternal (h : PrivateHeap) (i : ℕ) : FreesTo h (h.releaseInternal i) := by
  obtain ⟨fs, a, -⟩ := releaseInternal_releasesFrom h i
  exact ⟨fs, a.toFrees⟩

end FreesTo

/-- A partial operation on slots whose results come from its argument by frees. -/
def Freeing (f : PrivateHeap → ℕ → Option PrivateHeap) : Prop :=
  ∀ h i h', f h i = some h' → FreesTo h h'

theorem freeing_modifySlot {f : HeapSlot → HeapSlot} (hr : h.modifySlot i f = some h')
    (hf : ∀ s, (f s).content = s.content) : FreesTo h h' := by
  obtain ⟨s, hs, hr⟩ := bind_eq_some_iff.mp hr
  cases hr
  exact .setSlot hs (hf s)

theorem Freeing.foldlM (hf : Freeing f) (vs : List ℕ) (h h' : PrivateHeap)
    (hr : vs.foldlM f h = some h') : FreesTo h h' := by
  induction vs generalizing h with
  | nil =>
    cases hr
    exact .refl _
  | cons v vs ih =>
    simp only [List.foldlM_cons, bind_eq_bind, bind_eq_some_iff] at hr
    obtain ⟨h₁, hn, hrs⟩ := hr
    exact (hf h v h₁ hn).trans (ih h₁ hrs)

theorem Freeing.forEachChild (hf : Freeing f) (cs : List VmObjectRef) (h h' : PrivateHeap)
    (hr : h.forEachChild f cs = some h') : FreesTo h h' := by
  unfold PrivateHeap.forEachChild at hr
  induction cs generalizing h with
  | nil =>
    cases hr
    exact .refl _
  | cons c cs ih =>
    simp only [List.foldlM_cons, bind_eq_bind, bind_eq_some_iff] at hr
    obtain ⟨h₁, ⟨s, -, hs⟩, hrs⟩ := hr
    refine .trans ?_ (ih h₁ hrs)
    split at hs
    · exact hf h c.index h₁ hs
    · cases hs
      exact .refl _

theorem Freeing.run {F : (PrivateHeap → ℕ → Option PrivateHeap) → PrivateHeap → ℕ →
    Option PrivateHeap} (hF : ∀ f, Freeing f → Freeing (F f)) :
    Freeing fun h i => Fuel.run F (fun _ _ => none) (h.objects.length + 2) h i := by
  have hn : ∀ n, Freeing (Fuel.run F (fun _ _ => none) n) := by
    intro n
    induction n with
    | zero =>
      intro h i h' hr
      simp [Fuel.run] at hr
    | succ n ih => exact hF _ ih
  exact fun h => hn _ h

theorem freeing_markGray : Freeing markGray := by
  refine Freeing.run fun f hf h i h' hr => ?_
  obtain ⟨s, hs, hr⟩ := bind_eq_some_iff.mp hr
  split at hr
  · cases hr
    exact .refl h
  · refine (FreesTo.setSlot (t := s.paint .gray) hs rfl).trans
      (Freeing.forEachChild (fun h i h' hst => ?_) _ _ _ hr)
    obtain ⟨h₁, hm, hrc⟩ := bind_eq_some_iff.mp hst
    exact (freeing_modifySlot hm fun _ => rfl).trans (hf h₁ i h' hrc)

theorem freeing_scanBlack : Freeing scanBlack := by
  refine Freeing.run fun f hf h i h' hr => ?_
  obtain ⟨s, hs, hr⟩ := bind_eq_some_iff.mp hr
  refine (FreesTo.setSlot (t := s.paint .black) hs rfl).trans
    (Freeing.forEachChild (fun h i h' hst => ?_) _ _ _ hr)
  obtain ⟨t, ht, hrc⟩ := bind_eq_some_iff.mp hst
  have a : FreesTo h (h.setSlot i t.incEdges) := FreesTo.setSlot ht rfl
  split at hrc
  · cases hrc
    exact a
  · exact a.trans (hf _ i h' hrc)

theorem freeing_scan : Freeing scan := by
  refine .run fun f hf h i h' hr => ?_
  obtain ⟨s, hs, hr⟩ := bind_eq_some_iff.mp hr
  split at hr
  · split at hr
    · exact freeing_scanBlack h i h' hr
    · exact (FreesTo.setSlot (t := s.paint .white) hs rfl).trans (hf.forEachChild _ _ _ hr)
  · cases hr
    exact .refl h

theorem freeing_collectWhite : Freeing collectWhite := by
  refine .run fun f hf h i h' hr => ?_
  obtain ⟨s, hs, hr⟩ := bind_eq_some_iff.mp hr
  split at hr
  · next ho => exact (FreesTo.discard hs ho).trans (hf.forEachChild _ _ _ hr)
  · cases hr
    exact .refl h

theorem freeing_markRoot : Freeing markRoot := by
  intro h i h' hr
  obtain ⟨s, hs, hr⟩ := bind_eq_some_iff.mp hr
  have a : FreesTo h (h.setSlot i (s.paint .black)) := .setSlot hs rfl
  split at hr
  · obtain ⟨h₁, hg, hrt⟩ := bind_eq_some_iff.mp hr
    cases hrt
    exact (freeing_markGray h i h₁ hg).putRoots _
  · split at hr
    · cases hr
      exact a.trans (.releaseInternal _ i)
    · cases hr
      exact a

theorem freeing_collectRoot : Freeing collectRoot := by
  intro h i h' hr
  obtain ⟨h₁, hm, hw⟩ := bind_eq_some_iff.mp hr
  exact (freeing_modifySlot hm fun _ => rfl).trans (freeing_collectWhite h₁ i h' hw)

theorem collectCycles_freesTo (o : CollectOrder) (hr : h.collectCycles o = some h') :
    FreesTo h h' := by
  unfold collectCycles at hr
  split at hr
  · obtain rfl := Option.some.inj hr
    exact .refl h
  · obtain ⟨h₁, hm, hr⟩ := bind_eq_some_iff.mp hr
    obtain ⟨h₂, hsc, hs⟩ := bind_eq_some_iff.mp hr
    have a := ((FreesTo.refl h).putRoots ∅).trans (freeing_markRoot.foldlM _ _ h₁ hm)
    have b := freeing_scan.foldlM _ h₁ h₂ hsc
    exact (a.trans b).trans (((FreesTo.refl h₂).putRoots ∅).trans
      (freeing_collectRoot.foldlM _ _ h' hs))

theorem FreesTo.orKeep {res : Except VmError PrivateHeap} (hr : ∀ h', res = .ok h' → FreesTo h h') :
    FreesTo h (h.orKeep res) := by
  cases res with
  | error e => exact .refl h
  | ok h' => exact hr h' rfl

theorem retainAnchor_freesTo (hrn : h.retainAnchor r = .ok h') : FreesTo h h' := by
  unfold retainAnchor at hrn
  cases hr : h.resolve r with
  | none => simp [hr] at hrn
  | some s =>
    simp only [hr, Except.ok.injEq] at hrn
    subst hrn
    exact (FreesTo.setSlot (t := s.incAnchors.paint .black)
      (resolve_eq_some_iff.mp hr).1 rfl).putRoots _

theorem retainEdge_freesTo (hrn : h.retainEdge r = .ok h') : FreesTo h h' := by
  unfold retainEdge at hrn
  cases hr : h.resolve r with
  | none => simp [hr] at hrn
  | some s =>
    simp only [hr, Except.ok.injEq] at hrn
    subst hrn
    exact (FreesTo.setSlot (t := s.incEdges.paint .black)
      (resolve_eq_some_iff.mp hr).1 rfl).putRoots _

theorem makePurple_freesTo (hs : h.objects[i]? = some s) : FreesTo h (h.makePurple i s) :=
  (FreesTo.setSlot (t := s.paint .purple) hs rfl).putRoots _

theorem releasing_freesTo : Releasing (fun _ => True) FreesTo where
  refl := .refl
  trans := .trans
  dropRoot h _ := (FreesTo.refl h).putRoots _
  lower hs := .setSlot hs rfl
  purple hs _ := makePurple_freesTo hs
  blacken hs _ := .setSlot hs rfl
  discard hs ho _ := .discard hs ho
  gone _ := trivial

theorem releaseEdgeBody_freesTo {ir : PrivateHeap → ℕ → PrivateHeap}
    (hi : ∀ h i, FreesTo h (ir h i)) (hr : releaseEdgeBody ir h r = .ok h') :
    FreesTo h h' := by
  have hf := releasing_freesTo.releaseEdgeBody (fun h i _ => hi h i) h r
  rwa [hr] at hf

theorem releaseEdge_freesTo (hr : h.releaseEdge r = .ok h') : FreesTo h h' :=
  releaseEdgeBody_freesTo .releaseInternal hr

theorem releaseAnchor_freesTo (hr : h.releaseAnchor r = .ok h') : FreesTo h h' := by
  have hf := releasing_freesTo.releaseAnchor (c := r) fun s hs => .setSlot (h := h) hs rfl
  rwa [hr] at hf

theorem freeObject_freesTo (hrn : h.freeObject r = .ok h') : FreesTo h h' := by
  unfold freeObject at hrn
  cases hr : h.resolve r with
  | none => simp [hr] at hrn
  | some s =>
    cases ho : s.object with
    | none => simp [hr, ho] at hrn
    | some obj =>
      simp only [hr, ho, Except.ok.injEq] at hrn
      subst hrn
      have hs := (resolve_eq_some_iff.mp hr).1
      exact ((FreesTo.refl h).putRoots (h.roots.erase r.index)).trans
        ⟨_, .discard (h := h.dropRoot r.index) hs ho rfl⟩

/-- The free list has no duplicates and holds exactly the empty slots. -/
structure FreeListed (h : PrivateHeap) : Prop where
  nodup : h.freeSlots.Nodup
  mem_iff : ∀ i, i ∈ h.freeSlots ↔ i < h.objects.length ∧ h.objectAt i = none

instance (h : PrivateHeap) : Decidable h.FreeListed :=
  decidable_of_iff (h.freeSlots.Nodup ∧
      (∀ i ∈ h.freeSlots, i < h.objects.length ∧ h.objectAt i = none) ∧
      ∀ i < h.objects.length, h.objectAt i = none → i ∈ h.freeSlots)
    ⟨fun ⟨hn, hf, he⟩ => ⟨hn, fun i => ⟨hf i, fun hi => he i hi.1 hi.2⟩⟩,
      fun hf => ⟨hf.nodup, fun i => (hf.mem_iff i).mp, fun i hi he => (hf.mem_iff i).mpr ⟨hi, he⟩⟩⟩

theorem freeListed_new (q : ThreadQuota) (sz : TypeSizes) : (new q sz).FreeListed :=
  ⟨List.nodup_nil, by simp [new]⟩

theorem FreeListed.freesTo (hf : h.FreeListed) (a : FreesTo h h') : h'.FreeListed := by
  obtain ⟨fs, a⟩ := a
  have hl : ∀ i ∈ fs.map Prod.fst, i < h.objects.length ∧ h.objectAt i ≠ none := by
    intro i hi
    obtain ⟨p, hp, rfl⟩ := List.mem_map.mp hi
    have ho := a.freed p hp
    exact ⟨(live_iff_objectAt.mpr ⟨p.2, ho⟩).lt, by simp [ho]⟩
  constructor
  · rw [a.freeSlots, List.nodup_append']
    refine ⟨List.nodup_reverse.mpr a.nodup, hf.nodup, fun i hi hj => ?_⟩
    exact (hl i (List.mem_reverse.mp hi)).2 ((hf.mem_iff i).mp hj).2
  · intro i
    rw [a.freeSlots, List.mem_append, List.mem_reverse, hf.mem_iff, a.length, a.object]
    by_cases hi : i ∈ fs.map Prod.fst
    · simp [hi, (hl i hi).1]
    · simp [hi]

/-- Slots keep their place; a slot keeps its generation and stays empty if it was, or
its generation grows. -/
def Evolves (h h' : PrivateHeap) : Prop :=
  ∀ (i : ℕ) (s : HeapSlot), h.objects[i]? = some s → ∃ t : HeapSlot, h'.objects[i]? = some t ∧
    (t.generation = s.generation ∧ (s.object = none → t.object = none) ∨
      s.generation < t.generation)

theorem Evolves.refl (h : PrivateHeap) : Evolves h h := fun _ s hs => ⟨s, hs, .inl ⟨rfl, id⟩⟩

theorem Evolves.trans (a : Evolves h h₁) (b : Evolves h₁ h₂) : Evolves h h₂ := by
  intro i s hs
  obtain ⟨t, ht, hst⟩ := a i s hs
  obtain ⟨u, hu, htu⟩ := b i t ht
  refine ⟨u, hu, ?_⟩
  rcases hst with ⟨hg, ho⟩ | hg <;> rcases htu with ⟨hg', ho'⟩ | hg'
  · exact .inl ⟨hg'.trans hg, fun hn => ho' (ho hn)⟩
  all_goals right; omega

theorem FreesTo.evolves (a : FreesTo h h') : Evolves h h' := by
  obtain ⟨fs, a⟩ := a
  intro i s hs
  obtain ⟨t, ht, hg⟩ := a.slot hs
  refine ⟨t, ht, .inl ⟨hg, fun hn => ?_⟩⟩
  have := a.object i
  rw [objectAt_eq ht, objectAt_eq hs, hn] at this
  simpa using this

/-- No slot has used up its generations. -/
def GenerationsLeft (h : PrivateHeap) : Prop := ∀ s ∈ h.objects, s.generation < u32Max

instance (h : PrivateHeap) : Decidable h.GenerationsLeft :=
  inferInstanceAs (Decidable (∀ s ∈ h.objects, s.generation < u32Max))

/-- The ways in which an object is placed: in the slot on top of the free list, not at
all, or in a new slot. -/
theorem place_cases (hr : h.place obj = some (h', res)) :
    (∃ (i : ℕ) (rs : List ℕ) (s : HeapSlot) (g : ℕ), h.freeSlots = i :: rs ∧
      h.objects[i]? = some s ∧ g = (s.generation + 1) % (u32Max + 1) ∧ res = .ok ⟨i, g⟩ ∧
      h' = { h.setSlot i (.fresh g obj) with freeSlots := rs }) ∨
    (h.freeSlots = [] ∧ u32Max ≤ h.objects.length ∧ res = .error .idCounterExhausted ∧ h' = h) ∨
    (h.freeSlots = [] ∧ h.objects.length < u32Max ∧ res = .ok ⟨h.objects.length, 1⟩ ∧
      h' = { h with objects := h.objects ++ [.fresh 1 obj] }) := by
  unfold place at hr
  cases hl : h.freeSlots with
  | cons i rs =>
    simp only [hl, bind_eq_bind] at hr
    obtain ⟨s, hs, hr⟩ := bind_eq_some_iff.mp hr
    cases hr
    exact .inl ⟨i, rs, s, _, rfl, hs, rfl, rfl, rfl⟩
  | nil =>
    simp only [hl] at hr
    split at hr
    · rename_i hf
      cases hr
      exact .inr (.inl ⟨rfl, hf, rfl, rfl⟩)
    · rename_i hrm
      cases hr
      exact .inr (.inr ⟨rfl, Nat.not_le.mp hrm, rfl, rfl⟩)

theorem place_objectAt (hr : h.place obj = some (h', res)) {o : HeapObject}
    (ho : h'.objectAt i = some o) : o = obj ∨ h.objectAt i = some o := by
  obtain ⟨j, rs, s, g, -, hs, -, -, rfl⟩ | ⟨-, -, -, rfl⟩ | ⟨-, -, -, rfl⟩ := place_cases hr
  · have hlt := slot_lt hs
    by_cases hij : i = j
    · subst hij
      rw [objectAt, getElem?_setSlot_self hlt] at ho
      exact .inl (Option.some.inj ho).symm
    · rw [objectAt, getElem?_setSlot_ne (Ne.symm hij)] at ho
      exact .inr ho
  · exact .inr ho
  · rw [objectAt] at ho
    rcases Nat.lt_trichotomy i h.objects.length with hlt | rfl | hgt
    · rw [List.getElem?_append_left hlt] at ho
      exact .inr ho
    · rw [List.getElem?_concat_length] at ho
      exact .inl (Option.some.inj ho).symm
    · rw [List.getElem?_eq_none (by simp; omega)] at ho
      cases ho

theorem place_freeListed (hf : h.FreeListed) (hrn : h.place obj = some (h', res)) :
    h'.FreeListed := by
  obtain ⟨i, rs, s, g, hl, hs, -, -, rfl⟩ | ⟨-, -, -, rfl⟩ | ⟨hl, -, -, rfl⟩ := place_cases hrn
  · have hlt := slot_lt hs
    obtain ⟨hi, hr⟩ := List.nodup_cons.mp (hl ▸ hf.nodup)
    refine ⟨hr, fun j => ?_⟩
    have hj := hf.mem_iff j
    rw [hl, List.mem_cons] at hj
    rw [length_setSlot]
    by_cases hji : j = i
    · subst hji
      simp [hi, objectAt, getElem?_setSlot_self hlt, HeapSlot.fresh]
    · rw [objectAt, getElem?_setSlot_ne (Ne.symm hji), ← objectAt, ← hj]
      simp [hji]
  · exact hf
  · refine ⟨hf.nodup, fun j => ?_⟩
    have hj := hf.mem_iff j
    simp only [hl, List.not_mem_nil, false_iff, not_and, List.length_append,
      List.length_singleton, objectAt] at hj ⊢
    intro hlt
    by_cases hjl : j < h.objects.length
    · rw [List.getElem?_append_left hjl]
      exact hj hjl
    · obtain rfl : j = h.objects.length := by omega
      simp [HeapSlot.fresh]

theorem place_evolves (hg : h.GenerationsLeft) (hr : h.place obj = some (h', res)) :
    Evolves h h' := by
  obtain ⟨i, rs, s, g, -, hs, rfl, -, rfl⟩ | ⟨-, -, -, rfl⟩ | ⟨-, -, -, rfl⟩ := place_cases hr
  · have hlt := slot_lt hs
    have hgn : (s.generation + 1) % (u32Max + 1) = s.generation + 1 :=
      Nat.mod_eq_of_lt (Nat.succ_lt_succ (hg s (List.mem_of_getElem? hs)))
    intro j t ht
    by_cases hji : j = i
    · subst hji
      obtain rfl : s = t := by simpa [hs] using ht
      refine ⟨_, getElem?_setSlot_self hlt, .inr ?_⟩
      simp [HeapSlot.fresh, hgn]
    · exact ⟨t, (getElem?_setSlot_ne (Ne.symm hji)).trans ht, .inl ⟨rfl, id⟩⟩
  · exact .refl h'
  · exact fun j t ht => ⟨t, by
      rw [List.getElem?_append_left (slot_lt ht), ht], .inl ⟨rfl, id⟩⟩

def book (h : PrivateHeap) (q : ThreadQuota) (n : ℕ) : PrivateHeap :=
  { h with quota := q, allocationsSinceRelease := n }

theorem Frees.book (a : Frees fs h h₁) (n : ℕ) : Frees fs (h.book h.quota n) (h₁.book h₁.quota n) :=
  ⟨a.generation, a.object, a.freed, a.nodup, a.freeSlots, a.pending, a.quota, a.sizes, rfl⟩

/-- The ways in which an allocation ends: the quota rejects it, or the object is placed
after the collection that may be due. -/
theorem alloc_cases {o : CollectOrder} (hr : h.alloc o obj = some (h', res)) :
    (∃ fl, h.quota.tryReserveHeap 1 (obj.heapBytes h.sizes) = .error fl ∧
      res = .error (.resourceLimitExceeded fl) ∧ h' = h) ∨
    ∃ (q : ThreadQuota) (n : ℕ) (h₁ : PrivateHeap),
      h.quota.tryReserveHeap 1 (obj.heapBytes h.sizes) = .ok q ∧
      (h.book q (h.allocationsSinceRelease + 1)).collectIfDue o = some h₁ ∧
      FreesTo (h.book q n) h₁ ∧ h₁.place obj = some (h', res) := by
  unfold alloc at hr
  split at hr
  · rename_i fl hf
    cases hr
    exact .inl ⟨fl, hf, rfl, rfl⟩
  · rename_i q hq
    obtain ⟨h₁, hd, hp⟩ := bind_eq_some_iff.mp hr
    refine .inr ⟨q, h₁.allocationsSinceRelease, h₁, hq, hd, ?_, hp⟩
    unfold collectIfDue at hd
    split at hd
    · obtain ⟨h₂, hc, hrs⟩ := bind_eq_some_iff.mp hd
      cases hrs
      obtain ⟨fs, b⟩ := collectCycles_freesTo o hc
      exact ⟨fs, b.book 0⟩
    · cases hd
      exact .refl _

theorem alloc_evolves {o : CollectOrder} (hf : h.FreeListed) (hg : h.GenerationsLeft)
    (hr : h.alloc o obj = some (h', res)) : h'.FreeListed ∧ Evolves h h' := by
  obtain ⟨-, -, -, rfl⟩ | ⟨q, n, h₁, -, -, a, hp⟩ := alloc_cases hr
  · exact ⟨hf, .refl h'⟩
  · have hf₀ : (h.book q n).FreeListed := ⟨hf.nodup, hf.mem_iff⟩
    have hg₁ : h₁.GenerationsLeft :=
      a.elim fun _ a => a.forall_generation (P := (· < u32Max)) hg
    have b : Evolves h h₁ := a.evolves
    exact ⟨place_freeListed (hf₀.freesTo a) hp, b.trans (place_evolves hg₁ hp)⟩

end PrivateHeap

/-- An operation that puts nothing on the heap. -/
inductive CountOp where
  | free (r : VmObjectRef)
  | retainAnchor (r : VmObjectRef)
  | releaseAnchor (r : VmObjectRef)
  | retainEdge (r : VmObjectRef)
  | releaseEdge (r : VmObjectRef)
  | collect (ord : CollectOrder)

namespace CountOp

def apply (h : PrivateHeap) : CountOp → Option PrivateHeap
  | free r => some (h.orKeep (h.freeObject r))
  | retainAnchor r => some (h.orKeep (h.retainAnchor r))
  | releaseAnchor r => some (h.orKeep (h.releaseAnchor r))
  | retainEdge r => some (h.orKeep (h.retainEdge r))
  | releaseEdge r => some (h.orKeep (h.releaseEdge r))
  | collect ord => h.collectCycles ord

theorem freesTo {h h' : PrivateHeap} (op : CountOp) (hr : op.apply h = some h') :
    h.FreesTo h' := by
  cases op with
  | free r =>
    cases hr
    exact .orKeep fun _ => PrivateHeap.freeObject_freesTo
  | retainAnchor r =>
    cases hr
    exact .orKeep fun _ => PrivateHeap.retainAnchor_freesTo
  | releaseAnchor r =>
    cases hr
    exact .orKeep fun _ => PrivateHeap.releaseAnchor_freesTo
  | retainEdge r =>
    cases hr
    exact .orKeep fun _ => PrivateHeap.retainEdge_freesTo
  | releaseEdge r =>
    cases hr
    exact .orKeep fun _ => PrivateHeap.releaseEdge_freesTo
  | collect o => exact PrivateHeap.collectCycles_freesTo o hr

end CountOp

inductive HeapOp where
  | alloc (ord : CollectOrder) (obj : HeapObject)
  | store (r : VmObjectRef) (obj : HeapObject)
  | count (op : CountOp)

def HeapOp.apply (h : PrivateHeap) : HeapOp → Option PrivateHeap
  | alloc ord obj => (h.alloc ord obj).map Prod.fst
  | store r obj => some (h.orKeep (h.setObject r obj))
  | count op => op.apply h

namespace PrivateHeap

variable {h h' h₁ h₂ h₃ : PrivateHeap} {r : VmObjectRef} {obj : HeapObject}

theorem setObject_evolves (hf : h.FreeListed) (hrn : h.setObject r obj = .ok h') :
    h'.FreeListed ∧ Evolves h h' := by
  obtain ⟨s, hr, rfl⟩ := setObject_eq_ok.mp hrn
  obtain ⟨hs, -, ho⟩ := resolve_eq_some_iff.mp hr
  have hlt := slot_lt hs
  refine ⟨⟨hf.nodup, fun j => ?_⟩, fun j t ht => ?_⟩
  · have hj := hf.mem_iff j
    rw [length_setSlot]
    by_cases hji : j = r.index
    · subst hji
      rw [objectAt_eq hs] at hj
      rw [objectAt_eq (getElem?_setSlot_self hlt)]
      obtain ⟨o, ho⟩ := isSome_iff_exists.mp ho
      simpa [ho, setSlot] using hj
    · rw [objectAt, getElem?_setSlot_ne (Ne.symm hji)]
      exact hj
  · by_cases hji : j = r.index
    · subst hji
      obtain rfl : s = t := by simpa [hs] using ht
      refine ⟨_, getElem?_setSlot_self hlt, .inl ⟨rfl, fun hn => ?_⟩⟩
      simp [hn] at ho
    · exact ⟨t, (getElem?_setSlot_ne (Ne.symm hji)).trans ht, .inl ⟨rfl, id⟩⟩

theorem apply_evolves (op : HeapOp) (hf : h.FreeListed) (hg : h.GenerationsLeft)
    (hr : op.apply h = some h') : h'.FreeListed ∧ Evolves h h' := by
  cases op with
  | alloc o obj =>
    obtain ⟨⟨g, res⟩, ha, rfl⟩ := Option.map_eq_some_iff.mp hr
    exact alloc_evolves hf hg ha
  | store r obj =>
    cases hr
    cases hs : h.setObject r obj with
    | error e => exact ⟨hf, .refl h⟩
    | ok g => exact setObject_evolves hf hs
  | count op =>
    have a := op.freesTo hr
    exact ⟨hf.freesTo a, a.evolves⟩

def Step (h h' : PrivateHeap) : Prop := h.GenerationsLeft ∧ ∃ op : HeapOp, op.apply h = some h'

def Runs : PrivateHeap → PrivateHeap → Prop := Relation.ReflTransGen Step

theorem Runs.evolves (hr : Runs h h') (hf : h.FreeListed) : h'.FreeListed ∧ Evolves h h' := by
  induction hr with
  | refl => exact ⟨hf, .refl h⟩
  | tail _ hs ih =>
    obtain ⟨hg, op, hrn⟩ := hs
    obtain ⟨hf', b⟩ := apply_evolves op ih.1 hg hrn
    exact ⟨hf', ih.2.trans b⟩

/-- A reference to an object that is gone: its slot is empty or was given out again. -/
def Stale (h : PrivateHeap) (r : VmObjectRef) : Prop :=
  ∃ s : HeapSlot, h.objects[r.index]? = some s ∧
    (s.generation = r.generation ∧ s.object = none ∨ r.generation < s.generation)

theorem Stale.evolves (hst : h.Stale r) (a : Evolves h h') : h'.Stale r := by
  obtain ⟨s, hs, hc⟩ := hst
  obtain ⟨t, ht, hst⟩ := a r.index s hs
  refine ⟨t, ht, ?_⟩
  rcases hc with ⟨hg, ho⟩ | hg <;> rcases hst with ⟨hg', ho'⟩ | hg'
  · exact .inl ⟨hg'.trans hg, ho' ho⟩
  all_goals right; omega

theorem Stale.resolve (hst : h.Stale r) : h.resolve r = none := by
  obtain ⟨s, hs, hc⟩ := hst
  cases hr : h.resolve r with
  | none => rfl
  | some t =>
    obtain ⟨ht, hg, ho⟩ := resolve_eq_some_iff.mp hr
    obtain rfl : s = t := by simpa [hs] using ht
    rcases hc with ⟨-, hn⟩ | hlt
    · simp [hn] at ho
    · omega

theorem stale_of_freed (a : Evolves h h') (hr : (h.resolve r).isSome) (hn : h'.resolve r = none) :
    h'.Stale r := by
  obtain ⟨s, hr⟩ := isSome_iff_exists.mp hr
  obtain ⟨hs, hg, -⟩ := resolve_eq_some_iff.mp hr
  obtain ⟨t, ht, hst⟩ := a r.index s hs
  refine ⟨t, ht, ?_⟩
  rcases hst with ⟨hg', -⟩ | hlt
  · refine .inl ⟨hg'.trans hg, ?_⟩
    cases ho : t.object with
    | none => rfl
    | some o => simp [resolve_eq_some_iff.mpr ⟨ht, hg'.trans hg, by simp [ho]⟩] at hn
  · exact .inr (by omega)

/-- Every access through the reference reports an invalid reference. -/
structure Rejects (h : PrivateHeap) (r : VmObjectRef) : Prop where
  getObject : h.getObject r = .error .invalidObjectReference
  setObject : ∀ obj, h.setObject r obj = .error .invalidObjectReference
  freeObject : h.freeObject r = .error .invalidObjectReference
  retainAnchor : h.retainAnchor r = .error .invalidObjectReference
  releaseAnchor : h.releaseAnchor r = .error .invalidObjectReference
  retainEdge : h.retainEdge r = .error .invalidObjectReference
  releaseEdge : h.releaseEdge r = .error .invalidObjectReference

theorem Stale.rejects (hst : h.Stale r) : h.Rejects r := by
  have hr := hst.resolve
  constructor <;> intros <;>
    simp [PrivateHeap.getObject, PrivateHeap.setObject, PrivateHeap.freeObject,
      PrivateHeap.retainAnchor, PrivateHeap.releaseAnchor, PrivateHeap.retainEdge,
      PrivateHeap.releaseEdge, releaseEdgeBody, hr]

/-- In every history of the empty heap the free list holds each empty slot once, references that
resolve at one index are equal, and a reference to a freed object is rejected ever after. -/
theorem runs_generational_safety (q : ThreadQuota) (sz : TypeSizes) (run₁ : Runs (new q sz) h₁)
    (run₂ : Runs h₁ h₂) (run₃ : Runs h₂ h₃) :
    h₁.FreeListed ∧ (∀ r r' : VmObjectRef, (h₁.resolve r).isSome → (h₁.resolve r').isSome →
        r.index = r'.index → r = r') ∧
      ∀ r, (h₁.resolve r).isSome → h₂.resolve r = none → h₃.Rejects r := by
  obtain ⟨hf₁, -⟩ := run₁.evolves (freeListed_new q sz)
  obtain ⟨hf₂, a⟩ := run₂.evolves hf₁
  obtain ⟨-, b⟩ := run₃.evolves hf₂
  have hc {r : VmObjectRef} (hr : (h₁.resolve r).isSome) : h₁.Current r := by
    obtain ⟨s, hs⟩ := isSome_iff_exists.mp hr
    obtain ⟨hs, hg, -⟩ := resolve_eq_some_iff.mp hs
    simp [Current, hs, hg]
  refine ⟨hf₁, fun r r' hr hr' hi => ?_, fun r hr hn => ?_⟩
  · exact (hc hr').eq_of_index (hc hr) hi
  · exact ((stale_of_freed a hr hn).evolves b).rejects

theorem runs_reject_recycled : ∃ h₃, Runs (new ⟨9, 999, 0, 0⟩ ⟨64, 16⟩) h₃ ∧
    (h₃.objectAt 0).isSome ∧ h₃.Rejects ⟨0, 1⟩ := by
  have s₁ : Step (new ⟨9, 999, 0, 0⟩ ⟨64, 16⟩)
      ⟨[.fresh 1 (.tuple .empty)], [], ∅, 1, [], ⟨9, 999, 1, 64⟩, ⟨64, 16⟩⟩ :=
    ⟨by decide, .alloc .ascending (.tuple .empty), rfl⟩
  have s₂ : Step ⟨[.fresh 1 (.tuple .empty)], [], ∅, 1, [], ⟨9, 999, 1, 64⟩, ⟨64, 16⟩⟩
      ⟨[(HeapSlot.fresh 1 (.tuple .empty)).decAnchors.vacate], [0], ∅, 1, [], ⟨9, 999, 0, 0⟩,
        ⟨64, 16⟩⟩ :=
    ⟨by decide, .count (.releaseAnchor ⟨0, 1⟩), rfl⟩
  have s₃ : Step ⟨[(HeapSlot.fresh 1 (.tuple .empty)).decAnchors.vacate], [0], ∅, 1, [],
      ⟨9, 999, 0, 0⟩, ⟨64, 16⟩⟩
      ⟨[.fresh 2 (.tuple .empty)], [], ∅, 2, [], ⟨9, 999, 1, 64⟩, ⟨64, 16⟩⟩ :=
    ⟨by decide, .alloc .ascending (.tuple .empty), rfl⟩
  have hs := runs_generational_safety _ _ (.single s₁) (.single s₂) (.single s₃)
  exact ⟨_, ((Relation.ReflTransGen.single s₁).tail s₂).tail s₃, by decide,
    hs.2.2 ⟨0, 1⟩ (by decide) (by decide)⟩

end PrivateHeap

end Galfus
