import Galfus.Heap.Balance

/-! # Anchored objects

An object with an anchor stays as it is while others are allocated, also in the collection that
an allocation may start. Allocation on a heap at hand never panics.
-/

namespace Galfus.PrivateHeap

open Graph

variable {h h' h₁ h₂ : PrivateHeap} {i : ℕ} {s t : HeapSlot} {obj : HeapObject} {r : VmObjectRef}
  {ord : CollectOrder}

/-- The reference leads to the object, which has an anchor. -/
def Anchored (h : PrivateHeap) (r : VmObjectRef) (obj : HeapObject) : Prop :=
  ∃ s, h.resolve r = some s ∧ s.object = some obj ∧ 0 < s.anchors

def KeepsAnchored (h h' : PrivateHeap) : Prop :=
  ∀ r obj, h.Anchored r obj → h'.Anchored r obj

theorem Anchored.getObject (ha : h.Anchored r obj) : h.getObject r = .ok obj := by
  obtain ⟨s, hr, ho, -⟩ := ha
  obtain ⟨hs, hg, -⟩ := resolve_eq_some_iff.mp hr
  exact getObject_eq_ok.mpr ⟨s, hs, hg, ho⟩

theorem Anchored.lt (ha : h.Anchored r obj) : r.index < h.objects.length := by
  obtain ⟨s, hr, -⟩ := ha
  exact (List.getElem?_eq_some_iff.mp (resolve_eq_some_iff.mp hr).1).1

namespace KeepsAnchored

theorem refl (h : PrivateHeap) : KeepsAnchored h h := fun _ _ ha => ha

theorem trans (a : KeepsAnchored h h₁) (b : KeepsAnchored h₁ h₂) : KeepsAnchored h h₂ :=
  fun r obj ha => b r obj (a r obj ha)

theorem putRoots (a : KeepsAnchored h h₁) (R : Finset ℕ) : KeepsAnchored h (h₁.putRoots R) := a

theorem sameShape (a : SameShape h h') : KeepsAnchored h h' := by
  rintro r obj ⟨s, hr, ho, hp⟩
  obtain ⟨hs, hg, hsm⟩ := resolve_eq_some_iff.mp hr
  obtain ⟨t, ht, hts⟩ := a.slot hs
  obtain ⟨htg, hta, hto⟩ := HeapSlot.shape_eq_iff.mp hts
  exact ⟨t, resolve_eq_some_iff.mpr ⟨ht, htg.trans hg, hto ▸ hsm⟩, hto.trans ho, hta ▸ hp⟩

theorem of_unanchored (hs : h.objects[i]? = some s) (hz : s.anchors = 0)
    (hot : ∀ j, j ≠ i → h'.objects[j]? = h.objects[j]?) : KeepsAnchored h h' := by
  rintro r obj ⟨t, hr, ho, hp⟩
  obtain ⟨ht, hg, hsm⟩ := resolve_eq_some_iff.mp hr
  have hne : r.index ≠ i := by
    rintro rfl
    rw [hs, Option.some.injEq] at ht
    rw [← ht, hz] at hp
    exact lt_irrefl 0 hp
  exact ⟨t, resolve_eq_some_iff.mpr ⟨(hot _ hne).trans ht, hg, hsm⟩, ho, hp⟩

end KeepsAnchored

theorem releasing_keepsAnchored : Releasing (·.anchors = 0) KeepsAnchored where
  refl := .refl
  trans := .trans
  dropRoot h _ := .refl h
  lower {_ _ s} hs := .sameShape (.setSlot (t := s.decEdges) hs (by simp))
  purple {_ _ s} hs _ :=
    (KeepsAnchored.sameShape (SameShape.setSlot (t := s.paint .purple) hs (by simp))).putRoots _
  blacken {_ _ s} hs _ := .sameShape (.setSlot (t := s.paint .black) hs (by simp))
  discard hs _ hz := .of_unanchored hs hz fun _ hj => getElem?_setSlot_ne (Ne.symm hj)
  gone hz := hz

/-- A heap between operations: the free list is right, and references and roots point into the
table. -/
structure Sound (h : PrivateHeap) : Prop where
  freeListed : h.FreeListed
  inRange : h.InRange
  roots : ∀ i ∈ h.roots, i < h.objects.length

theorem sound_new (q : ThreadQuota) (sz : TypeSizes) : (new q sz).Sound :=
  ⟨freeListed_new q sz, by simp [InRange, new, childrenAt], by simp [new]⟩

theorem Sound.freesTo (hs : h.Sound) (a : FreesTo h h')
    (hr : ∀ i ∈ h'.roots, i < h.objects.length) : h'.Sound := by
  obtain ⟨fs, b⟩ := a
  exact ⟨hs.freeListed.freesTo ⟨fs, b⟩, b.inRange hs.inRange, fun i hi => b.length ▸ hr i hi⟩

theorem roots_releaseInternal (hrt : ∀ j ∈ h.roots, j < h.objects.length)
    (hi : i < h.objects.length) : ∀ j ∈ (h.releaseInternal i).roots, j < h.objects.length := by
  obtain ⟨fs, a, -⟩ := releaseInternal_releasesFrom h i
  intro j hj
  by_cases hr : Reaches h.succ i j
  · have := Closed.mem_of_reaches h.closed_range_succ (by simpa using hi) hr
    simpa using this
  · exact hrt j ((a.buffer j hr).mp hj)

theorem markRoot_sound (hs : h.Sound) (hi : i < h.objects.length) :
    ∃ h', h.markRoot i = some h' ∧ h'.Sound ∧ KeepsAnchored h h' ∧ FreesTo h h' := by
  obtain ⟨s, hsl⟩ := exists_slot hi
  have hbl : SameShape h (h.setSlot i (s.paint .black)) := .setSlot hsl (by simp)
  have hfr (h' : PrivateHeap) (hrn : h.markRoot i = some h') : FreesTo h h' :=
    freeing_markRoot h i h' hrn
  by_cases hpr : s.color = .purple ∧ s.anchors = 0 ∧ 0 < s.edges
  · obtain ⟨h₁, -, hgr, a, -⟩ := markGray_run hs.inRange hi
    have hrn : h.markRoot i = some (h₁.addRoot i) := by
      simp [markRoot, hsl, hpr, hgr]
    refine ⟨_, hrn, hs.freesTo (hfr _ hrn) fun j hj => ?_,
      (KeepsAnchored.sameShape a).putRoots _, hfr _ hrn⟩
    rcases Finset.mem_insert.mp hj with rfl | hj
    · exact hi
    · exact hs.roots j (a.roots ▸ hj)
  · by_cases hz : s.anchors = 0 ∧ s.edges = 0
    · have hrn : h.markRoot i = some ((h.setSlot i (s.paint .black)).releaseInternal i) := by
        simp [markRoot, hsl, if_neg hpr, if_pos hz]
      have hse := getElem?_setSlot_self (s := s.paint .black) (h := h) hi
      have hkp := releasing_keepsAnchored.releaseInternal _ _ fun t ht =>
        Option.some.inj (hse.symm.trans ht) ▸ hz.1
      refine ⟨_, hrn, hs.freesTo (hfr _ hrn) fun j hj => ?_,
        (KeepsAnchored.sameShape hbl).trans hkp, hfr _ hrn⟩
      have := roots_releaseInternal (h := h.setSlot i (s.paint .black)) (i := i)
        (fun k hk => by simpa using hs.roots k hk) (by simpa using hi) j hj
      simpa using this
    · have hrn : h.markRoot i = some (h.setSlot i (s.paint .black)) := by
        simp [markRoot, hsl, if_neg hpr, if_neg hz]
      exact ⟨_, hrn, hs.freesTo (hfr _ hrn) hs.roots, .sameShape hbl, hfr _ hrn⟩

theorem foldlM_markRoot_sound (hs : h.Sound) (rs : List ℕ) (hrs : ∀ i ∈ rs, i < h.objects.length) :
    ∃ h', rs.foldlM markRoot h = some h' ∧ h'.Sound ∧ KeepsAnchored h h' := by
  induction rs generalizing h with
  | nil => exact ⟨h, rfl, hs, .refl h⟩
  | cons r rs ih =>
    obtain ⟨h₁, hr, hs₁, hk, fs, a⟩ := markRoot_sound hs (hrs r List.mem_cons_self)
    obtain ⟨h₂, hr', hs₂, hk'⟩ := ih hs₁ fun i hi =>
      a.length ▸ hrs i (List.mem_cons_of_mem _ hi)
    refine ⟨h₂, ?_, hs₂, hk.trans hk'⟩
    rw [List.foldlM_cons, hr]
    exact hr'

theorem collectCycles_sound (ord : CollectOrder) (hs : h.Sound) :
    ∃ h', h.collectCycles ord = some h' ∧ h'.Sound ∧ KeepsAnchored h h' := by
  by_cases hem : h.roots = ∅
  · exact ⟨h, by simp [collectCycles, hem], hs, .refl h⟩
  · have hst : (h.putRoots ∅).Sound :=
      ⟨⟨hs.freeListed.nodup, hs.freeListed.mem_iff⟩, hs.inRange, by simp [PrivateHeap.putRoots]⟩
    obtain ⟨h₁, hm, hs₁, hk⟩ := foldlM_markRoot_sound hst (ord.mark.drain h.roots)
      fun i hi => hs.roots i ((ord.mark.mem_drain _ i).mp hi)
    obtain ⟨h₂, hsw, a, -⟩ := scan_sweep_run ord hs₁.inRange hs₁.roots
    refine ⟨h₂, ?_, ⟨?_, ?_, ?_⟩, ?_⟩
    · rw [collectCycles, if_neg hem, markRoots_eq, hm]
      exact hsw
    · exact hs₁.freeListed.freesTo (((FreesTo.refl h₁).putRoots ∅).trans ⟨_, .of_sameShape a⟩)
    · exact a.inRange hs₁.inRange
    · rw [a.roots]
      simp [PrivateHeap.putRoots]
    · have hk' : KeepsAnchored (h₁.putRoots ∅) h₂ := .sameShape a
      exact fun r obj hr => hk' r obj (hk r obj hr)

section Alloc

variable {res : Except VmError VmObjectRef}

theorem place_length (hr : h.place obj = some (h', res)) :
    h.objects.length ≤ h'.objects.length ∧ h'.roots = h.roots := by
  obtain ⟨j, rs, s, g, -, -, -, -, rfl⟩ | ⟨-, -, -, rfl⟩ | ⟨-, -, -, rfl⟩ := place_cases hr
  · exact ⟨(length_setSlot h j _).ge, rfl⟩
  · exact ⟨le_rfl, rfl⟩
  · exact ⟨by simp, rfl⟩

theorem exists_place (hf : h.FreeListed) (obj : HeapObject) :
    ∃ h' res, h.place obj = some (h', res) := by
  unfold place
  cases hl : h.freeSlots with
  | nil =>
    dsimp only
    split
    · exact ⟨_, _, rfl⟩
    · exact ⟨_, _, rfl⟩
  | cons i rs =>
    have hi := ((hf.mem_iff i).mp (hl ▸ List.mem_cons_self)).1
    dsimp only
    rw [List.getElem?_eq_getElem hi]
    exact ⟨_, _, rfl⟩

theorem place_ok (hf : h.FreeListed) (hrn : h.place obj = some (h', .ok r)) : KeepsAnchored h h' ∧
      ∃ s, h'.resolve r = some s ∧ s.object = some obj ∧ s.anchors = 1 ∧ s.edges = 0 := by
  obtain ⟨hd, ⟨s, hr, hon, hz⟩, hot⟩ := resolve_place hf hrn
  constructor
  · rintro x o ⟨t, hx, ho, hp⟩
    have hne : x ≠ r := by
      rintro rfl
      exact hd (alive_iff_resolve.mpr ⟨t, hx⟩)
    exact ⟨t, (hot x t hne).mpr hx, ho, hp⟩
  · refine ⟨s, hr, ?_, hon, hz⟩
    have hs := (resolve_eq_some_iff.mp hr).1
    obtain ⟨j, rs, t, g, -, ht, -, hrs, rfl⟩ | ⟨-, -, hrs, -⟩ | ⟨-, -, hrs, rfl⟩ :=
      place_cases hrn
    · cases hrs
      have hsl := getElem?_setSlot_self (s := .fresh g obj) (slot_lt ht)
      obtain rfl := Option.some.inj (hsl.symm.trans hs)
      rfl
    · cases hrs
    · cases hrs
      rw [List.getElem?_concat_length] at hs
      obtain rfl := Option.some.inj hs
      rfl

theorem place_sound (hs : h.Sound) (hob : ∀ c ∈ obj.getChildren, c.index < h.objects.length)
    (hr : h.place obj = some (h', res)) : h'.Sound := by
  obtain ⟨hl, hrt⟩ := place_length hr
  refine ⟨place_freeListed hs.freeListed hr, fun i c hc => ?_, fun i hi => ?_⟩
  · rw [childrenAt_eq_objectAt] at hc
    cases ho : h'.objectAt i with
    | none => simp [ho] at hc
    | some o =>
      rw [ho] at hc
      refine lt_of_lt_of_le ?_ hl
      rcases place_objectAt hr ho with rfl | hold
      · exact hob c hc
      · refine hs.inRange i c ?_
        rw [childrenAt_eq_objectAt, hold]
        exact hc
  · exact lt_of_lt_of_le (hs.roots i (hrt ▸ hi)) hl

theorem collectIfDue_sound (ord : CollectOrder) (hs : h.Sound) :
    ∃ h', h.collectIfDue ord = some h' ∧ h'.Sound ∧ KeepsAnchored h h' ∧
      h'.objects.length = h.objects.length := by
  unfold collectIfDue
  split
  · obtain ⟨h₁, hr, hs₁, hk⟩ := collectCycles_sound ord hs
    obtain ⟨fs, a⟩ := collectCycles_freesTo ord hr
    refine ⟨{ h₁ with allocationsSinceRelease := 0 }, by rw [hr]; rfl, ?_, hk, a.length⟩
    exact ⟨⟨hs₁.freeListed.nodup, hs₁.freeListed.mem_iff⟩, hs₁.inRange, hs₁.roots⟩
  · exact ⟨h, rfl, hs, .refl h, rfl⟩

theorem Sound.book (hs : h.Sound) (q : ThreadQuota) (n : ℕ) : (h.book q n).Sound :=
  ⟨⟨hs.freeListed.nodup, hs.freeListed.mem_iff⟩, hs.inRange, hs.roots⟩

/-- Allocation never panics; a new object has one anchor and no edges. -/
theorem alloc_sound (ord : CollectOrder) (hs : h.Sound)
    (hob : ∀ c ∈ obj.getChildren, c.index < h.objects.length) :
    ∃ h' res, h.alloc ord obj = some (h', res) ∧ h'.Sound ∧ KeepsAnchored h h' ∧ ∀ r, res = .ok r →
        ∃ s, h'.resolve r = some s ∧ s.object = some obj ∧ s.anchors = 1 ∧ s.edges = 0 := by
  unfold alloc
  cases hq : h.quota.tryReserveHeap 1 (obj.heapBytes h.sizes) with
  | error f => exact ⟨h, _, rfl, hs, .refl h, nofun⟩
  | ok q =>
    have hbk := hs.book q (h.allocationsSinceRelease + 1)
    obtain ⟨h₁, hdu, hs₁, hk, hln⟩ := collectIfDue_sound ord hbk
    obtain ⟨h₂, res, hpl⟩ := exists_place hs₁.freeListed obj
    refine ⟨h₂, res, ?_, ?_, ?_, ?_⟩
    · change ((h.book q (h.allocationsSinceRelease + 1)).collectIfDue ord).bind
        (fun h => h.place obj) = _
      rw [hdu, Option.bind_some, hpl]
    · exact place_sound hs₁ (fun c hc => by rw [hln]; exact hob c hc) hpl
    · cases res with
      | error e =>
        obtain ⟨_, _, _, _, -, -, -, hrs, -⟩ | ⟨-, -, -, rfl⟩ | ⟨-, -, hrs, -⟩ :=
          place_cases hpl
        · cases hrs
        · exact hk
        · cases hrs
      | ok r => exact fun x o hx => (place_ok hs₁.freeListed hpl).1 x o (hk x o hx)
    · rintro r rfl
      exact (place_ok hs₁.freeListed hpl).2

end Alloc

end Galfus.PrivateHeap
