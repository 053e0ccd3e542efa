import Galfus.Heap.Cycles
import Galfus.Heap.Quota

/-! # Balanced counts

A heap is balanced with respect to its holders: the anchors of an object are the
holders of it outside of the heap, and its edges are its occurrences in objects, plus
those that an operation has retained and not yet stored, or taken out and not yet
released. Every heap operation keeps the balance, with holders as it says.
-/

namespace Galfus.PrivateHeap

open Multiset (count_pos count_add count_cons_self count_cons_of_ne count_eq_zero_of_notMem
  coe_count mem_add mem_coe)

variable {h h' : PrivateHeap} {i n : ℕ} {s t u : HeapSlot} {obj o' : HeapObject}
  {r x : VmObjectRef} {A A' B B' : Multiset VmObjectRef}

theorem occurrences_eq_weigh (h : PrivateHeap) (r : VmObjectRef) :
    h.occurrences r = h.weigh fun obj => obj.getChildren.count r := by
  rw [weigh_eq_sum]
  refine Finset.sum_congr rfl fun i _ => ?_
  rw [childrenAt_eq_objectAt]
  cases h.objectAt i <;> rfl

theorem occurrences_pos : 0 < h.occurrences r ↔ ∃ s ∈ h.objects, r ∈ s.children := by
  rw [occurrences, Finset.sum_pos_iff]
  constructor
  · rintro ⟨i, -, hi⟩
    cases hs : h.objects[i]? with
    | none => simp [childrenAt, hs] at hi
    | some s =>
      rw [childrenAt_eq hs, List.count_pos_iff] at hi
      exact ⟨s, List.mem_of_getElem? hs, hi⟩
  · rintro ⟨s, hs, hr⟩
    obtain ⟨i, hi⟩ := List.mem_iff_getElem?.mp hs
    refine ⟨i, Finset.mem_range.mpr (slot_lt hi), ?_⟩
    rwa [childrenAt_eq hi, List.count_pos_iff]

def Alive (h : PrivateHeap) (r : VmObjectRef) : Prop := h.Current r ∧ h.Live r.index

theorem alive_iff_resolve : h.Alive r ↔ ∃ s, h.resolve r = some s := by
  simp only [Alive, Current, Live, Option.map_eq_some_iff, resolve_eq_some_iff]
  constructor
  · rintro ⟨⟨s, hs, hg⟩, t, ht, ho⟩
    rw [hs] at ht
    cases ht
    exact ⟨s, hs, hg, ho⟩
  · rintro ⟨s, hs, hg, ho⟩
    exact ⟨⟨s, hs, hg⟩, s, hs, ho⟩

instance (h : PrivateHeap) (r : VmObjectRef) : Decidable (h.Alive r) :=
  decidable_of_iff ((h.resolve r).isSome) (Option.isSome_iff_exists.trans alive_iff_resolve.symm)

theorem Frees.alive {fs : List (ℕ × HeapObject)} (a : Frees fs h h') :
    h'.Alive r ↔ h.Alive r ∧ r.index ∉ fs.map Prod.fst := by
  unfold Alive
  rw [a.current, a.live, and_assoc]

theorem Frees.occurrences {fs : List (ℕ × HeapObject)} (a : Frees fs h h') (r : VmObjectRef) :
    h.occurrences r = h'.occurrences r + (fs.map fun p => p.2.getChildren.count r).sum := by
  rw [occurrences_eq_weigh, occurrences_eq_weigh, a.weigh]

theorem resolve_setSlot (hr : h.resolve r = some s) (hg : t.generation = s.generation)
    (hx : (h.setSlot r.index t).resolve x = some u) :
    (x = r ∧ u = t) ∨ (x ≠ r ∧ h.resolve x = some u) := by
  obtain ⟨hs, hsg, -⟩ := resolve_eq_some_iff.mp hr
  obtain ⟨hu, hug, huo⟩ := resolve_eq_some_iff.mp hx
  by_cases hxi : x.index = r.index
  · rw [hxi, getElem?_setSlot_self (slot_lt hs)] at hu
    cases hu
    exact .inl ⟨VmObjectRef.ext hxi (hug.symm.trans (hg.trans hsg)), rfl⟩
  · rw [getElem?_setSlot_ne (Ne.symm hxi)] at hu
    exact .inr ⟨fun heq => hxi (heq ▸ rfl), resolve_eq_some_iff.mpr ⟨hu, hug, huo⟩⟩

/-- The slot of a placed object is new: nothing refers to it before, and other
references mean what they did. -/
theorem resolve_place (hf : h.FreeListed) (hrn : h.place obj = some (h', .ok r)) :
    ¬ h.Alive r ∧ (∃ s, h'.resolve r = some s ∧ s.anchors = 1 ∧ s.edges = 0) ∧
      ∀ x s, x ≠ r → (h'.resolve x = some s ↔ h.resolve x = some s) := by
  obtain ⟨i, rs, s, g, hl, hs, -, hrs, rfl⟩ | ⟨-, -, hrs, -⟩ | ⟨-, -, hrs, rfl⟩ :=
    place_cases hrn
  · cases hrs
    have hlt := slot_lt hs
    have hsl : (h.setSlot i (.fresh g obj)).objects[i]? = some (.fresh g obj) :=
      getElem?_setSlot_self hlt
    have hem : h.objectAt i = none := ((hf.mem_iff i).mp (by simp [hl])).2
    have hdd : ∀ x : VmObjectRef, x.index = i → ¬ h.Alive x := by
      rintro x rfl ⟨-, hlv⟩
      obtain ⟨o, ho⟩ := live_iff_objectAt.mp hlv
      rw [hem] at ho
      cases ho
    refine ⟨hdd _ rfl, ⟨_, resolve_eq_some_iff.mpr ⟨hsl, rfl, rfl⟩, rfl, rfl⟩, ?_⟩
    intro x t hxr
    rw [resolve_eq_some_iff, resolve_eq_some_iff]
    by_cases hxi : x.index = i
    · rw [hxi, hsl]
      constructor
      · rintro ⟨ht, hg, -⟩
        cases ht
        exact absurd (VmObjectRef.ext hxi hg.symm) hxr
      · rintro ⟨ht, hg, ho⟩
        exact absurd (alive_iff_resolve.mpr ⟨t, resolve_eq_some_iff.mpr ⟨hxi ▸ ht, hg, ho⟩⟩)
          (hdd x hxi)
    · rw [getElem?_setSlot_ne (Ne.symm hxi)]
  · cases hrs
  · cases hrs
    refine ⟨?_, ⟨.fresh 1 obj, resolve_eq_some_iff.mpr ⟨by simp, rfl, rfl⟩, rfl, rfl⟩, ?_⟩
    · rintro ⟨-, hlv⟩
      exact absurd hlv.lt (lt_irrefl _)
    · intro x t hxr
      rw [resolve_eq_some_iff, resolve_eq_some_iff]
      rcases lt_trichotomy x.index h.objects.length with hlt | heq | hgt
      · rw [List.getElem?_append_left hlt]
      · rw [heq, List.getElem?_concat_length, List.getElem?_eq_none le_rfl]
        constructor
        · rintro ⟨ht, hg, -⟩
          cases ht
          exact absurd (VmObjectRef.ext heq hg.symm) hxr
        · rintro ⟨ht, -⟩
          cases ht
      · rw [List.getElem?_eq_none (by simpa using Nat.succ_le_of_lt hgt),
          List.getElem?_eq_none hgt.le]

/-- The holders outside of the heap are `A`, and `B` are the edges on the way. -/
structure Balanced (A B : Multiset VmObjectRef) (h : PrivateHeap) : Prop where
  freeListed : h.FreeListed
  anchors : ∀ r s, h.resolve r = some s → s.anchors = A.count r
  edges : ∀ r s, h.resolve r = some s → s.edges = h.occurrences r + B.count r
  alive : ∀ r, r ∈ A ∨ r ∈ B ∨ 0 < h.occurrences r → h.Alive r

namespace Balanced

variable {internal : PrivateHeap → ℕ → PrivateHeap}

section

variable (hb : h.Balanced A B)
include hb

theorem congr (ho : h'.objects = h.objects) (hf : h'.freeSlots = h.freeSlots) :
    h'.Balanced A B := by
  have hob : ∀ i, h'.objectAt i = h.objectAt i := fun i => by rw [objectAt, objectAt, ho]
  have hoc : ∀ r, h'.occurrences r = h.occurrences r := fun r => by
    simp only [occurrences, childrenAt, ho]
  have hrs : ∀ r, h'.resolve r = h.resolve r := fun r => by rw [resolve, resolve, ho]
  constructor
  · exact ⟨hf ▸ hb.freeListed.nodup, fun i => by rw [hf, ho, hob]; exact hb.freeListed.mem_iff i⟩
  · intro r s
    rw [hrs]
    exact hb.anchors r s
  · intro r s
    rw [hrs, hoc]
    exact hb.edges r s
  · intro r
    rw [hoc, alive_iff_resolve, hrs, ← alive_iff_resolve]
    exact hb.alive r

theorem putRoots (R : Finset ℕ) : (h.putRoots R).Balanced A B :=
  hb.congr rfl rfl

theorem unique (hb' : h.Balanced A' B') : A = A' ∧ B = B' := by
  constructor <;> ext r
  · by_cases hr : h.Alive r
    · obtain ⟨s, hs⟩ := alive_iff_resolve.mp hr
      exact (hb.anchors r s hs).symm.trans (hb'.anchors r s hs)
    · rw [count_eq_zero_of_notMem fun hm => hr (hb.alive r (.inl hm)),
        count_eq_zero_of_notMem fun hm => hr (hb'.alive r (.inl hm))]
  · by_cases hr : h.Alive r
    · obtain ⟨s, hs⟩ := alive_iff_resolve.mp hr
      exact Nat.add_left_cancel ((hb.edges r s hs).symm.trans (hb'.edges r s hs))
    · rw [count_eq_zero_of_notMem fun hm => hr (hb.alive r (.inr (.inl hm))),
        count_eq_zero_of_notMem fun hm => hr (hb'.alive r (.inr (.inl hm)))]

variable (hr : h.resolve r = some s)
include hr

theorem recount (t : HeapSlot) (hc : t.content = s.content) (hta : t.anchors = A'.count r)
    (hte : t.edges = h.occurrences r + B'.count r) (hA : ∀ x, x ≠ r → A'.count x = A.count x)
    (hB : ∀ x, x ≠ r → B'.count x = B.count x) : (h.setSlot r.index t).Balanced A' B' := by
  have a : Frees [] h (h.setSlot r.index t) := .setSlot (resolve_eq_some_iff.mp hr).1 hc
  have ho : ∀ x, (h.setSlot r.index t).occurrences x = h.occurrences x := fun x => by
    simpa using (a.occurrences x).symm
  have hg := (HeapSlot.content_eq_iff.mp hc).1
  constructor
  · exact hb.freeListed.freesTo ⟨_, a⟩
  · intro x u hx
    obtain ⟨rfl, rfl⟩ | ⟨hne, hx⟩ := resolve_setSlot hr hg hx
    · exact hta
    · rw [hA x hne]
      exact hb.anchors x u hx
  · intro x u hx
    rw [ho]
    obtain ⟨rfl, rfl⟩ | ⟨hne, hx⟩ := resolve_setSlot hr hg hx
    · exact hte
    · rw [hB x hne]
      exact hb.edges x u hx
  · intro x hx
    rw [ho] at hx
    rw [a.alive]
    refine ⟨?_, by simp⟩
    by_cases hxr : x = r
    · rw [hxr]
      exact alive_iff_resolve.mpr ⟨s, hr⟩
    · apply hb.alive
      rwa [← count_pos, ← count_pos, hA x hxr, hB x hxr, count_pos, count_pos] at hx

theorem retainAnchor :
    ∃ h', h.retainAnchor r = .ok h' ∧ (s.anchors < u32Max → h'.Balanced (r ::ₘ A) B) ∧
      (s.anchors = u32Max → h'.Balanced A B) := by
  have ha := hb.anchors r s hr
  refine ⟨(h.setSlot r.index (s.incAnchors.paint .black)).dropRoot r.index, ?_, ?_, ?_⟩
  · simp [PrivateHeap.retainAnchor, hr]
  · intro hlt
    refine (hb.recount hr (s.incAnchors.paint .black) rfl ?_ (hb.edges r s hr) (fun x hx => ?_)
      fun _ _ => rfl).putRoots _
    · show satSucc s.anchors = _
      rw [count_cons_self, satSucc_of_lt hlt, ha]
    · exact count_cons_of_ne hx A
  · intro hm
    refine (hb.recount hr (s.incAnchors.paint .black) rfl ?_ (hb.edges r s hr) (fun _ _ => rfl)
      fun _ _ => rfl).putRoots _
    show satSucc s.anchors = _
    rw [← ha, hm]
    rfl

omit hr in
theorem retainEdge (hr : h.Alive r) (hlt : h.occurrences r + B.count r < u32Max) :
    ∃ h', h.retainEdge r = .ok h' ∧ h'.Balanced A (r ::ₘ B) ∧ Frees [] h h' := by
  obtain ⟨s, hr⟩ := alive_iff_resolve.mp hr
  have hed := hb.edges r s hr
  refine ⟨(h.setSlot r.index (s.incEdges.paint .black)).dropRoot r.index, ?_, ?_, ?_⟩
  · simp [PrivateHeap.retainEdge, hr]
  · refine (hb.recount hr (s.incEdges.paint .black) rfl (hb.anchors r s hr) ?_ (fun _ _ => rfl)
      fun x hx => ?_).putRoots _
    · show satSucc s.edges = _
      rw [count_cons_self, satSucc_of_lt (by omega), hed, Nat.add_assoc]
    · exact count_cons_of_ne hx B
  · exact (Frees.setSlot (t := s.incEdges.paint .black)
      (resolve_eq_some_iff.mp hr).1 rfl).putRoots _

theorem makePurple : (h.makePurple r.index s).Balanced A B :=
  (hb.recount hr (s.paint .purple) rfl (hb.anchors r s hr) (hb.edges r s hr) (fun _ _ => rfl)
    fun _ _ => rfl).putRoots _

/-- Freeing an object that nothing holds puts its children on the way. -/
theorem discard (ho : s.object = some obj) (ha : s.anchors = 0) (he : s.edges = 0) :
    (h.discard r.index s obj).Balanced A (obj.getChildren + B) := by
  have hs := (resolve_eq_some_iff.mp hr).1
  have a : Frees [(r.index, obj)] h (h.discard r.index s obj) := .discard hs ho rfl
  have hoc : ∀ x, h.occurrences x =
      (h.discard r.index s obj).occurrences x + obj.getChildren.count x := fun x => by
    simpa using a.occurrences x
  have hfr : ∀ x, x ∈ A ∨ x ∈ B ∨ 0 < h.occurrences x → x.index ≠ r.index := by
    intro x hx hxi
    obtain rfl := (alive_iff_resolve.mpr ⟨s, hr⟩).1.eq_of_index (hb.alive x hx).1 hxi
    have := hb.anchors x s hr
    have := hb.edges x s hr
    rw [← count_pos, ← count_pos] at hx
    omega
  have hsl : ∀ x u, (h.discard r.index s obj).resolve x = some u → h.resolve x = some u := by
    intro x u hu
    obtain ⟨hus, hug, huo⟩ := resolve_eq_some_iff.mp hu
    have hxi : x.index ≠ r.index := by
      intro hxi
      have hse : (h.discard r.index s obj).objects[x.index]? = some s.vacate := by
        rw [hxi]
        exact getElem?_setSlot_self (slot_lt hs)
      rw [hse] at hus
      cases hus
      cases huo
    refine resolve_eq_some_iff.mpr ⟨?_, hug, huo⟩
    exact (getElem?_setSlot_ne (Ne.symm hxi)).symm.trans hus
  constructor
  · exact hb.freeListed.freesTo ⟨_, a⟩
  · exact fun x u hu => hb.anchors x u (hsl x u hu)
  · intro x u hu
    rw [count_add, coe_count, hb.edges x u (hsl x u hu), hoc]
    omega
  · intro x hx
    have hx' : x ∈ A ∨ x ∈ B ∨ 0 < h.occurrences x := by
      rw [mem_add, mem_coe, ← List.count_pos_iff] at hx
      rw [hoc]
      rcases hx with hx | (hx | hx) | hx
      · exact .inl hx
      · exact .inr (.inr (by omega))
      · exact .inr (.inl hx)
      · exact .inr (.inr (by omega))
    rw [a.alive]
    exact ⟨hb.alive x hx', by simpa using hfr x hx'⟩

end

theorem releaseEdgeBody
    (hit : ∀ g u, g.liveCount = h.liveCount → g.Balanced A B → g.resolve r = some u →
      u.anchors = 0 → u.edges = 0 → (internal g r.index).Balanced A B)
    (hb : h.Balanced A (r ::ₘ B)) :
    ∃ h', PrivateHeap.releaseEdgeBody internal h r = .ok h' ∧ h'.Balanced A B := by
  obtain ⟨s, hr⟩ := alive_iff_resolve.mp (hb.alive r (by simp))
  have hed := hb.edges r s hr
  rw [count_cons_self] at hed
  obtain ⟨hs, hg, ho⟩ := resolve_eq_some_iff.mp hr
  have hb₁ : (h.setSlot r.index s.decEdges).Balanced A B := by
    refine hb.recount hr s.decEdges rfl (hb.anchors r s hr) ?_ (fun _ _ => rfl) fun x hx => ?_
    · show s.edges - 1 = _
      omega
    · exact (count_cons_of_ne hx B).symm
  have hr₁ : (h.setSlot r.index s.decEdges).resolve r = some s.decEdges :=
    resolve_eq_some_iff.mpr ⟨getElem?_setSlot_self (slot_lt hs), hg, ho⟩
  have hlv : (h.setSlot r.index s.decEdges).liveCount = h.liveCount := by
    rw [liveCount_eq_weigh, liveCount_eq_weigh, (Frees.setSlot (t := s.decEdges) hs rfl).weigh]
    simp
  unfold PrivateHeap.releaseEdgeBody
  simp only [hr]
  split
  · rename_i hz
    exact ⟨_, rfl, hit _ _ hlv hb₁ hr₁ hz.1 hz.2⟩
  · split
    · exact ⟨_, rfl, hb₁.makePurple hr₁⟩
    · exact ⟨_, rfl, hb₁⟩

theorem releaseEdges (cs : List VmObjectRef)
    (hi : ∀ g r u A B, g.liveCount ≤ n → Balanced A B g → g.resolve r = some u →
      u.anchors = 0 → u.edges = 0 → (internal g r.index).Balanced A B)
    (hf : ∀ g i, FreesTo g (internal g i)) (hn : h.liveCount ≤ n) (hb : h.Balanced A (cs + B)) :
    (cs.foldl (fun h c => h.orKeep (PrivateHeap.releaseEdgeBody internal h c)) h).Balanced A B := by
  induction cs generalizing h with
  | nil => simpa using hb
  | cons c cs ih =>
    rw [← Multiset.cons_coe, Multiset.cons_add] at hb
    obtain ⟨h₁, hrn, hb₁⟩ := hb.releaseEdgeBody fun g u hg => hi g c u A (cs + B) (hg ▸ hn)
    rw [List.foldl_cons, hrn]
    refine ih ?_ hb₁
    obtain ⟨fs, a⟩ := releaseEdgeBody_freesTo hf hrn
    exact a.liveCount_le.trans hn

/-- The cascade frees an object that nothing holds, and what only it held. -/
theorem releaseInternal (hb : h.Balanced A B) (hr : h.resolve r = some s) (ha : s.anchors = 0)
    (he : s.edges = 0) : (h.releaseInternal r.index).Balanced A B := by
  induction hn : h.liveCount using Nat.strong_induction_on generalizing h r s A B with
  | _ n ih =>
    obtain ⟨hs, -, ho⟩ := resolve_eq_some_iff.mp hr
    obtain ⟨obj, ho⟩ := Option.isSome_iff_exists.mp ho
    have hb₁ := (hb.putRoots (h.roots.erase r.index)).discard (r := r) hr ho ha he
    have hlt : ((h.dropRoot r.index).discard r.index s obj).liveCount < h.liveCount :=
      (Frees.discard (h := h.dropRoot r.index) hs ho rfl).liveCount_lt (by simp)
    rw [releaseInternal_eq, releaseInternalBody, hs]
    simp only [ho]
    refine releaseEdges (n := n - 1) obj.getChildren ?_ .releaseInternal (by omega) hb₁
    exact fun g r u A B hg hbg hru hua hue => ih g.liveCount (by omega) hbg hru hua hue rfl

theorem releaseEdge (hb : h.Balanced A (r ::ₘ B)) :
    ∃ h', h.releaseEdge r = .ok h' ∧ h'.Balanced A B :=
  hb.releaseEdgeBody fun _ _ _ hbg hr ha he => hbg.releaseInternal hr ha he

theorem releaseAnchor (hb : h.Balanced (r ::ₘ A) B) :
    ∃ h', h.releaseAnchor r = .ok h' ∧ h'.Balanced A B := by
  obtain ⟨s, hr⟩ := alive_iff_resolve.mp (hb.alive r (by simp))
  have han := hb.anchors r s hr
  rw [count_cons_self] at han
  obtain ⟨hs, hg, ho⟩ := resolve_eq_some_iff.mp hr
  have hb₁ : (h.setSlot r.index s.decAnchors).Balanced A B := by
    refine hb.recount hr s.decAnchors rfl ?_ (hb.edges r s hr) (fun x hx => ?_) fun _ _ => rfl
    · show s.anchors - 1 = _
      omega
    · exact (count_cons_of_ne hx A).symm
  have hr₁ : (h.setSlot r.index s.decAnchors).resolve r = some s.decAnchors :=
    resolve_eq_some_iff.mpr ⟨getElem?_setSlot_self (slot_lt hs), hg, ho⟩
  unfold PrivateHeap.releaseAnchor
  simp only [hr]
  split
  · rename_i ha
    split
    · rename_i he
      exact ⟨_, rfl, hb₁.releaseInternal hr₁ ha he⟩
    · split
      · exact ⟨_, rfl, hb₁.makePurple hr₁⟩
      · exact ⟨_, rfl, hb₁⟩
  · exact ⟨_, rfl, hb₁⟩

/-- Overwriting an object: what it holds in addition was on the way, and what it held
before is on the way now. -/
theorem setObject {N O : Multiset VmObjectRef} (hb : h.Balanced A (N + B))
    (hgt : h.getObject r = .ok obj) (hrn : h.setObject r o' = .ok h')
    (hch : (o'.getChildren : Multiset VmObjectRef) + O = obj.getChildren + N) :
    h'.Balanced A (O + B) := by
  have hf := (setObject_evolves hb.freeListed hrn).1
  obtain ⟨s, hr, rfl⟩ := setObject_eq_ok.mp hrn
  obtain ⟨hs, hg, ho⟩ := resolve_eq_some_iff.mp hr
  have hso : s.object = some obj := by
    obtain ⟨t, hts, -, hto⟩ := getObject_eq_ok.mp hgt
    rw [hs] at hts
    cases hts
    exact hto
  obtain ⟨t, ht⟩ : ∃ t : HeapSlot, t = { s with object := some o' } := ⟨_, rfl⟩
  have htg : t.generation = s.generation := ht ▸ rfl
  have hto : t.object = some o' := ht ▸ rfl
  rw [← ht] at hf ⊢
  have hcn : ∀ x, o'.getChildren.count x + O.count x = obj.getChildren.count x + N.count x := by
    intro x
    simpa using congrArg (Multiset.count x) hch
  have hoc : ∀ x, (h.setSlot r.index t).occurrences x + obj.getChildren.count x =
      h.occurrences x + o'.getChildren.count x := by
    intro x
    have := weigh_setSlot hs t fun o => o.getChildren.count x
    rw [hso, hto] at this
    rw [occurrences_eq_weigh, occurrences_eq_weigh]
    exact this
  have hkp : ∀ x u, (h.setSlot r.index t).resolve x = some u →
      ∃ v, h.resolve x = some v ∧ u.anchors = v.anchors ∧ u.edges = v.edges := by
    intro x u hu
    obtain ⟨rfl, rfl⟩ | ⟨-, hu⟩ := resolve_setSlot hr htg hu
    · exact ⟨s, hr, ht ▸ rfl, ht ▸ rfl⟩
    · exact ⟨u, hu, rfl, rfl⟩
  constructor
  · exact hf
  · intro x u hu
    obtain ⟨v, hv, hva, -⟩ := hkp x u hu
    exact hva.trans (hb.anchors x v hv)
  · intro x u hu
    obtain ⟨v, hv, -, hve⟩ := hkp x u hu
    have hed := hb.edges x v hv
    have := hcn x
    have := hoc x
    rw [count_add] at hed ⊢
    omega
  · intro x hx
    have hx' : x ∈ A ∨ x ∈ N + B ∨ 0 < h.occurrences x := by
      rw [← count_pos, ← count_pos, count_add] at hx ⊢
      have := hcn x
      have := hoc x
      omega
    obtain ⟨hcr, hlv⟩ := hb.alive x hx'
    have hlt := slot_lt hs
    by_cases hxi : r.index = x.index
    · refine ⟨?_, t, hxi ▸ getElem?_setSlot_self hlt, by simp [hto]⟩
      rw [Current, ← hxi, hs] at hcr
      rw [Current, ← hxi, getElem?_setSlot_self hlt]
      simpa [htg] using hcr
    · refine ⟨?_, ?_⟩
      · rw [Current, getElem?_setSlot_ne hxi]
        exact hcr
      · obtain ⟨u, hu, huo⟩ := hlv
        exact ⟨u, (getElem?_setSlot_ne hxi).trans hu, huo⟩

theorem place (hb : h.Balanced A (obj.getChildren + B))
    (hrn : h.place obj = some (h', .ok r)) : h'.Balanced (r ::ₘ A) B := by
  have hf := place_freeListed hb.freeListed hrn
  have hoc : ∀ x, h'.occurrences x = h.occurrences x + obj.getChildren.count x := by
    intro x
    rw [occurrences_eq_weigh, occurrences_eq_weigh]
    exact weigh_place hb.freeListed hrn _
  obtain ⟨hdd, ⟨t, hrt, hta, hte⟩, hot⟩ := resolve_place hb.freeListed hrn
  have hnn : ¬ (r ∈ A ∨ r ∈ (obj.getChildren : Multiset VmObjectRef) + B ∨
      0 < h.occurrences r) := fun hm => hdd (hb.alive r hm)
  rw [← count_pos, ← count_pos, count_add, coe_count] at hnn
  constructor
  · exact hf
  · intro x s hx
    by_cases hxr : x = r
    · subst hxr
      rw [hrt] at hx
      cases hx
      rw [count_cons_self]
      omega
    · rw [count_cons_of_ne hxr]
      exact hb.anchors x s ((hot x s hxr).mp hx)
  · intro x s hx
    rw [hoc]
    by_cases hxr : x = r
    · subst hxr
      rw [hrt] at hx
      cases hx
      omega
    · have hed := hb.edges x s ((hot x s hxr).mp hx)
      rw [count_add, coe_count] at hed
      omega
  · intro x hx
    rw [alive_iff_resolve]
    by_cases hxr : x = r
    · subst hxr
      exact ⟨t, hrt⟩
    · have hx' : x ∈ A ∨ x ∈ (obj.getChildren : Multiset VmObjectRef) + B ∨
          0 < h.occurrences x := by
        rw [hoc, Multiset.mem_cons, ← count_pos (s := B)] at hx
        rw [← count_pos (s := _ + B), count_add, coe_count]
        rcases hx with (hx | hx) | hx
        · exact absurd hx hxr
        · exact .inl hx
        · exact .inr (by omega)
      obtain ⟨s, hs⟩ := alive_iff_resolve.mp (hb.alive x hx')
      exact ⟨s, (hot x s hxr).mpr hs⟩

end Balanced

end Galfus.PrivateHeap
