import Mathlib.Algebra.BigOperators.Ring.Finset
import Galfus.Heap.History

/-! # The heap quota

The quota counts the objects of a heap and the bytes that they are charged for.
Freeing gives back exactly what the freed objects are charged for, and placing an
object uses up its reservation, so both counters stay exact as long as an object
that has a reservation finds a slot and keeps its size.
-/

namespace Galfus

namespace ThreadQuota

variable {q q' : ThreadQuota} {n b : ℕ}

theorem fetchSub_of_le (hle : b ≤ n) (hn : n ≤ usizeMax) : fetchSub n b = n - b := by
  have hb : b < usizeSize := by unfold usizeSize; unfold usizeMax at hn; omega
  have hn' : n - b < usizeSize := by unfold usizeSize; unfold usizeMax at hn; omega
  rw [fetchSub, Nat.mod_eq_of_lt hb, show n + (usizeSize - b) = (n - b) + usizeSize by omega,
    Nat.add_mod_right, Nat.mod_eq_of_lt hn']

theorem fetchAdd_of_le (hle : n + b ≤ usizeMax) : fetchAdd n b = n + b := by
  apply Nat.mod_eq_of_lt
  unfold usizeSize
  unfold usizeMax at hle
  omega

/-- The objects can be released in this order, each one from a quota that has it reserved. -/
def Covers (sz : TypeSizes) (q : ThreadQuota) : List HeapObject → Prop
  | [] => True
  | obj :: objs => 1 ≤ q.heapObjects ∧ obj.heapBytes sz ≤ q.heapBytes ∧
      Covers sz (q.releaseHeap 1 (obj.heapBytes sz)) objs

instance decidableCovers (sz : TypeSizes) : (q : ThreadQuota) → (objs : List HeapObject) →
    Decidable (q.Covers sz objs)
  | _, [] => isTrue trivial
  | q, obj :: objs =>
    have := decidableCovers sz (q.releaseHeap 1 (obj.heapBytes sz)) objs
    inferInstanceAs (Decidable (_ ∧ _ ∧ _))

def releaseAll (sz : TypeSizes) (q : ThreadQuota) (objs : List HeapObject) : ThreadQuota :=
  objs.foldl (fun q obj => q.releaseHeap 1 (obj.heapBytes sz)) q

theorem maxHeapBytes_releaseAll (sz : TypeSizes) (q : ThreadQuota) (o : List HeapObject) :
    (q.releaseAll sz o).maxHeapBytes = q.maxHeapBytes := by
  induction o generalizing q with
  | nil => rfl
  | cons obj o ih => rw [releaseAll, List.foldl_cons, ← releaseAll, ih, releaseHeap]

theorem releaseAll_of_reserved (sz : TypeSizes) (o : List HeapObject)
    (hn : q.heapObjects = n + o.length)
    (hb : q.heapBytes = b + (o.map (HeapObject.heapBytes sz)).sum)
    (hn' : q.heapObjects ≤ usizeMax) (hb' : q.heapBytes ≤ usizeMax) :
    q.Covers sz o ∧ q.releaseAll sz o = { q with heapObjects := n, heapBytes := b } := by
  induction o generalizing q with
  | nil =>
    refine ⟨trivial, ?_⟩
    simp only [List.length_nil, Nat.add_zero, List.map_nil, List.sum_nil] at hn hb
    rw [← hn, ← hb]
    rfl
  | cons obj o ih =>
    simp only [List.length_cons, List.map_cons, List.sum_cons] at hn hb
    have h₁ : (q.releaseHeap 1 (obj.heapBytes sz)).heapObjects = q.heapObjects - 1 :=
      fetchSub_of_le (by omega) hn'
    have h₂ : (q.releaseHeap 1 (obj.heapBytes sz)).heapBytes = q.heapBytes - obj.heapBytes sz :=
      fetchSub_of_le (by omega) hb'
    obtain ⟨hc, ha⟩ := ih (q := q.releaseHeap 1 (obj.heapBytes sz)) (by omega) (by omega)
      (by omega) (by omega)
    refine ⟨⟨by omega, by omega, hc⟩, ?_⟩
    rw [releaseAll, List.foldl_cons, ← releaseAll, ha, releaseHeap]

/-- A reservation that is granted fits the limits, unless it wraps around. -/
theorem tryReserveHeap_eq_ok (hr : q.tryReserveHeap n b = .ok q') :
    usizeSaturatingAdd q.heapObjects n ≤ q.maxHeapObjects ∧
      usizeSaturatingAdd q.heapBytes b ≤ q.maxHeapBytes ∧
      q' = { q with
        heapObjects := fetchAdd q.heapObjects n, heapBytes := fetchAdd q.heapBytes b } := by
  unfold tryReserveHeap at hr
  split at hr
  · cases hr
  · split at hr
    · cases hr
    · cases hr
      exact ⟨by omega, by omega, rfl⟩

end ThreadQuota

namespace PrivateHeap

variable {h h' h₁ h₂ : PrivateHeap} {i j n b : ℕ} {s : HeapSlot} {obj : HeapObject}
  {r : VmObjectRef} {q : ThreadQuota} {fs : List (ℕ × HeapObject)} {f : HeapObject → ℕ}
  {res : Except VmError VmObjectRef}

def liveObjects (h : PrivateHeap) : List HeapObject := h.objects.filterMap HeapSlot.object

def weigh (f : HeapObject → ℕ) (h : PrivateHeap) : ℕ := (h.liveObjects.map f).sum

def liveBytes (h : PrivateHeap) : ℕ := h.weigh (HeapObject.heapBytes h.sizes)

theorem weigh_eq_sum (f : HeapObject → ℕ) (h : PrivateHeap) :
    h.weigh f = ∑ i ∈ Finset.range h.objects.length, (h.objectAt i).elim 0 f := by
  unfold weigh liveObjects objectAt
  induction h.objects using List.reverseRecOn with
  | nil => simp
  | append_singleton l s ih =>
    have hr : ∑ i ∈ Finset.range l.length, (((l ++ [s])[i]?).bind HeapSlot.object).elim 0 f =
        ∑ i ∈ Finset.range l.length, ((l[i]?).bind HeapSlot.object).elim 0 f := by
      refine Finset.sum_congr rfl fun i hi => ?_
      rw [List.getElem?_append_left (Finset.mem_range.mp hi)]
    rw [List.length_append, List.length_singleton, Finset.sum_range_succ, hr, ← ih]
    cases hs : s.object <;> simp [hs]

theorem liveCount_eq_weigh (h : PrivateHeap) : h.liveCount = h.weigh fun _ => 1 := by
  rw [liveCount, Finset.card_filter, weigh_eq_sum]
  refine Finset.sum_congr rfl fun i _ => ?_
  cases h.objectAt i <;> rfl

theorem liveCount_eq_length (h : PrivateHeap) : h.liveCount = h.liveObjects.length := by
  simp [liveCount_eq_weigh, weigh]

theorem Frees.weigh (a : Frees fs h h') (f : HeapObject → ℕ) :
    h.weigh f = h'.weigh f + (fs.map fun p => f p.2).sum := by
  have hsb : (fs.map Prod.fst).toFinset ⊆ Finset.range h.objects.length := by
    intro i hi
    obtain ⟨p, hp, rfl⟩ := List.mem_map.mp (List.mem_toFinset.mp hi)
    exact Finset.mem_range.mpr (live_iff_objectAt.mpr ⟨p.2, a.freed p hp⟩).lt
  have hfr : ∑ i ∈ (fs.map Prod.fst).toFinset, (h.objectAt i).elim 0 f =
      (fs.map fun p => f p.2).sum := by
    rw [List.sum_toFinset _ a.nodup, List.map_map]
    congr 1
    refine List.map_congr_left fun p hp => ?_
    simp [a.freed p hp]
  have hgn : ∑ i ∈ (fs.map Prod.fst).toFinset, (h'.objectAt i).elim 0 f = 0 := by
    refine Finset.sum_eq_zero fun i hi => ?_
    rw [a.object, if_pos (List.mem_toFinset.mp hi)]
    rfl
  have hkp : ∀ i ∈ Finset.range h.objects.length \ (fs.map Prod.fst).toFinset,
      (h'.objectAt i).elim 0 f = (h.objectAt i).elim 0 f := by
    intro i hi
    rw [a.object, if_neg fun hm => (Finset.mem_sdiff.mp hi).2 (List.mem_toFinset.mpr hm)]
  rw [weigh_eq_sum, weigh_eq_sum, a.length, ← Finset.sum_sdiff hsb, ← Finset.sum_sdiff hsb,
    hfr, hgn, Finset.sum_congr rfl hkp, Nat.add_zero]

theorem weigh_setSlot (hs : h.objects[i]? = some s) (t : HeapSlot) (f : HeapObject → ℕ) :
    (h.setSlot i t).weigh f + s.object.elim 0 f = h.weigh f + t.object.elim 0 f := by
  have hi := slot_lt hs
  have hm : i ∈ Finset.range h.objects.length := Finset.mem_range.mpr hi
  have hr : ∑ j ∈ (Finset.range h.objects.length).erase i, ((h.setSlot i t).objectAt j).elim 0 f =
        ∑ j ∈ (Finset.range h.objects.length).erase i, (h.objectAt j).elim 0 f := by
    refine Finset.sum_congr rfl fun j hj => ?_
    rw [objectAt, getElem?_setSlot_ne (Ne.symm (Finset.ne_of_mem_erase hj)), ← objectAt]
  rw [weigh_eq_sum, weigh_eq_sum, length_setSlot, ← Finset.add_sum_erase _ _ hm,
    ← Finset.add_sum_erase (Finset.range h.objects.length) _ hm, objectAt_eq hs,
    objectAt_eq (getElem?_setSlot_self hi), hr]
  omega

/-- The counters hold what the objects are charged for, and `n` objects of `b` bytes
in total that are reserved and not yet placed. -/
structure Charged (h : PrivateHeap) (n b : ℕ) : Prop where
  objects : h.quota.heapObjects = h.liveCount + n
  bytes : h.quota.heapBytes = h.liveBytes + b
  objects_le : h.quota.heapObjects ≤ usizeMax
  bytes_le : h.quota.heapBytes ≤ usizeMax

def QuotaExact (h : PrivateHeap) : Prop :=
  h.quota.heapObjects = h.liveCount ∧ h.quota.heapBytes = h.liveBytes

theorem Charged.quotaExact (hc : h.Charged 0 0) : h.QuotaExact := ⟨hc.objects, hc.bytes⟩

theorem Frees.quota_eq (a : Frees fs h h') :
    h'.quota = h.quota.releaseAll h.sizes (fs.map Prod.snd) := by
  rw [a.quota, ThreadQuota.releaseAll, List.foldl_map]

/-- Freeing takes no more than is reserved, and leaves the rest reserved. -/
theorem Charged.frees (hc : h.Charged n b) (a : Frees fs h h') :
    h.quota.Covers h.sizes (fs.map Prod.snd) ∧ h'.Charged n b := by
  have hcn : h.liveCount = h'.liveCount + fs.length := by
    rw [liveCount_eq_weigh, liveCount_eq_weigh, a.weigh]
    simp
  have hby : h.liveBytes = h'.liveBytes + (fs.map fun p => p.2.heapBytes h.sizes).sum := by
    rw [liveBytes, liveBytes, a.weigh, a.sizes]
  have hn := hc.objects
  have hb := hc.bytes
  obtain ⟨hcv, ha⟩ := ThreadQuota.releaseAll_of_reserved h.sizes (fs.map Prod.snd)
    (q := h.quota) (n := h'.liveCount + n) (b := h'.liveBytes + b) (by rw [List.length_map]; omega)
    (by rw [List.map_map, Function.comp_def]; omega) hc.objects_le hc.bytes_le
  have hq := a.quota_eq.trans ha
  have := hc.objects_le
  have := hc.bytes_le
  refine ⟨hcv, ⟨by rw [hq], by rw [hq], ?_, ?_⟩⟩ <;> rw [hq]
  · show h'.liveCount + n ≤ usizeMax
    omega
  · show h'.liveBytes + b ≤ usizeMax
    omega

theorem Charged.freesTo (hc : h.Charged n b) (a : FreesTo h h') : h'.Charged n b :=
  a.elim fun _ a => (hc.frees a).2

theorem Charged.setObject (hc : h.Charged n b) {o : HeapObject} (hl : h.getObject r = .ok o)
    (hsz : obj.heapBytes h.sizes = o.heapBytes h.sizes) (hrn : h.setObject r obj = .ok h') :
    h'.Charged n b := by
  obtain ⟨s, hr, rfl⟩ := setObject_eq_ok.mp hrn
  have hs := (resolve_eq_some_iff.mp hr).1
  have ho : s.object = some o := by
    obtain ⟨t, hts, -, ho⟩ := getObject_eq_ok.mp hl
    rw [hs] at hts
    cases hts
    exact ho
  have hcn := weigh_setSlot hs { s with object := some obj } fun _ => 1
  have hb := weigh_setSlot hs { s with object := some obj } (HeapObject.heapBytes h.sizes)
  simp only [ho, Option.elim_some, hsz] at hcn hb
  refine ⟨?_, ?_, hc.objects_le, hc.bytes_le⟩
  · rw [liveCount_eq_weigh, Nat.add_right_cancel hcn, ← liveCount_eq_weigh]
    exact hc.objects
  · show _ = (h.setSlot r.index _).weigh (HeapObject.heapBytes h.sizes) + b
    rw [Nat.add_right_cancel hb]
    exact hc.bytes

theorem weigh_place (hf : h.FreeListed) (hr : h.place obj = some (h', .ok r))
    (f : HeapObject → ℕ) : h'.weigh f = h.weigh f + f obj := by
  obtain ⟨i, rs, s, g, hl, hs, -, -, rfl⟩ | ⟨-, -, hrs, -⟩ | ⟨-, -, -, rfl⟩ := place_cases hr
  · have hem : s.object = none := by
      rw [← objectAt_eq hs]
      exact ((hf.mem_iff i).mp (by simp [hl])).2
    have hst := weigh_setSlot hs (.fresh g obj) f
    rw [hem] at hst
    exact hst
  · cases hrs
  · simp [weigh, liveObjects, HeapSlot.fresh]

theorem place_rest (hr : h.place obj = some (h', res)) :
    h'.quota = h.quota ∧ h'.sizes = h.sizes ∧ h'.roots = h.roots ∧
      h'.allocationsSinceRelease = h.allocationsSinceRelease := by
  obtain ⟨_, _, _, _, -, -, -, -, rfl⟩ | ⟨-, -, -, rfl⟩ | ⟨-, -, -, rfl⟩ := place_cases hr <;>
    exact ⟨rfl, rfl, rfl, rfl⟩

theorem Charged.place (hf : h.FreeListed) (hc : h.Charged (n + 1) (b + obj.heapBytes h.sizes))
    (hr : h.place obj = some (h', .ok r)) : h'.Charged n b := by
  obtain ⟨hq, hsz, -, -⟩ := place_rest hr
  have hn := hc.objects
  have hb := hc.bytes
  unfold liveBytes at hb
  refine ⟨?_, ?_, hq ▸ hc.objects_le, hq ▸ hc.bytes_le⟩
  · rw [hq, liveCount_eq_weigh, weigh_place hf hr, hn, liveCount_eq_weigh]
    omega
  · rw [hq, liveBytes, weigh_place hf hr, hsz, hb]
    omega

/-- The destructor of a heap: it releases every object that is left. -/
def drop (h : PrivateHeap) : PrivateHeap :=
  { h with
    objects := h.objects.map fun s => { s with object := none }
    quota := h.quota.releaseAll h.sizes h.liveObjects }

theorem Charged.drop (hc : h.Charged 0 0) : h.quota.Covers h.sizes h.liveObjects ∧
    h.drop.quota.heapObjects = 0 ∧ h.drop.quota.heapBytes = 0 := by
  have hn := hc.objects
  rw [liveCount_eq_length] at hn
  obtain ⟨hcv, ha⟩ := ThreadQuota.releaseAll_of_reserved h.sizes h.liveObjects (q := h.quota)
    (n := 0) (b := 0) (by omega) (hc.bytes.trans (Nat.add_comm _ _)) hc.objects_le hc.bytes_le
  exact ⟨hcv, congrArg ThreadQuota.heapObjects ha, congrArg ThreadQuota.heapBytes ha⟩

/-- The invariant of the heap's books. -/
structure Accounted (h : PrivateHeap) : Prop where
  charged : h.Charged 0 0
  freeListed : h.FreeListed
  generations : ∀ s ∈ h.objects, s.generation ≤ u32Max
  length_le : h.objects.length ≤ u32Max

namespace Accounted

theorem new (mo mb : ℕ) (sz : TypeSizes) : (PrivateHeap.new (.new mo mb) sz).Accounted where
  charged := ⟨rfl, rfl, Nat.zero_le _, Nat.zero_le _⟩
  freeListed := freeListed_new _ sz
  generations := by simp [PrivateHeap.new]
  length_le := Nat.zero_le _

theorem freesTo (ha : h.Accounted) (a : FreesTo h h') : h'.Accounted := by
  refine ⟨ha.charged.freesTo a, ha.freeListed.freesTo a, ?_, ?_⟩ <;> obtain ⟨fs, a⟩ := a
  · exact a.forall_generation (P := (· ≤ u32Max)) ha.generations
  · rw [a.length]
    exact ha.length_le

theorem setObject (ha : h.Accounted) {o : HeapObject} (hl : h.getObject r = .ok o)
    (hs : obj.heapBytes h.sizes = o.heapBytes h.sizes) (hrn : h.setObject r obj = .ok h') :
    h'.Accounted := by
  refine ⟨ha.charged.setObject hl hs hrn, (setObject_evolves ha.freeListed hrn).1, ?_, ?_⟩ <;>
    obtain ⟨s, hr, rfl⟩ := setObject_eq_ok.mp hrn
  · intro t ht
    rcases List.mem_or_eq_of_mem_set ht with ht | rfl
    · exact ha.generations t ht
    · exact ha.generations s (List.mem_of_getElem? (resolve_eq_some_iff.mp hr).1)
  · rw [length_setSlot]
    exact ha.length_le

end Accounted

end PrivateHeap

end Galfus
