import Galfus.Heap.Quota

/-! # Allocation within the quota

An allocation reserves the share of its object first. The books stay exact if the
object then finds a slot, and if the byte counter does not overflow.
-/

namespace Galfus.PrivateHeap

variable {h h' h₁ : PrivateHeap} {n b k : ℕ} {obj : HeapObject} {r c : VmObjectRef}
  {ord : CollectOrder} {res : Except VmError VmObjectRef} {sz : TypeSizes}

/-- Objects of `b` more bytes do not overflow the byte counter: the limit is below the
largest `usize`, or the sum is not above it. -/
def Fitting (h : PrivateHeap) (b : ℕ) : Prop :=
  h.quota.maxHeapBytes < usizeMax ∨ h.liveBytes + b ≤ usizeMax

/-- An allocation whose reservation is granted fits the byte counter, and finds a slot once the
collection that may be due has run. -/
def AllocFits (ord : CollectOrder) (h : PrivateHeap) (obj : HeapObject) : Prop :=
  ∀ q, h.quota.tryReserveHeap 1 (obj.heapBytes h.sizes) = .ok q →
    h.Fitting (obj.heapBytes h.sizes) ∧
      ∀ h₁, (h.book q (h.allocationsSinceRelease + 1)).collectIfDue ord = some h₁ →
        h₁.freeSlots ≠ [] ∨ h₁.objects.length < u32Max

theorem Accounted.reserve (ha : h.Accounted) (hf : h.Fitting b) {q : ThreadQuota}
    (hr : h.quota.tryReserveHeap 1 b = .ok q) (m : ℕ) :
    (h.book q m).Charged 1 b ∧ q.heapObjects = h.quota.heapObjects + 1 ∧
      q.heapBytes = h.quota.heapBytes + b := by
  obtain ⟨hob, hby, rfl⟩ := ThreadQuota.tryReserveHeap_eq_ok hr
  have hn := ha.charged.objects
  have hb := ha.charged.bytes
  have hc := h.liveCount_le_length
  have hl := ha.length_le
  have hn' : h.quota.heapObjects + 1 ≤ usizeMax := by
    have : u32Max < usizeMax := by decide
    omega
  have hb' : h.quota.heapBytes + b ≤ usizeMax := by
    unfold usizeSaturatingAdd at hby
    rcases hf with hlm | hs <;> omega
  have ho : ThreadQuota.fetchAdd h.quota.heapObjects 1 = h.quota.heapObjects + 1 :=
    ThreadQuota.fetchAdd_of_le hn'
  have hs : ThreadQuota.fetchAdd h.quota.heapBytes b = h.quota.heapBytes + b :=
    ThreadQuota.fetchAdd_of_le hb'
  refine ⟨⟨?_, ?_, ?_, ?_⟩, ho, hs⟩
  · exact ho.trans (by rw [hn]; rfl)
  · exact hs.trans (by rw [hb]; rfl)
  · exact ho.trans_le hn'
  · exact hs.trans_le hb'

theorem place_generations (hg : ∀ s ∈ h.objects, s.generation ≤ u32Max)
    (hr : h.place obj = some (h', res)) : ∀ s ∈ h'.objects, s.generation ≤ u32Max := by
  intro s hs
  obtain ⟨i, rs, t, g, -, -, hgn, -, rfl⟩ | ⟨-, -, -, rfl⟩ | ⟨-, -, -, rfl⟩ := place_cases hr
  · rcases List.mem_or_eq_of_mem_set hs with hs | rfl
    · exact hg s hs
    · rw [HeapSlot.fresh, hgn]
      exact Nat.le_of_lt_succ (Nat.mod_lt _ (Nat.succ_pos _))
  · exact hg s hs
  · rcases List.mem_append.mp hs with hs | hs
    · exact hg s hs
    · rw [List.mem_singleton.mp hs]
      exact (by decide : 1 ≤ u32Max)

theorem Accounted.alloc (ha : h.Accounted) (hft : AllocFits ord h obj)
    (hrn : h.alloc ord obj = some (h', res)) : h'.Accounted := by
  obtain ⟨-, -, -, rfl⟩ | ⟨q, m, h₁, hrs, hdu, a, hpl⟩ := alloc_cases hrn
  · exact ha
  · obtain ⟨hfi, hsl⟩ := hft q hrs
    have hc := (ha.reserve hfi hrs m).1
    have hf : h₁.FreeListed := .freesTo (h := h.book q m)
      ⟨ha.freeListed.nodup, ha.freeListed.mem_iff⟩ a
    have hc₁ := hc.freesTo a
    obtain ⟨fs, a⟩ := a
    have hsz : h₁.sizes = h.sizes := a.sizes
    have hln : h₁.objects.length = h.objects.length := a.length
    have hg₁ : ∀ s ∈ h₁.objects, s.generation ≤ u32Max :=
      a.forall_generation (P := (· ≤ u32Max)) ha.generations
    refine ⟨?_, place_freeListed hf hpl, place_generations hg₁ hpl, ?_⟩
    · cases res with
      | ok c =>
        rw [← hsz, ← Nat.zero_add (HeapObject.heapBytes _ _)] at hc₁
        exact .place hf hc₁ hpl
      | error e =>
        obtain ⟨_, _, _, _, -, -, -, he, -⟩ | ⟨hl, hfl, -, -⟩ | ⟨-, -, he, -⟩ := place_cases hpl
        · cases he
        · rcases hsl h₁ hdu with hne | hlt
          · exact absurd hl hne
          · omega
        · cases he
    · have := ha.length_le
      obtain ⟨_, _, _, _, -, -, -, -, rfl⟩ | ⟨-, -, -, rfl⟩ | ⟨-, hlt, -, rfl⟩ := place_cases hpl
      · rw [length_setSlot]
        omega
      · omega
      · rw [List.length_append]
        exact hlt

/-- There are slots for `n` more objects, and `b` more bytes fit. -/
structure Admits (h : PrivateHeap) (n b : ℕ) : Prop where
  slots : n ≤ h.freeSlots.length + (u32Max - h.objects.length)
  fitting : h.Fitting b

theorem Fitting.mono {b' : ℕ} (hf : h.Fitting b) (hle : b' ≤ b) : h.Fitting b' := by
  rcases hf with hf | hf
  · exact .inl hf
  · exact .inr (by omega)

theorem Admits.allocFits (ha : h.Admits (n + 1) b) (hb : obj.heapBytes h.sizes ≤ b) :
    AllocFits ord h obj := by
  refine fun q _ => ⟨ha.fitting.mono hb, fun h₁ hd => ?_⟩
  have hn := ha.slots
  have hk : h.freeSlots.length ≤ h₁.freeSlots.length ∧ h₁.objects.length = h.objects.length := by
    unfold collectIfDue at hd
    split at hd
    · obtain ⟨h₂, hc, hr⟩ := Option.bind_eq_some_iff.mp hd
      cases hr
      obtain ⟨fs, a⟩ := collectCycles_freesTo ord hc
      have hf : h₂.freeSlots = (fs.map Prod.fst).reverse ++ h.freeSlots := a.freeSlots
      exact ⟨by simp [hf], a.length⟩
    · cases hd
      exact ⟨le_rfl, rfl⟩
  by_cases hem : h₁.freeSlots = []
  · rw [hem, List.length_nil] at hk
    exact .inr (by omega)
  · exact .inl hem

theorem Admits.alloc (ha : h.Accounted) (had : h.Admits (n + 1) (b + obj.heapBytes h.sizes))
    (hrn : h.alloc ord obj = some (h', .ok c)) : h'.Admits n b := by
  obtain ⟨_, -, hrs, -⟩ | ⟨q, m, h₁, hrs, -, a, hpl⟩ := alloc_cases hrn
  · cases hrs
  · have hf : h₁.FreeListed := .freesTo (h := h.book q m)
      ⟨ha.freeListed.nodup, ha.freeListed.mem_iff⟩ a
    obtain ⟨fs, a⟩ := a
    have hln : h₁.objects.length = h.objects.length := a.length
    have hfr : h₁.freeSlots = (fs.map Prod.fst).reverse ++ h.freeSlots := a.freeSlots
    have hsl := had.slots
    have hle : h.freeSlots.length ≤ h₁.freeSlots.length := by simp [hfr]
    constructor
    · obtain ⟨i, rs, s, g, hl, -, -, -, rfl⟩ | ⟨-, -, he, -⟩ | ⟨hl, hlt, -, rfl⟩ :=
        place_cases hpl
      · rw [hl, List.length_cons] at hle
        show n ≤ rs.length + (u32Max - (h₁.setSlot i _).objects.length)
        rw [length_setSlot]
        omega
      · cases he
      · rw [hl, List.length_nil] at hle
        rw [List.length_append, List.length_singleton, hl, List.length_nil]
        omega
    · obtain ⟨hq, hsz, -, -⟩ := place_rest hpl
      have hmx : h'.quota.maxHeapBytes = h.quota.maxHeapBytes := by
        obtain ⟨-, -, rfl⟩ := ThreadQuota.tryReserveHeap_eq_ok hrs
        rw [hq, a.quota_eq]
        exact ThreadQuota.maxHeapBytes_releaseAll _ _ _
      have hby : h'.liveBytes ≤ h.liveBytes + obj.heapBytes h.sizes := by
        have hw : h.weigh (HeapObject.heapBytes h.sizes) =
            h₁.weigh (HeapObject.heapBytes h.sizes) + _ := a.weigh _
        have hs₁ : h₁.sizes = h.sizes := a.sizes
        rw [liveBytes, liveBytes, hsz, hs₁, weigh_place hf hpl, hw]
        omega
      rcases had.fitting with hlm | hsm
      · exact .inl (hmx ▸ hlm)
      · exact .inr (by omega)

/-- No collection runs in the next `n` allocations, or it has nothing to do. -/
def Idle (h : PrivateHeap) (n : ℕ) : Prop :=
  h.roots = ∅ ∨ h.allocationsSinceRelease + n < 500

theorem Idle.alloc (hi : h.Idle (n + 1)) (hrn : h.alloc ord obj = some (h', .ok c)) :
    h.quota.tryReserveHeap 1 (obj.heapBytes h.sizes) = .ok h'.quota ∧ h'.Idle n := by
  obtain ⟨_, -, hr, -⟩ | ⟨q, m, h₁, hr, hd, -, hp⟩ := alloc_cases hrn
  · cases hr
  · obtain ⟨hq, -, hrt, ha⟩ := place_rest hp
    have hs : h₁.quota = q ∧ h₁.Idle n := by
      unfold collectIfDue at hd
      split at hd
      · rename_i hd'
        have hem : h.roots = ∅ := by
          rcases hi with hi | hi
          · exact hi
          · have : 500 ≤ h.allocationsSinceRelease + 1 := hd'
            omega
        have hc : (h.book q (h.allocationsSinceRelease + 1)).collectCycles ord =
            some (h.book q (h.allocationsSinceRelease + 1)) := if_pos hem
        rw [hc] at hd
        cases hd
        exact ⟨rfl, .inl hem⟩
      · cases hd
        refine ⟨rfl, hi.imp id fun hi => ?_⟩
        show h.allocationsSinceRelease + 1 + n < 500
        omega
    rw [hq, hs.1]
    refine ⟨hr, ?_⟩
    unfold Idle
    rw [hrt, ha]
    exact hs.2

end Galfus.PrivateHeap
