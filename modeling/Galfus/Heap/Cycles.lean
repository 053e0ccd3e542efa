import Mathlib.Algebra.GroupWithZero.Nat
import Galfus.Heap.Collection

/-! # The cycle collector against its purpose

What a collection of a heap at rest does to the objects that it should keep, to
the counts that it should restore, and to the garbage that it should free.
-/

namespace Galfus.PrivateHeap

open Graph

variable {h h₁ h₂ : PrivateHeap} {i j : ℕ} {s : HeapSlot}

/-- A slot of the first generation that holds a tuple of references. -/
def tupleSlot (anchors edges : UInt32) (color : GcColor) (refs : List VmObjectRef) : HeapSlot :=
  ⟨1, anchors.toNat, edges.toNat, color, some (.tuple (.exact (refs.map .object))),
    Nat.le_pred_of_lt anchors.toNat_lt, Nat.le_pred_of_lt edges.toNat_lt⟩

def ofTuples (slots : List HeapSlot) (roots : Finset ℕ) : PrivateHeap :=
  { new ⟨100, 10000, slots.length, 5000⟩ ⟨64, 16⟩ with objects := slots, roots }

/-- An anchored object refers to the one root. -/
def linkHeap : PrivateHeap :=
  ofTuples [tupleSlot 1 0 .black [⟨1, 1⟩], tupleSlot 0 1 .purple []] {1}

/-- An anchored object refers to root 1, which refers to root 2. -/
def chainHeap : PrivateHeap :=
  ofTuples [tupleSlot 1 0 .black [⟨1, 1⟩], tupleSlot 0 1 .purple [⟨2, 1⟩], tupleSlot 0 1 .purple []]
    {1, 2}

/-- As `chainHeap`, with a second reference to root 2, which refers to a further object. -/
def sharedHeap : PrivateHeap :=
  ofTuples [tupleSlot 1 0 .black [⟨1, 1⟩, ⟨2, 1⟩], tupleSlot 0 1 .purple [⟨2, 1⟩],
    tupleSlot 0 2 .purple [⟨3, 1⟩], tupleSlot 0 1 .black []] {1, 2}

def loopHeap : PrivateHeap := ofTuples [tupleSlot 0 1 .purple [⟨0, 1⟩]] {0}

theorem linkHeap_apart : linkHeap.RootsApart .ascending := by
  have : DrainOrder.ascending.drain linkHeap.roots = [1] := by decide
  simp [RootsApart, this]

/-- Every object is referenced at least as often as the heap refers to it. -/
def Covered (h : PrivateHeap) : Prop :=
  ∀ i, h.Live i → refs h.succ (Finset.range h.objects.length) i ≤ h.edgesAt i

theorem Accurate.covered (ha : h.Accurate) : h.Covered := fun _ hl => (ha.edgesAt hl).ge

/-- `i` is reachable from a slot within `Γ` that is anchored, or referenced from
elsewhere than `Γ`. -/
def Grounded (h : PrivateHeap) (Γ : Finset ℕ) (i : ℕ) : Prop :=
  ∃ x ∈ Γ, (0 < h.anchorsAt x ∨ refs h.succ Γ x < h.edgesAt x) ∧ Reaches h.succ x i

theorem edgesAt_le (h : PrivateHeap) (i : ℕ) : h.edgesAt i ≤ u32Max := by
  unfold edgesAt
  cases h.objects[i]? with
  | none => simp
  | some s => exact s.edges_le

theorem iterate_satSucc (k c : ℕ) (hk : c + k ≤ u32Max) : satSucc^[k] c = c + k := by
  induction k generalizing c with
  | zero => rfl
  | succ k ih =>
    rw [Function.iterate_succ_apply, satSucc_of_lt (by omega), ih (c + 1) (by omega)]
    omega

theorem le_iterate_satSucc (k c : ℕ) (hc : c ≤ u32Max) : c ≤ satSucc^[k] c := by
  induction k generalizing c with
  | zero => exact le_rfl
  | succ k ih =>
    have hle : c ≤ satSucc c := by
      unfold satSucc
      omega
    exact hle.trans (ih _ (satSucc_le c))

/-- The marking after a mark phase whose roots do not reach later ones. -/
theorem Paints.gray_count {rs : List ℕ} {N : Finset ℕ} {m : Marking ℕ GcColor} (hb : h.Buffered)
    (hrs : ∀ r ∈ rs, r < h.objects.length)
    (hN : Paints h.succ .gray (· - 1) h.marking rs [] N m) :
    (∀ u ∈ h.reachedFrom rs, m.color u = .gray) ∧
      (∀ u ∉ h.reachedFrom rs, m.color u = h.colorAt u) ∧
      ∀ u, m.count u = h.edgesAt u - refs h.succ (h.reachedFrom rs) u := by
  have hsb : ∀ u ∈ N, u ∈ h.reachedFrom rs := fun u hu =>
    (mem_reachedFrom hrs).mpr (hN.reached u hu)
  have hin : ∀ u, m.color u = .gray → m.color u = .gray ∧ (h.Live u → u ∈ N) := by
    intro u hg
    refine ⟨hg, fun hl => by_contra fun huN => hb.ne_gray hl ?_⟩
    rwa [hN.spread.color, if_neg huN] at hg
  have hcl : Closed h.succ {u | m.color u = .gray ∧ (h.Live u → u ∈ N)} := by
    rintro u ⟨-, huN⟩ w hw
    exact hin w (hN.closed u (huN (live_of_mem_succ hw)) w hw)
  have hal : ∀ u ∈ h.reachedFrom rs, m.color u = .gray ∧ (h.Live u → u ∈ N) := by
    intro u hu
    obtain ⟨r, hr, hru⟩ := (mem_reachedFrom hrs).mp hu
    exact hcl.mem_of_reaches (hin r (hN.start r hr)) hru
  refine ⟨fun u hu => (hal u hu).1, fun u hu => ?_, fun u => ?_⟩
  · rw [hN.spread.color, if_neg fun hm => hu (hsb u hm)]
    rfl
  · have hrf : refs h.succ N u = refs h.succ (h.reachedFrom rs) u :=
      le_antisymm (refs_mono hsb u) (refs_le_of_live (fun v hv => (hal v hv).2) u)
    rw [hN.spread.count, iterate_pred, hrf]
    rfl

/-- If roots do not reach later ones, a collection frees nothing. It restores every count if all
roots are grounded, and strips the roots that are not. -/
theorem collectCycles_apart (o : CollectOrder) (hr : h.InRange) (hb : h.Buffered)
    (hcv : h.Covered) (hap : h.RootsApart o.mark) :
    ∃ h', h.collectCycles o = some h' ∧ SameShape (h.putRoots ∅) h' ∧
      ((∀ r ∈ h.roots, h.Grounded (h.reachedFrom (o.mark.drain h.roots)) r) →
        ∀ u, h.Live u → h'.edgesAt u = h.edgesAt u ∧ h'.colorAt u = .black) ∧
      ∀ r ∈ h.roots, ¬ h.Grounded (h.reachedFrom (o.mark.drain h.roots)) r → h'.edgesAt r = 0 := by
  by_cases hne : h.roots = ∅
  · refine ⟨h, by simp [collectCycles, hne], ⟨rfl, by rw [← hne]; rfl⟩, fun _ u hl => ?_,
      by simp [hne]⟩
    obtain ⟨s, hs, ho⟩ := hl
    exact ⟨rfl, by rw [colorAt_eq hs, hb.other u s hs ho (by simp [hne])]⟩
  have hmm : ∀ r, r ∈ o.mark.drain h.roots ↔ r ∈ h.roots := o.mark.mem_drain h.roots
  have hlt : ∀ r ∈ o.mark.drain h.roots, r < h.objects.length :=
    fun r hr => hb.lt ((hmm r).mp hr)
  obtain ⟨h₁, N, hrn, a, hN⟩ := foldlM_markRoot_apart hr hb (o.mark.drain h.roots)
    (fun r hr => (hmm r).mp hr) hap
  obtain ⟨hgr, hot, hcn⟩ := Paints.gray_count hb hlt hN
  have hrt : h₁.roots = h.roots := by
    rw [a.roots]
    ext r
    simp [putRoots, hmm]
  obtain ⟨h', hrn', a', hed, hcl⟩ := scan_sweep_run o (a.inRange hr)
    (fun r hr' => by rw [a.length]; exact hb.lt (hrt ▸ hr'))
  have hdn : h.collectCycles o = some h' := by
    unfold collectCycles
    rw [if_neg hne, markRoots_eq, hrn]
    exact hrn'
  refine ⟨h', hdn, (a.putRoots ∅).trans a', ?_⟩
  rw [hrt] at hed hcl
  -- what the roots reach is gray, and the scan starts from all of it
  generalize hΓ : h.reachedFrom (o.mark.drain h.roots) = Γ at *
  have hmmΓ : ∀ u, u ∈ Γ ↔ ∃ r ∈ h.roots, Reaches h.succ r u := by
    intro u
    simp only [← hΓ, mem_reachedFrom hlt, hmm]
  have hΓlt : ∀ u ∈ Γ, u < h.objects.length := by
    intro u hu
    obtain ⟨r, hr', hru⟩ := (hmmΓ u).mp hu
    simpa using h.closed_range_succ.mem_of_reaches (by simpa using hb.lt hr') hru
  have hΓclosed : Closed h.succ (Γ : Set ℕ) := by
    intro u hu w hw
    obtain ⟨r, hr', hru⟩ := (hmmΓ u).mp hu
    exact (hmmΓ w).mpr ⟨r, hr', hru.tail hw⟩
  have hcr : Γ.card < h.objects.length + 2 := by
    have := Finset.card_le_card fun u hu => Finset.mem_range.mpr (hΓlt u hu)
    rw [Finset.card_range] at this
    omega
  have hln : h₁.objects.length = h.objects.length := a.length
  have han : h₁.anchorsAt = h.anchorsAt := funext a.anchorsAt
  have hsn : h₁.graphScan (h₁.objects.length + 2) = Graph.scan h.succ .gray .white .black
      (fun i => decide (0 < h.anchorsAt i)) satSucc (h.objects.length + 2)
        (h.objects.length + 2) := by
    rw [graphScan, hln, han, a.succ]
    rfl
  rw [hsn] at hed hcl
  obtain ⟨hsc, hfn⟩ := scan_all (fun i => decide (0 < h.anchorsAt i)) hΓclosed
    (show GcColor.gray ≠ .black by decide) (show GcColor.gray ≠ .white by decide)
    (show GcColor.white ≠ .black by decide) hcr hcr
    (fun k w => le_iterate_satSucc k _ (h₁.edgesAt_le w)) hgr (o.scan.drain h.roots)
    (fun v hv => (hmmΓ v).mpr ⟨v, (o.scan.mem_drain _ v).mp hv, .refl v⟩)
    (fun u hu => by
      obtain ⟨r, hr', hru⟩ := (hmmΓ u).mp hu
      exact ⟨r, (o.scan.mem_drain _ r).mpr hr', hru⟩)
  generalize (o.scan.drain h.roots).foldl _ h₁.marking = m at *
  have hbc : ∀ u ∈ Γ, m.color u = .black ↔ h.Grounded Γ u := by
    intro u hu
    rw [(hfn u hu).2]
    refine exists_congr fun x => and_congr_right fun hx => and_congr_left fun _ => ?_
    simp only [Supported, decide_eq_true_eq, hcn]
    omega
  constructor
  · intro hal u hl
    have hΓblack : ∀ v ∈ Γ, m.color v = .black := by
      intro v hv
      obtain ⟨r, hr', hrv⟩ := (hmmΓ v).mp hv
      obtain ⟨x, hx, hsp, hxr⟩ := hal r hr'
      exact (hbc v hv).mpr ⟨x, hx, hsp, hxr.trans hrv⟩
    have hle : refs h.succ Γ u ≤ h.edgesAt u :=
      (refs_mono (fun v hv => Finset.mem_range.mpr (hΓlt v hv)) u).trans (hcv u hl)
    constructor
    · have hfl : Γ.filter (m.color · = .black) = Γ := Finset.filter_true_of_mem hΓblack
      have hmx := h.edgesAt_le u
      rw [hed, hsc.count, hfl, hcn, iterate_satSucc _ _ (by omega)]
      omega
    · rw [hcl]
      split
      · rfl
      rename_i hnt
      by_cases hu : u ∈ Γ
      · exact hΓblack u hu
      · obtain ⟨s, hs, ho⟩ := hl
        rw [hsc.outside u hu, hot u hu, colorAt_eq hs, hb.other u s hs ho hnt]
  · intro r hr' hng
    have hrΓ : r ∈ Γ := (hmmΓ r).mpr ⟨r, hr', .refl r⟩
    have hwh : m.color r = .white :=
      (hfn r hrΓ).1.resolve_left fun hbl => hng ((hbc r hrΓ).mp hbl)
    rw [hed]
    exact (hsc.white_idle r hrΓ hwh).2

/-- On an accurate heap, a root is grounded if it is reachable from an anchored
object or from an object that no root reaches. -/
theorem grounded_iff (o : DrainOrder ℕ) (hr : h.AtRest) (hi : i ∈ h.roots) :
    h.Grounded (h.reachedFrom (o.drain h.roots)) i ↔ ∃ x, h.Live x ∧ Reaches h.succ x i ∧
        (0 < h.anchorsAt x ∨ ∀ r ∈ h.roots, ¬ Reaches h.succ r x) := by
  have hmm : ∀ u, u ∈ h.reachedFrom (o.drain h.roots) ↔ ∃ r ∈ h.roots, Reaches h.succ r u := by
    intro u
    simp [mem_reachedFrom fun r hr' => hr.buffered.lt ((o.mem_drain _ r).mp hr'), o.mem_drain]
  have hlv : ∀ x, Reaches h.succ x i → h.Live x := by
    intro x hx
    rcases Relation.ReflTransGen.cases_head hx with rfl | ⟨w, hw, -⟩
    · obtain ⟨s, hs, ho, -⟩ := hr.buffered.root x hi
      exact ⟨s, hs, ho⟩
    · exact live_of_mem_succ hw
  generalize h.reachedFrom (o.drain h.roots) = Γ at hmm
  constructor
  · rintro ⟨x, -, hsp | hsp, hxi⟩
    · exact ⟨x, hlv x hxi, hxi, .inl hsp⟩
    · rw [hr.accurate.edgesAt (hlv x hxi)] at hsp
      obtain ⟨u, -, huΓ, hux⟩ : ∃ u ∈ Finset.range h.objects.length, u ∉ Γ ∧ x ∈ h.succ u := by
        by_contra hno
        push Not at hno
        refine absurd hsp (Nat.not_lt.mpr (Finset.sum_le_sum_of_ne_zero fun u hu hne => ?_))
        by_contra huΓ
        exact hne (List.count_eq_zero.mpr (hno u hu huΓ))
      refine ⟨u, live_of_mem_succ hux, .head hux hxi, .inr fun r hr' hru => ?_⟩
      exact huΓ ((hmm u).mpr ⟨r, hr', hru⟩)
  · rintro ⟨x, hxl, hxi, hx⟩
    by_cases hxΓ : x ∈ Γ
    · rcases hx with hx | hx
      · exact ⟨x, hxΓ, .inl hx, hxi⟩
      · obtain ⟨r, hr', hrx⟩ := (hmm x).mp hxΓ
        exact absurd hrx (hx r hr')
    · -- the path to the root enters `Γ` at a slot that is referenced from outside
      have hiΓ : i ∈ (Γ : Set ℕ) := (hmm i).mpr ⟨i, hi, .refl i⟩
      obtain ⟨a, b, -, haΓ, hab, hbΓ, hbi⟩ := hxi.exists_crossing (by simpa using hxΓ) hiΓ
      refine ⟨b, hbΓ, .inr ?_, hbi⟩
      have ha : a ∈ Finset.range h.objects.length := by simpa using (live_of_mem_succ hab).lt
      rw [hr.accurate.edgesAt (hlv b hbi)]
      refine Finset.sum_lt_sum_of_subset (fun u hu => ?_) ha haΓ (List.count_pos_iff.mpr hab)
        fun _ _ _ => Nat.zero_le _
      obtain ⟨r, hr', hru⟩ := (hmm u).mp hu
      exact h.closed_range_succ.mem_of_reaches (by simpa using hr.buffered.lt hr') hru

/-- A heap after a collection: accurate counts, black objects, an empty buffer. -/
structure Settled (h : PrivateHeap) : Prop where
  accurate : h.Accurate
  black : ∀ (i : ℕ) (s : HeapSlot), h.objects[i]? = some s → s.object.isSome → s.color = .black
  roots : h.roots = ∅

theorem SameShape.occurrences (a : SameShape h h₁) (r : VmObjectRef) :
    h₁.occurrences r = h.occurrences r := by
  simp only [PrivateHeap.occurrences, a.length, a.childrenAt]

/-- When no root is drained after a root that reaches it, a collection restores all counts and
colours just if every root is reachable from an anchored object or from one that no root
reaches. -/
theorem collectCycles_settled_iff (hr : h.AtRest) (ord : CollectOrder)
    (hap : h.RootsApart ord.mark) :
    ∃ h', h.collectCycles ord = some h' ∧ (h'.Settled ↔
      ∀ r ∈ h.roots, ∃ x, h.Live x ∧ Reaches h.succ x r ∧
        (0 < h.anchorsAt x ∨ ∀ r' ∈ h.roots, ¬ Reaches h.succ r' x)) := by
  obtain ⟨h', hrn, a, hgd, hbd⟩ :=
    collectCycles_apart ord hr.inRange hr.buffered hr.accurate.covered hap
  refine ⟨h', hrn, ?_, fun hal => ?_⟩
  · intro hse r hrt
    rw [← grounded_iff ord.mark hr hrt]
    by_contra hng
    obtain ⟨s, hs, ho, -, -, he⟩ := hr.buffered.root r hrt
    obtain ⟨t, ht, hts⟩ := a.slot (s := s) hs
    obtain ⟨hg, -, hto⟩ := HeapSlot.shape_eq_iff.mp hts
    have hzr : t.edges = 0 := by rw [← edgesAt_eq ht, hbd r hrt hng]
    have hoc : h'.occurrences ⟨r, s.generation⟩ = h.occurrences ⟨r, s.generation⟩ :=
      a.occurrences _
    have := hse.accurate r t ht (hto ▸ ho)
    rw [hg, hoc, ← hr.accurate r s hs ho] at this
    omega
  · have hal' := hgd fun r hrt => (grounded_iff ord.mark hr hrt).mpr (hal r hrt)
    have hsl : ∀ (i : ℕ) (t : HeapSlot), h'.objects[i]? = some t → t.object.isSome →
        ∃ s : HeapSlot, h.objects[i]? = some s ∧ s.object.isSome ∧ t.shape = s.shape := by
      intro i t ht ho
      obtain ⟨s, hs, hst⟩ := a.slot' ht
      exact ⟨s, hs, by rwa [(HeapSlot.shape_eq_iff.mp hst).2.2], hst.symm⟩
    refine ⟨fun i t ht ho => ?_, fun i t ht ho => ?_, a.roots⟩
    · obtain ⟨s, hs, hso, hts⟩ := hsl i t ht ho
      have he := (hal' i ⟨s, hs, hso⟩).1
      rw [edgesAt_eq ht, edgesAt_eq hs] at he
      rw [he, hr.accurate i s hs hso, (HeapSlot.shape_eq_iff.mp hts).1]
      exact (a.occurrences _).symm
    · obtain ⟨s, hs, hso, -⟩ := hsl i t ht ho
      rw [← colorAt_eq ht]
      exact (hal' i ⟨s, hs, hso⟩).2

theorem collectCycles_settles_link :
    ∃ h', linkHeap.collectCycles .ascending = some h' ∧ h'.Settled := by
  obtain ⟨h', hrn, hi⟩ := collectCycles_settled_iff (h := linkHeap) (by decide) .ascending
    linkHeap_apart
  refine ⟨h', hrn, hi.mpr fun r hr => ⟨0, ⟨_, rfl, rfl⟩, ?_, .inl (by decide)⟩⟩
  obtain rfl : r = 1 := by simpa [linkHeap, ofTuples] using hr
  exact .head (by decide) (.refl 1)

/-- A lost edge behind a root that an earlier one reached, and a white root that the
sweep leaves without its edge. -/
theorem collectCycles_unsettled :
    (sharedHeap.AtRest ∧ ∃ h', sharedHeap.collectCycles .ascending = some h' ∧ ¬ h'.Accurate) ∧
      loopHeap.AtRest ∧ ∃ h', loopHeap.collectCycles .ascending = some h' ∧ ¬ h'.Accurate :=
  ⟨⟨by decide, _, rfl, by decide⟩, by decide, _, rfl, by decide⟩

section Purpose

variable {r : ℕ}

/-- A collection of a heap at rest ends, and what it frees its mark phase freed. -/
theorem collectCycles_run (hr : h.AtRest) (o : CollectOrder) :
    ∃ h₁ h' fs, (o.mark.drain h.roots).foldlM markRoot (h.putRoots ∅) = some h₁ ∧
      h.collectCycles o = some h' ∧ Frees fs h h' ∧ ∀ i, h'.Live i ↔ h₁.Live i := by
  obtain ⟨h₁, hrn, m, -⟩ := foldlM_markRoot (P := fun _ => True) hr (o.mark.drain h.roots)
    (fun x hx => (o.mark.mem_drain _ x).mp hx) (fun _ _ _ _ _ _ _ _ h => h) (.start h)
    trivial
  by_cases hne : h.roots = ∅
  · have hn : o.mark.drain h.roots = [] :=
      List.eq_nil_iff_forall_not_mem.mpr fun x hx => by
        have := (o.mark.mem_drain _ x).mp hx
        simp [hne] at this
    rw [hn] at hrn ⊢
    exact ⟨h.putRoots ∅, h, [], rfl, by simp [collectCycles, hne], .refl h, fun _ => Iff.rfl⟩
  · obtain ⟨h', hd, a⟩ := collectCycles_of_marked o hr.inRange hne hrn m
    obtain ⟨fs, f⟩ := m.frees
    exact ⟨h₁, h', fs ++ [], hrn, hd, (f.putRoots ∅).trans (.of_sameShape a), a.live⟩

/-- If no root is drained after a root that reaches it, a collection keeps what is reachable from an
anchored object. A root whose references all come from what earlier roots reach is freed. -/
theorem collectCycles_keeps_anchored (hr : h.AtRest) (ord : CollectOrder) :
    ∃ h', h.collectCycles ord = some h' ∧
      (h.RootsApart ord.mark → ∀ x y, h.Live x → 0 < h.anchorsAt x → Reaches h.succ x y →
        h'.objectAt y = h.objectAt y) ∧
      ∀ pre b post, ord.mark.drain h.roots = pre ++ b :: post →
        (∀ u, b ∈ h.succ u → ∃ a ∈ pre, Reaches h.succ a u) → ¬ h'.Live b := by
  obtain ⟨h₁, h', fs, hrn, hd, f, hl⟩ := collectCycles_run hr ord
  refine ⟨h', hd, fun hap x y _ _ _ => ?_, fun pre b post hs hrf => ?_⟩
  · obtain ⟨h'', hd', a, -⟩ :=
      collectCycles_apart ord hr.inRange hr.buffered hr.accurate.covered hap
    obtain rfl : h' = h'' := by simpa [hd] using hd'
    exact (Frees.of_sameShape a).object y
  · rw [hl]
    rw [hs] at hrn
    exact foldlM_markRoot_dead hr (fun x hx => (ord.mark.mem_drain _ x).mp (by rwa [hs])) hrf hrn

theorem collectCycles_keeps_link : ∃ h', linkHeap.collectCycles .ascending = some h' ∧
    h'.objectAt 1 = linkHeap.objectAt 1 := by
  obtain ⟨h', hr, hk, -⟩ := collectCycles_keeps_anchored (h := linkHeap) (by decide) .ascending
  exact ⟨h', hr, hk linkHeap_apart 0 1 ⟨_, rfl, rfl⟩ (by decide) (.head (by decide) (.refl 1))⟩

theorem collectCycles_frees_reachable : chainHeap.AtRest ∧ 0 < chainHeap.anchorsAt 0 ∧
    Reaches chainHeap.succ 0 2 ∧ (chainHeap.objectAt 2).isSome ∧
    (chainHeap.collectCycles .ascending).map (·.objectAt 2) = some none :=
  ⟨by decide, by decide, .head (v := 1) (by decide) (.head (by decide) (.refl 2)), by decide,
    by decide⟩

/-- What `r` reaches is referenced only from what it reaches. -/
def Isolated (h : PrivateHeap) (r : ℕ) : Prop :=
  ∀ y u, Reaches h.succ r y → y ∈ h.succ u → Reaches h.succ r u

theorem Isolated.reaches (hi : h.Isolated r) {x : ℕ} (hx : Reaches h.succ x r) :
    Reaches h.succ r x := by
  induction hx using Relation.ReflTransGen.head_induction_on with
  | refl => exact .refl r
  | @head a b hab _ ih => exact hi b a ih hab

/-- The later of two roots that reach an isolated one is drained when all that refers to it is
reached. -/
theorem Isolated.overtaken (hi : h.Isolated r) (o : DrainOrder ℕ) (hroot : r ∈ h.roots) {r' : ℕ}
    (hroot' : r' ∈ h.roots) (hne : r' ≠ r) (hr' : Reaches h.succ r' r) : h.Overtaken o r := by
  have hov : ∀ p a b p', o.drain h.roots = p ++ b :: p' → a ∈ p → Reaches h.succ a r →
      Reaches h.succ b r → h.Overtaken o r := by
    intro p a b p' hd ha har hbr
    have hrb := hi.reaches hbr
    refine ⟨[], p, b, p', hd, .nil, hbr, fun u hu => ?_, fun y u _ hby _ hyu => .inl ?_⟩
    · exact ⟨a, ha, har.trans (hi b u hrb hu)⟩
    · exact hbr.trans (hi y u (hrb.trans hby) hyu)
  obtain ⟨p, p', hd⟩ := List.mem_iff_append.mp ((o.mem_drain _ r).mpr hroot)
  have hm := (o.mem_drain _ r').mpr hroot'
  rw [hd] at hm
  rcases List.mem_append.mp hm with hp | hp
  · exact hov p r' r p' hd hp hr' (.refl r)
  · obtain ⟨q, q', rfl⟩ := List.mem_iff_append.mp ((List.mem_cons.mp hp).resolve_left hne)
    exact hov (p ++ r :: q) r r' q' (by simp [hd]) (by simp) (.refl r) hr'

theorem garbage_of_unanchored (ha : ∀ x ∈ List.range h.objects.length, h.anchorsAt x = 0) :
    h.Garbage r := by
  intro x y hl hp
  rw [ha x (List.mem_range.mpr hl.lt)] at hp
  omega

/-- A buffered loop that refers to a buffered cycle of two objects. -/
def threeHeap : PrivateHeap :=
  ofTuples [tupleSlot 0 1 .purple [⟨0, 1⟩, ⟨1, 1⟩], tupleSlot 0 2 .purple [⟨2, 1⟩],
    tupleSlot 0 1 .purple [⟨1, 1⟩]] {0, 1, 2}

end Purpose

end Galfus.PrivateHeap
