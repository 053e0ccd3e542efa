import Galfus.Adapter.Reencode

/-! # Values in the order of their schema

A struct is written field by field in the order of its schema, each field by its name. If no struct
repeats a field name, this is a reordering of the value, and the only one.
-/

namespace Galfus.SurfaceSchema

mutual

/-- The second value is the first with the fields of its structs in the order of the schema and
with normalised floating-point numbers. -/
def Reorders : SurfaceSchema → SurfaceValue → SurfaceValue → Prop
  | optional inner, v, w =>
    match v with
    | .null => w = .null
    | v => Reorders inner v w
  | list inner, v, w =>
    match v, w with
    | .list vs, .list ws => List.Forall₂ (Reorders inner) vs ws
    | _, _ => False
  | tuple items, v, w =>
    match v, w with
    | .tuple vs, .tuple ws => ItemsReorder items vs ws
    | _, _ => False
  | struct _ fields, v, w =>
    match v, w with
    | .struct vs, .struct ws => ∃ us, us.Perm vs ∧ FieldsReorder fields us ws
    | _, _ => False
  | choice _ variants, v, w =>
    match v, w with
    | .choice n p, .choice n' q => n' = n ∧ PayloadReorders n p q variants
    | _, _ => False
  | f32, v, w =>
    match v with
    | .f32 x => w = .f32 (normalizeF32 x)
    | _ => False
  | f64, v, w =>
    match v with
    | .f64 x => w = .f64 (normalizeF64 x)
    | _ => False
  | _, v, w => w = v

def ItemsReorder : List SurfaceSchema → List SurfaceValue → List SurfaceValue → Prop
  | [], vs, ws => vs = [] ∧ ws = []
  | s :: ss, v :: vs, w :: ws => Reorders s v w ∧ ItemsReorder ss vs ws
  | _, _, _ => False

def FieldsReorder : List (String × SurfaceSchema) → List (String × SurfaceValue) →
    List (String × SurfaceValue) → Prop
  | [], us, ws => us = [] ∧ ws = []
  | (n, s) :: fs, (n', u) :: us, (n'', w) :: ws =>
    n' = n ∧ n'' = n ∧ Reorders s u w ∧ FieldsReorder fs us ws
  | _, _, _ => False

def PayloadReorders (variant : String) (p q : Option SurfaceValue) :
    List (String × Option SurfaceSchema) → Prop
  | [] => False
  | (n, s) :: variants =>
    if n == variant then
      match s, p, q with
      | none, none, none => True
      | some s, some v, some w => Reorders s v w
      | _, _, _ => False
    else PayloadReorders variant p q variants

end

section Fields

variable {n : String} {s : SurfaceSchema} {fs : List (String × SurfaceSchema)}
  {us vs ws : List (String × SurfaceValue)}

theorem fieldsReorder_cons : FieldsReorder ((n, s) :: fs) us ws ↔
    ∃ u us' w ws', us = (n, u) :: us' ∧ ws = (n, w) :: ws' ∧ s.Reorders u w ∧
      FieldsReorder fs us' ws' := by
  constructor
  · intro h
    rcases us with _ | ⟨⟨n', u⟩, us⟩
    · exact h.elim
    rcases ws with _ | ⟨⟨n'', w⟩, ws⟩
    · exact h.elim
    obtain ⟨rfl, rfl, hr, hrs⟩ := h
    exact ⟨u, us, w, ws, rfl, rfl, hr, hrs⟩
  · rintro ⟨u, us, w, ws, rfl, rfl, hr, hrs⟩
    exact ⟨rfl, rfl, hr, hrs⟩

theorem fieldsReorder_names (h : FieldsReorder fs us ws) : us.map Prod.fst = fs.map Prod.fst := by
  induction fs generalizing us ws with
  | nil => rw [h.1, List.map_nil, List.map_nil]
  | cons f fs ih =>
    obtain ⟨u, us, w, ws, rfl, rfl, -, hr⟩ := fieldsReorder_cons.mp h
    rw [List.map_cons, List.map_cons, ih hr]

/-- The first value of each name of the schema. -/
def taken (vs : List (String × SurfaceValue)) (fs : List (String × SurfaceSchema)) :
    List (String × SurfaceValue) :=
  fs.filterMap fun f => (findField f.1 vs).map (f.1, ·)

theorem taken_cons {v : SurfaceValue} (h : findField n vs = some v) :
    taken vs ((n, s) :: fs) = (n, v) :: taken vs fs := by
  simp [taken, h]

theorem taken_names (h : validateFields fs vs = .ok ()) :
    (taken vs fs).map Prod.fst = fs.map Prod.fst := by
  induction fs with
  | nil => rfl
  | cons f fs ih =>
    obtain ⟨v, hf, -, hr⟩ := validateFields_cons.mp h
    rw [taken_cons hf, List.map_cons, List.map_cons, ih hr]

/-- If the names of the schema are distinct and all are found, every value is taken once. -/
theorem taken_perm (hn : FieldsOnce fs) (hl : fs.length = vs.length)
    (h : validateFields fs vs = .ok ()) : (taken vs fs).Perm vs := by
  have hnm := taken_names h
  have hs : taken vs fs ⊆ vs := by
    intro p hp
    obtain ⟨f, -, hf⟩ := List.mem_filterMap.mp hp
    obtain ⟨v, hv, rfl⟩ := Option.map_eq_some_iff.mp hf
    exact findField_eq_some hv
  have hd : (taken vs fs).Nodup := .of_map Prod.fst (hnm ▸ hn)
  refine (List.subperm_of_subset hd hs).perm_of_length_le ?_
  have := congrArg List.length hnm
  simp only [List.length_map] at this
  omega

end Fields

mutual

theorem eq_arrange (s : SurfaceSchema) {v w : SurfaceValue} (hd : s.DistinctFields v)
    (h : s.Reorders v w) : w = s.arrange v := by
  cases s with
  | optional s =>
    by_cases hv : v = .null
    · subst hv
      simpa [Reorders, arrange] using h
    · rw [arrange_optional hv]
      refine eq_arrange s ((eachPart_optional hv).mp hd) ?_
      cases v <;> first | exact absurd rfl hv | simpa [Reorders] using h
  | list s =>
    cases v <;> cases w <;> simp only [Reorders] at h
    next vs ws =>
      rw [DistinctFields, EachPart] at hd
      have : ws = vs.map s.arrange := by
        induction h with
        | nil => rfl
        | cons hr _ ih =>
          rw [List.forall_mem_cons] at hd
          rw [List.map_cons, ← ih hd.2, ← eq_arrange s hd.1 hr]
      simp [arrange, this]
  | tuple ss =>
    cases v <;> cases w <;> simp only [Reorders] at h
    rw [DistinctFields, EachPart] at hd
    simp [arrange, eq_arrangeItems ss hd h]
  | struct n fs =>
    cases v <;> cases w <;> simp only [Reorders] at h
    next vs ws =>
      rw [DistinctFields, EachPart] at hd
      obtain ⟨us, hp, hf⟩ := h
      have hn : (vs.map Prod.fst).Nodup := by
        rw [← (hp.map Prod.fst).nodup_iff, fieldsReorder_names hf]
        exact hd.1
      simp [arrange, eq_arrangeFields fs hd.2
        (fun p hm => findField_of_mem hn (hp.subset hm)) hf]
  | choice n vs =>
    cases v <;> cases w <;> simp only [Reorders] at h
    rw [DistinctFields, EachPart] at hd
    simp [arrange, h.1, eq_arrangePayload vs hd.2 h.2]
  | _ => cases v <;> simp_all [Reorders, arrange]

theorem eq_arrangeItems (ss : List SurfaceSchema) {vs ws : List SurfaceValue}
    (hd : EachItem FieldsOnce (fun _ _ => True) ss vs) (h : ItemsReorder ss vs ws) :
    ws = arrangeItems ss vs := by
  cases ss with
  | nil => simp [arrangeItems, h.2]
  | cons s ss =>
    cases vs <;> cases ws <;> simp only [ItemsReorder] at h
    rw [EachItem] at hd
    rw [arrangeItems, ← eq_arrange s hd.1 h.1, ← eq_arrangeItems ss hd.2 h.2]

theorem eq_arrangeFields (fs : List (String × SurfaceSchema))
    {us vs ws : List (String × SurfaceValue)}
    (hd : EachField FieldsOnce (fun _ _ => True) vs fs)
    (hfn : ∀ p ∈ us, findField p.1 vs = some p.2) (h : FieldsReorder fs us ws) :
    ws = arrangeFields fs vs := by
  cases fs with
  | nil => simp [arrangeFields, h.2]
  | cons f fs =>
    obtain ⟨n, s⟩ := f
    obtain ⟨u, us, w, ws, rfl, rfl, hr, hrs⟩ := fieldsReorder_cons.mp h
    rw [EachField] at hd
    rw [List.forall_mem_cons] at hfn
    rw [arrangeFields, hfn.1]
    dsimp only
    rw [← eq_arrange s (hd.1 u hfn.1) hr, ← eq_arrangeFields fs hd.2 hfn.2 hrs]

theorem eq_arrangePayload (variants : List (String × Option SurfaceSchema)) {variant : String}
    {p q : Option SurfaceValue} (hd : PayloadPart FieldsOnce (fun _ _ => True) variant p variants)
    (h : PayloadReorders variant p q variants) : q = arrangePayload variant p variants := by
  cases variants with
  | nil => exact h.elim
  | cons f variants =>
    obtain ⟨n, s⟩ := f
    rw [PayloadPart.eq_def] at hd
    rw [PayloadReorders.eq_def] at h
    rw [arrangePayload.eq_def]
    dsimp only at hd h ⊢
    split at h
    · next hn =>
      rw [if_pos hn] at hd ⊢
      cases s <;> cases p <;> cases q <;> simp only at h
      · rfl
      · exact congrArg some (eq_arrange _ hd h)
    · next hn =>
      rw [if_neg hn] at hd ⊢
      exact eq_arrangePayload variants hd h

end

mutual

theorem reorders_arrange (s : SurfaceSchema) {v : SurfaceValue} (hd : s.DistinctFields v)
    (h : s.validateValue v = .ok ()) : s.Reorders v (s.arrange v) := by
  cases s with
  | optional s =>
    by_cases hv : v = .null
    · subst hv
      simp [Reorders, arrange]
    · rw [arrange_optional hv]
      have := reorders_arrange s ((eachPart_optional hv).mp hd)
        ((validateValue_optional hv).symm.trans h)
      cases v <;> first | exact absurd rfl hv | simpa [Reorders] using this
  | list s =>
    obtain ⟨vs, rfl, hvs⟩ := validateValue_list.mp h
    rw [DistinctFields, EachPart] at hd
    rw [arrange, Reorders, List.forall₂_map_right_iff, List.forall₂_same]
    exact fun v hv => reorders_arrange s (hd v hv) (hvs v hv)
  | tuple ss =>
    obtain ⟨vs, rfl, hl, hvs⟩ := validateValue_tuple.mp h
    rw [DistinctFields, EachPart] at hd
    rw [arrange, Reorders]
    exact reorders_arrangeItems ss hd hl hvs
  | struct n fs =>
    obtain ⟨vs, rfl, hl, hvs⟩ := validateValue_struct.mp h
    rw [DistinctFields, EachPart] at hd
    rw [arrange, Reorders]
    exact ⟨taken vs fs, taken_perm hd.1 hl hvs, reorders_arrangeFields fs hd.2 hvs⟩
  | choice n vs =>
    obtain ⟨vr, p, rfl, hvs⟩ := validateValue_choice.mp h
    rw [DistinctFields, EachPart] at hd
    rw [arrange, Reorders]
    exact ⟨rfl, reorders_arrangePayload vs hd.2 hvs⟩
  | _ => cases v <;> simp_all [Reorders, arrange, validateValue]

theorem reorders_arrangeItems (ss : List SurfaceSchema) {vs : List SurfaceValue}
    (hd : EachItem FieldsOnce (fun _ _ => True) ss vs) (hl : ss.length = vs.length)
    (h : validateItems ss vs = .ok ()) : ItemsReorder ss vs (arrangeItems ss vs) := by
  cases ss with
  | nil => exact ⟨List.length_eq_zero_iff.mp hl.symm, by simp [arrangeItems]⟩
  | cons s ss =>
    obtain ⟨v, vs, rfl⟩ := List.exists_cons_of_length_eq_add_one hl.symm
    rw [EachItem] at hd
    rw [validateItems_cons] at h
    rw [arrangeItems, ItemsReorder]
    exact ⟨reorders_arrange s hd.1 h.1, reorders_arrangeItems ss hd.2 (by simpa using hl) h.2⟩

theorem reorders_arrangeFields (fs : List (String × SurfaceSchema))
    {vs : List (String × SurfaceValue)} (hd : EachField FieldsOnce (fun _ _ => True) vs fs)
    (h : validateFields fs vs = .ok ()) :
    FieldsReorder fs (taken vs fs) (arrangeFields fs vs) := by
  cases fs with
  | nil => exact ⟨rfl, by simp [arrangeFields]⟩
  | cons f fs =>
    obtain ⟨n, s⟩ := f
    obtain ⟨v, hf, hv, hr⟩ := validateFields_cons.mp h
    rw [EachField] at hd
    rw [taken_cons hf, arrangeFields, hf]
    exact ⟨rfl, rfl, reorders_arrange s (hd.1 v hf) hv, reorders_arrangeFields fs hd.2 hr⟩

theorem reorders_arrangePayload (variants : List (String × Option SurfaceSchema))
    {variant : String} {p : Option SurfaceValue}
    (hd : PayloadPart FieldsOnce (fun _ _ => True) variant p variants)
    (h : validateVariant variant p variants = .ok ()) :
    PayloadReorders variant p (arrangePayload variant p variants) variants := by
  cases variants with
  | nil => simp [validateVariant] at h
  | cons f variants =>
    obtain ⟨n, s⟩ := f
    rw [PayloadPart.eq_def] at hd
    rw [validateVariant.eq_def] at h
    rw [arrangePayload.eq_def, PayloadReorders.eq_def]
    dsimp only at hd h ⊢
    split at h
    · next hn =>
      rw [if_pos hn] at hd ⊢
      rw [if_pos hn]
      cases s <;> cases p <;> simp only [reduceCtorEq] at h ⊢
      exact reorders_arrange _ hd h
    · next hn =>
      rw [if_neg hn] at hd ⊢
      rw [if_neg hn]
      exact reorders_arrangePayload variants hd h

end

end Galfus.SurfaceSchema
