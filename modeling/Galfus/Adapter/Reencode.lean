import Galfus.Adapter.Decode

/-! # Decoded values are accepted

A value that was read from a heap fits its schema, and it can be encoded at the same type; only
the quota of the heap can refuse it. Names that are repeated in the schema are left out, since a
field or a variant is looked up by its name.
-/

namespace Galfus

section Inversion

variable {g : VmObjectRef → Option HeapObject} {md : BytecodeModule} {vm : VmValue}
  {v : SurfaceValue} {ex : ℕ}

theorem decodeSurface_optional_ok {inner : SurfaceSchema}
    (h : decodeSurface g md (.optional inner) vm ex = .ok v) :
    ∃ i, md.types[ex]? = some (.nullable i) ∧
      (v = .null ∨ decodeSurface g md inner vm i = .ok v) := by
  rw [decodeSurface.eq_def] at h
  dsimp only at h
  split at h
  · cases h
  next ty hty =>
  split at h
  · cases h
    exact ⟨_, hty, .inl rfl⟩
  · exact ⟨_, hty, .inr h⟩
  · cases h

theorem decodeSurface_list_ok {inner : SurfaceSchema}
    (h : decodeSurface g md (.list inner) vm ex = .ok v) :
    ∃ i es values, md.types[ex]? = some (.array i) ∧
      decodeEach (fun e => decodeSurface g md inner e i) es = .ok values ∧
      v = .list values := by
  rw [decodeSurface.eq_def] at h
  dsimp only at h
  split at h
  · cases h
  next ty hty =>
  split at h
  · simp only [except_bind_eq_ok, Except.ok.injEq] at h
    obtain ⟨es, -, values, hv, rfl⟩ := h
    exact ⟨_, es, values, hty, hv, rfl⟩
  · cases h

theorem decodeSurface_tuple_ok {im : List SurfaceSchema}
    (h : decodeSurface g md (.tuple im) vm ex = .ok v) :
    ∃ i es values, md.types[ex]? = some (.tuple i) ∧ im.length = es.length ∧ es.length = i.length ∧
      decodeItems g md im es i = .ok values ∧ v = .tuple values := by
  rw [decodeSurface.eq_def] at h
  dsimp only at h
  split at h
  · cases h
  next ty hty =>
  split at h
  · obtain ⟨es, -, h⟩ := except_bind_eq_ok.mp h
    split at h
    · cases h
    next hl =>
    obtain ⟨values, hv, h⟩ := except_bind_eq_ok.mp h
    cases h
    exact ⟨_, es, values, hty, by omega, by omega, hv, rfl⟩
  · cases h

variable {name : String} {s : SurfaceSchema} {fs : List (String × SurfaceSchema)}
  {vl : List (String × SurfaceValue)}

theorem decodeSurface_struct_ok (h : decodeSurface g md (.struct name fs) vm ex = .ok v) :
    ∃ li l es vl, md.types[ex]? = some (.struct li) ∧
      md.structLayouts[li]? = some l ∧ fs.length = es.length ∧
      es.length = l.fields.length ∧
      decodeFields g md fs es l.fields = .ok vl ∧ v = .struct vl := by
  rw [decodeSurface.eq_def] at h
  dsimp only at h
  split at h
  · cases h
  next ty hty =>
  split at h
  · obtain ⟨es, -, h⟩ := except_bind_eq_ok.mp h
    split at h
    · cases h
    next l hl =>
    split at h
    · cases h
    next hln =>
    obtain ⟨vl, hv, h⟩ := except_bind_eq_ok.mp h
    cases h
    exact ⟨_, l, es, vl, hty, hl, by omega, by omega, hv, rfl⟩
  · cases h

theorem decodeSurface_choice_ok {vs : List (String × Option SurfaceSchema)}
    (h : decodeSurface g md (.choice name vs) vm ex = .ok v) :
    ∃ li m n p, md.types[ex]? = some (.choice li) ∧ decodeVariant g md m li n p n vs = .ok v := by
  rw [decodeSurface.eq_def] at h
  dsimp only at h
  split at h
  · cases h
  next ty hty =>
  split at h
  · obtain ⟨fn, -, h⟩ := except_bind_eq_ok.mp h
    exact ⟨_, _, fn.1, fn.2, hty, h⟩
  · cases h

theorem decodeEach_eq_ok {α : Type} {d : VmValue → Except DecodeError α}
    {es : List VmValue} {vl : List α} (h : decodeEach d es = .ok vl) :
    ∀ v ∈ vl, ∃ e, d e = .ok v := by
  induction es generalizing vl with
  | nil =>
    cases h
    nofun
  | cons e es ih =>
    simp only [decodeEach, except_bind_eq_ok, Except.ok.injEq] at h
    obtain ⟨v, hv, vs, hvs, rfl⟩ := h
    exact List.forall_mem_cons.mpr ⟨⟨e, hv⟩, ih hvs⟩

theorem decodeFields_names {es : List VmValue} {ls : List FieldLayout}
    {vl : List (String × SurfaceValue)} (hl : fs.length = es.length)
    (hl' : es.length = ls.length)
    (h : decodeFields g md fs es ls = .ok vl) :
    vl.map Prod.fst = fs.map Prod.fst := by
  induction fs generalizing es ls vl with
  | nil =>
    cases h
    rfl
  | cons fl fs ih =>
    obtain ⟨e, es, rfl⟩ := List.exists_cons_of_length_eq_add_one hl.symm
    obtain ⟨l, ls, rfl⟩ := List.exists_cons_of_length_eq_add_one hl'.symm
    simp only [decodeFields, except_bind_eq_ok, Except.ok.injEq] at h
    obtain ⟨v, -, vs, hvs, rfl⟩ := h
    rw [List.map_cons, List.map_cons, ih (by simpa using hl) (by simpa using hl') hvs]

end Inversion

theorem findField_eq_some {vl : SurfaceValue} (h : findField name values = some vl) :
    (name, vl) ∈ values := by
  obtain ⟨⟨n', v'⟩, hf, rfl⟩ := Option.map_eq_some_iff.mp h
  obtain rfl := beq_iff_eq.mp (List.find?_some hf :)
  exact List.mem_of_find?_eq_some hf

theorem findField_of_mem {vl : SurfaceValue} (hn : (values.map Prod.fst).Nodup)
    (hm : (name, vl) ∈ values) : findField name values = some vl := by
  have hs : (findField name values).isSome := by
    rw [findField, Option.isSome_map, List.find?_isSome]
    exact ⟨_, hm, beq_self_eq_true name⟩
  obtain ⟨v', hv'⟩ := Option.isSome_iff_exists.mp hs
  have heq := List.inj_on_of_nodup_map hn (findField_eq_some hv') hm rfl
  rw [hv', (Prod.mk.inj heq).2]

theorem forM_eq_ok {ε α : Type} {f : α → Except ε Unit} {xs : List α} :
    forM xs f = .ok () ↔ ∀ x ∈ xs, f x = .ok () := by
  induction xs with
  | nil => exact ⟨fun _ => nofun, fun _ => rfl⟩
  | cons x xs ih =>
    rw [List.forall_mem_cons, ← ih, List.forM_cons, except_seq_eq_ok]

namespace SurfaceSchema

variable {v : SurfaceValue}

attribute [local simp] validateValue

section Optional

variable {i : SurfaceSchema} {v : SurfaceValue}

theorem validateValue_optional (hv : v ≠ .null) :
    (optional i).validateValue v = i.validateValue v := by
  cases v <;> first | exact absurd rfl hv | simp

theorem arrange_optional (hv : v ≠ .null) : (optional i).arrange v = i.arrange v := by
  cases v <;> first | exact absurd rfl hv | simp [arrange]

theorem eachPart_optional {S : List (String × SurfaceSchema) → Prop}
    {C : String → List (String × Option SurfaceSchema) → Prop} (hv : v ≠ .null) :
    EachPart S C (optional i) v ↔ EachPart S C i v := by
  cases v <;> first | exact absurd rfl hv | simp [EachPart]

end Optional

theorem validateValue_list {inner : SurfaceSchema} : (list inner).validateValue v = .ok () ↔
      ∃ vs, v = .list vs ∧ ∀ x ∈ vs, inner.validateValue x = .ok () := by
  cases v <;> simp [forM_eq_ok]

theorem validateValue_tuple {i : List SurfaceSchema} : (tuple i).validateValue v = .ok () ↔
      ∃ vs, v = .tuple vs ∧ i.length = vs.length ∧ validateItems i vs = .ok () := by
  cases v <;> simp [except_guard_eq_ok]

theorem validateValue_struct : (struct name fields).validateValue v = .ok () ↔
      ∃ vs, v = .struct vs ∧ fields.length = vs.length ∧ validateFields fields vs = .ok () := by
  cases v <;> simp [except_guard_eq_ok]

theorem validateValue_choice {vs : List (String × Option SurfaceSchema)} :
    (choice name vs).validateValue v = .ok () ↔
      ∃ vr p, v = .choice vr p ∧ validateVariant vr p vs = .ok () := by
  cases v <;> simp

theorem validateFields_cons : validateFields ((name, schema) :: fields) values = .ok () ↔
      ∃ vl, findField name values = some vl ∧ schema.validateValue vl = .ok () ∧
        validateFields fields values = .ok () := by
  rw [validateFields]
  cases findField name values <;> simp [except_seq_eq_ok]

theorem validateItems_cons {ss : List SurfaceSchema} {vs : List SurfaceValue} :
    validateItems (schema :: ss) (v :: vs) = .ok () ↔
      schema.validateValue v = .ok () ∧ validateItems ss vs = .ok () := by
  simp [validateItems, except_seq_eq_ok]

end SurfaceSchema

namespace SurfaceTarget

open SurfaceSchema

variable {target : SurfaceTarget} {α β : Type} {x : Encoding α} {f : α → Encoding β}

/-- Only the quota of the heap makes the encoding fail. -/
def OnlyQuota (x : Encoding α) : Prop :=
  ∀ h e h', x h = some (.error e, h') → ∃ what, e = .heapQuota what

namespace OnlyQuota

theorem pure (a : α) : OnlyQuota (Pure.pure a) := by
  intro h e h' hr
  cases hr

theorem bind (hx : OnlyQuota x) (hf : ∀ a, OnlyQuota (f a)) : OnlyQuota (x >>= f) := by
  intro h e h' hr
  obtain ⟨⟨r, h₁⟩, hx', hr⟩ := Option.bind_eq_some_iff.mp hr
  cases r with
  | error e' =>
    cases hr
    exact hx h e _ hx'
  | ok a => exact hf a h₁ e h' hr

theorem alloc (w : String) (o : HeapObject) : OnlyQuota (target.alloc w o) := by
  intro h e h' hr
  obtain ⟨⟨h₁, rs⟩, -, heq⟩ := Option.map_eq_some_iff.mp hr
  cases rs with
  | ok r => cases heq
  | error e' =>
    cases heq
    exact ⟨w, rfl⟩

theorem expectFit {v : SurfaceValue} (h : schema.validateValue v = .ok ()) :
    OnlyQuota (expectFit schema v) := by
  rw [SurfaceTarget.expectFit, h]
  exact .pure ()

theorem typeAt_bind {expected : ℕ} {ty : BytecodeType} {f : BytecodeType → Encoding α}
    (hty : target.module.types[expected]? = some ty) (hf : OnlyQuota (f ty)) :
    OnlyQuota (target.typeAt expected >>= f) := by
  rw [typeAt, hty]
  exact hf

theorem each {e : SurfaceValue → Encoding VmValue} {values : List SurfaceValue}
    (h : ∀ v ∈ values, OnlyQuota (e v)) : OnlyQuota (encodeEach e values) := by
  induction values with
  | nil => exact .pure _
  | cons v values ih =>
    rw [List.forall_mem_cons] at h
    exact h.1.bind fun _ => (ih h.2).bind fun _ => .pure _

end OnlyQuota

/-- The value fits, and only the quota can refuse it. -/
structure Accepted (target : SurfaceTarget) (schema : SurfaceSchema) (v : SurfaceValue)
    (expected : ℕ) : Prop where
  fits : schema.validateValue v = .ok ()
  encoded : OnlyQuota (target.encodeSurface schema v expected)

theorem accepted_plain {get : VmObjectRef → Option HeapObject} {schema : SurfaceSchema}
    {vm : VmValue} {ty : BytecodeType} {v : SurfaceValue} {bindingId : ℕ}
    (hb : target.adapterBindingId = some bindingId)
    (h : decodePlain get target.module schema vm ty = .ok v) :
    schema.validateValue v = .ok () ∧ OnlyQuota (target.encodePlain schema v ty) := by
  unfold decodePlain at h
  split at h
  case h_1 | h_2 | h_3 | h_4 | h_5 | h_6 | h_7 | h_8 | h_9 =>
    cases h
    exact ⟨by simp [validateValue], .pure _⟩
  case h_10 =>
    rw [except_guard_eq_ok] at h
    simp only [except_bind_eq_ok, Except.ok.injEq] at h
    obtain ⟨hty, _, -, d, -, rfl⟩ := h
    refine ⟨by simp [validateValue], ?_⟩
    rw [encodePlain, if_pos hty]
    exact .alloc _ _
  case h_11 =>
    obtain ⟨hn, -, h⟩ := except_bind_eq_ok.mp h
    split at h
    · cases h
    next hty =>
    cases h
    refine ⟨by simp [validateValue], ?_⟩
    rw [encodePlain, if_pos (not_not.mp hty), hb]
    exact .alloc _ _
  case h_12 => cases h

variable {g : VmObjectRef → Option HeapObject} {bi : ℕ}

mutual

theorem accepted_of_decode (hb : target.adapterBindingId = some bi)
    (schema : SurfaceSchema) {vm : VmValue} {expected : ℕ} {v : SurfaceValue}
    (hd : EachPart FieldsOnce VariantOnce schema v)
    (h : decodeSurface g target.module schema vm expected = .ok v) :
    Accepted target schema v expected := by
  cases schema with
  | optional inner =>
    obtain ⟨t, hty, h⟩ := decodeSurface_optional_ok h
    by_cases hnl : v = .null
    · subst hnl
      have hft : (optional inner).validateValue .null = .ok () := by simp [validateValue]
      refine ⟨hft, ?_⟩
      exact (OnlyQuota.expectFit hft).bind fun _ => .typeAt_bind hty (.pure _)
    · have hir := accepted_of_decode hb inner ((eachPart_optional hnl).mp hd) (h.resolve_left hnl)
      have hft := (validateValue_optional hnl).trans hir.fits
      refine ⟨hft, ?_⟩
      refine (OnlyQuota.expectFit hft).bind fun _ => .typeAt_bind hty ?_
      cases v <;> first | exact absurd rfl hnl | exact hir.encoded
  | list inner =>
    obtain ⟨i, es, values, hty, hvl, rfl⟩ := decodeSurface_list_ok h
    rw [EachPart] at hd
    have hec : ∀ v ∈ values, Accepted target inner v i := by
      intro v hv
      obtain ⟨e, he⟩ := decodeEach_eq_ok hvl v hv
      exact accepted_of_decode hb inner (hd v hv) he
    have hft := validateValue_list.mpr ⟨values, rfl, fun v hv => (hec v hv).fits⟩
    refine ⟨hft, ?_⟩
    refine (OnlyQuota.expectFit hft).bind fun _ => .typeAt_bind hty ?_
    exact (OnlyQuota.each fun v hv => (hec v hv).encoded).bind fun _ => .alloc _ _
  | tuple im =>
    obtain ⟨itemTys, es, values, hty, hle, hln', hvl, rfl⟩ := decodeSurface_tuple_ok h
    rw [EachPart] at hd
    obtain ⟨hln, hit, hen⟩ := acceptedItems_of_decode hb im hd hle hln' hvl
    have hft := validateValue_tuple.mpr ⟨values, rfl, hln.symm, hit⟩
    refine ⟨hft, ?_⟩
    refine (OnlyQuota.expectFit hft).bind fun _ => .typeAt_bind hty ?_
    dsimp only
    rw [if_pos ⟨hln.symm, by omega⟩]
    exact hen.bind fun _ => .alloc _ _
  | struct name fields =>
    obtain ⟨li, l, es, values, hty, hly, hle, hln', hvl, rfl⟩ :=
      decodeSurface_struct_ok h
    rw [EachPart] at hd
    have hnm := decodeFields_names hle hln' hvl
    have hln : fields.length = values.length := by
      simpa using (congrArg List.length hnm).symm
    obtain ⟨hfl, hen⟩ := acceptedFields_of_decode hb fields hd.2 hle hln'
      (fun p hp => findField_of_mem (hnm ▸ hd.1) hp) hvl
    have hft : (struct name fields).validateValue (.struct values) = .ok () :=
      validateValue_struct.mpr ⟨values, rfl, hln, hfl⟩
    refine ⟨hft, ?_⟩
    refine (OnlyQuota.expectFit hft).bind fun _ => .typeAt_bind hty ?_
    dsimp only
    rw [hly]
    dsimp only
    rw [if_neg (by omega)]
    exact hen.bind fun _ => .alloc _ _
  | choice name vs =>
    obtain ⟨li, m, n, py, hty, hvr⟩ := decodeSurface_choice_ok h
    obtain ⟨vr, -, p, rfl, -⟩ := decodeVariant_eq_ok hvr
    rw [EachPart] at hd
    obtain ⟨hva, hen⟩ := acceptedVariant_of_decode hb vs 0 hd.1 hd.2
      (by rwa [Nat.zero_add])
    have hft : (choice name vs).validateValue (.choice vr p) = .ok () :=
      validateValue_choice.mpr ⟨vr, p, rfl, hva⟩
    refine ⟨hft, ?_⟩
    exact (OnlyQuota.expectFit hft).bind fun _ => .typeAt_bind hty (hen _)
  | _ =>
    rw [decodeSurface.eq_def] at h
    dsimp only at h
    split at h
    · cases h
    next ty hty =>
    obtain ⟨hft, hen⟩ := accepted_plain hb h
    refine ⟨hft, ?_⟩
    exact (OnlyQuota.expectFit hft).bind fun _ => .typeAt_bind hty hen

theorem acceptedItems_of_decode (hb : target.adapterBindingId = some bi)
    (ss : List SurfaceSchema) {es : List VmValue} {i : List ℕ}
    {values : List SurfaceValue} (hd : EachItem FieldsOnce VariantOnce ss values)
    (hle : ss.length = es.length) (hln' : es.length = i.length)
    (h : decodeItems g target.module ss es i = .ok values) :
    values.length = ss.length ∧ validateItems ss values = .ok () ∧
      OnlyQuota (target.encodeItems ss values i) := by
  cases ss with
  | nil =>
    cases h
    refine ⟨rfl, by simp [validateItems], ?_⟩
    exact .pure _
  | cons schema ss =>
    obtain ⟨e, es, rfl⟩ := List.exists_cons_of_length_eq_add_one hle.symm
    obtain ⟨t, i, rfl⟩ := List.exists_cons_of_length_eq_add_one hln'.symm
    simp only [decodeItems, except_bind_eq_ok, Except.ok.injEq] at h
    obtain ⟨v, hv, vs, hvs, rfl⟩ := h
    rw [EachItem] at hd
    have hfr := accepted_of_decode hb schema hd.1 hv
    obtain ⟨hln, hit, hen⟩ := acceptedItems_of_decode hb ss hd.2
      (by simpa using hle) (by simpa using hln') hvs
    refine ⟨congrArg (· + 1) hln, validateItems_cons.mpr ⟨hfr.fits, hit⟩, ?_⟩
    exact hfr.encoded.bind fun _ => hen.bind fun _ => .pure _

theorem acceptedFields_of_decode (hb : target.adapterBindingId = some bi)
    (fields : List (String × SurfaceSchema)) {es : List VmValue}
    {ls : List FieldLayout} {vs values : List (String × SurfaceValue)}
    (hd : EachField FieldsOnce VariantOnce values fields) (hln : fields.length = es.length)
    (hln' : es.length = ls.length)
    (hfn : ∀ p ∈ vs, findField p.1 values = some p.2)
    (h : decodeFields g target.module fields es ls = .ok vs) :
    validateFields fields values = .ok () ∧ OnlyQuota (target.encodeFields fields values ls) := by
  cases fields with
  | nil =>
    refine ⟨by simp [validateFields], ?_⟩
    exact .pure _
  | cons fl fields =>
    obtain ⟨name, schema⟩ := fl
    obtain ⟨e, es, rfl⟩ := List.exists_cons_of_length_eq_add_one hln.symm
    obtain ⟨l, ls, rfl⟩ := List.exists_cons_of_length_eq_add_one hln'.symm
    simp only [decodeFields, except_bind_eq_ok, Except.ok.injEq] at h
    obtain ⟨v, hv, vs, hvs, rfl⟩ := h
    rw [List.forall_mem_cons] at hfn
    rw [EachField] at hd
    have hfr := accepted_of_decode hb schema (hd.1 v hfn.1) hv
    obtain ⟨hfl, hen⟩ := acceptedFields_of_decode hb fields hd.2
      (by simpa using hln) (by simpa using hln') hfn.2 hvs
    refine ⟨validateFields_cons.mpr ⟨v, hfn.1, hfr.fits, hfl⟩, ?_⟩
    rw [encodeFields, hfn.1]
    exact hfr.encoded.bind fun _ => hen.bind fun _ => .pure _

theorem acceptedVariant_of_decode (hb : target.adapterBindingId = some bi)
    (vs : List (String × Option SurfaceSchema)) {m : DecodeError} {li : ℕ}
    (i : ℕ) {n : ℕ} {py : VmValue} {vr : String} {p : Option SurfaceValue}
    (hn : VariantOnce vr vs) (hd : PayloadPart FieldsOnce VariantOnce vr p vs)
    (h : decodeVariant g target.module m li (i + n) py n vs = .ok (.choice vr p)) :
    validateVariant vr p vs = .ok () ∧ ∀ e, OnlyQuota (target.encodeVariant e li vr p i vs) := by
  cases vs with
  | nil =>
    cases h
  | cons first vs =>
    obtain ⟨name, schema⟩ := first
    rw [VariantOnce, List.map_cons, List.count_cons] at hn
    rw [PayloadPart.eq_def] at hd
    dsimp only at hd
    cases n with
    | succ n =>
      rw [decodeVariant, Nat.add_comm n 1, ← Nat.add_assoc] at h
      obtain ⟨_, _, _, heq, hmm⟩ := decodeVariant_eq_ok h
      cases heq
      have hne : ¬ (name == vr) = true := by
        intro hnm
        have hpos := List.count_pos_iff.mpr
          (List.mem_map.mpr ⟨_, List.mem_of_getElem? hmm, rfl⟩ : vr ∈ vs.map Prod.fst)
        rw [if_pos hnm] at hn
        omega
      rw [if_neg hne] at hn hd
      obtain ⟨hvl, hen⟩ := acceptedVariant_of_decode hb vs (i + 1) hn hd h
      rw [validateVariant.eq_def]
      dsimp only
      rw [if_neg hne]
      refine ⟨hvl, fun e => ?_⟩
      rw [encodeVariant, if_neg hne]
      exact hen e
    | zero =>
      rw [decodeVariant, Nat.add_zero] at h
      split at h
      · cases h
      next layout hly =>
      split at h
      · cases h
      next variantLayout hvr =>
      cases schema with
      | none =>
        split at h
        · next hty =>
          cases h
          refine ⟨by simp [validateVariant], fun e => ?_⟩
          rw [encodeVariant, if_pos (beq_self_eq_true vr), hly]
          dsimp only
          rw [hvr]
          dsimp only
          rw [hty]
          exact (OnlyQuota.pure _).bind fun _ => .alloc _ _
        · next heq _ => cases heq
        · cases h
      | some schema =>
        split at h
        · next heq _ => cases heq
        · next payloadTy heq hty =>
          cases heq
          obtain ⟨v, hv, h⟩ := except_bind_eq_ok.mp h
          cases h
          rw [if_pos (beq_self_eq_true vr)] at hd
          have hpy := accepted_of_decode hb schema hd hv
          refine ⟨by simp [validateVariant, hpy.fits], fun e => ?_⟩
          rw [encodeVariant, if_pos (beq_self_eq_true vr), hly]
          dsimp only
          rw [hvr]
          dsimp only
          rw [hty]
          exact hpy.encoded.bind fun _ => .alloc _ _
        · cases h

end

end SurfaceTarget

end Galfus
