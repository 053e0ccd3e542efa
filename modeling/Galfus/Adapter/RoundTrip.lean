import Galfus.Adapter.Reorder
import Galfus.Adapter.Written

/-! # Surface values come back

What an encoding writes is read back as the value it was given, with the fields of the structs
in the order of the schema and normalised floats. Fields and variants are looked up by name, so
the schema may not repeat one; and the index of a variant is kept in 16 bits, so a choice has
to be among the first `2 ^ 16` variants.
-/

namespace Galfus

open HeapObject (array? choice? handle? slots struct? tuple?)

theorem normalizeF32_idem (x : BitVec 32) : normalizeF32 (normalizeF32 x) = normalizeF32 x := by
  unfold normalizeF32
  grind

theorem normalizeF64_idem (x : BitVec 64) : normalizeF64 (normalizeF64 x) = normalizeF64 x := by
  unfold normalizeF64
  grind

namespace SurfaceTarget

open SurfaceSchema

variable {target : SurfaceTarget} {schema : Option SurfaceSchema} {vm : VmValue} {h : PrivateHeap}
  {payload : Option SurfaceValue} {pre variants : List (String × Option SurfaceSchema)}

/-- The values are held, and what is said of reading them back is true. -/
structure WrittenAll (elements : List VmValue) (p : (VmObjectRef → Option HeapObject) → Prop)
    (h : PrivateHeap) : Prop where
  held : ∀ e ∈ elements, Holds h e
  agrees : ∀ get, Reads h get → p get

/-- The value is the written form of a surface value. -/
structure Written (target : SurfaceTarget) (schema : SurfaceSchema) (value : SurfaceValue)
    (expected : ℕ) (vm : VmValue) (h : PrivateHeap) : Prop where
  held : Holds h vm
  null : vm = .null → value = .null
  agrees : ∀ get, Reads h get →
    (decodeSurface get target.module schema vm expected = .ok (schema.arrange value) ↔
      schema.InRange value)

theorem persistent_writtenAll {elements : List VmValue}
    {p : (VmObjectRef → Option HeapObject) → Prop} : Persistent (WrittenAll elements p) :=
  fun h h' hk hw =>
    ⟨fun e he => persistent_holds e h h' hk (hw.held e he), persistent_reads h h' hk hw.agrees⟩

theorem persistent_written {schema : SurfaceSchema} {v : SurfaceValue} {expected : ℕ} :
    Persistent (Written target schema v expected vm) :=
  fun h h' hk hw =>
    ⟨persistent_holds vm h h' hk hw.held, hw.null, persistent_reads h h' hk hw.agrees⟩

theorem holds_plain (hvm : vm.objectRef? = none) : Holds h vm := by
  rintro r rfl
  cases hvm

theorem holds_of_anchored {r : VmObjectRef} {o : HeapObject} (ha : h.Anchored r o) :
    Holds h (.object r) := by
  rintro _ ⟨⟩
  exact ⟨o, ha⟩

theorem decodeEach_bytes (ms : DecodeError) (d : List (BitVec 8)) :
    decodeEach (decodeByte ms) (d.map VmValue.uint8) = .ok d := by
  induction d with
  | nil => rfl
  | cons x d ih => exact decodeEach_cons_eq_ok.mpr ⟨rfl, ih⟩

theorem encodes_encodePlain (schema : SurfaceSchema) (vl : SurfaceValue) (ty : BytecodeType) :
    Encodes (fun _ => True) (target.encodePlain schema vl ty) fun vm h =>
      Holds h vm ∧ (vm = .null → vl = .null) ∧ ∀ g, Reads h g →
        decodePlain g target.module schema vm ty = .ok (schema.arrange vl) := by
  unfold encodePlain
  split
  case h_1 | h_2 | h_3 | h_4 | h_5 | h_6 | h_7 =>
    refine .pure fun s _ => ⟨holds_plain rfl, ?_, fun g _ => ?_⟩
    · simp
    · simp [decodePlain, arrange]
  case h_8 | h_9 =>
    refine .pure fun s _ => ⟨holds_plain rfl, by simp, fun g _ => ?_⟩
    simp [decodePlain, arrange, normalizeF32_idem, normalizeF64_idem]
  case h_10 data elementTy =>
    split
    · next hty =>
      apply encodes_object _ (F := fun _ => True) (fun _ _ _ h => h)
      · intro s _ v hv
        simp only [slots, RVec.exact, List.mem_map] at hv
        obtain ⟨x, -, rfl⟩ := hv
        exact holds_plain rfl
      · intro r s ha _
        refine ⟨holds_of_anchored ha, by simp, fun g hgt => ?_⟩
        rw [decodePlain, if_pos hty, readAs_bind array? (hgt r _ ha) rfl]
        exact except_bind_eq_ok.mpr ⟨data, decodeEach_bytes _ data, by simp [arrange]⟩
    · exact .throw _
  case h_11 name handle typeId =>
    split
    · next heq =>
      split
      · exact .throw _
      · apply encodes_object _ (F := fun _ => True) (fun _ _ _ h => h)
        · intro s _ v hv
          simp only [slots, List.not_mem_nil] at hv
        · intro r s ha _
          refine ⟨holds_of_anchored ha, by simp, fun g hgt => ?_⟩
          rw [decodePlain, readAs_bind handle? (hgt r _ ha) rfl]
          simp [arrange, ← heq]
    · exact .throw _
  case h_12 => exact .throw _

theorem encodes_encodeEach {schema : SurfaceSchema} {i : ℕ} {vs : List SurfaceValue}
    (hen : ∀ vl ∈ vs, Encodes (fun _ => True) (target.encodeSurface schema vl i)
      (Written target schema vl i)) :
    Encodes (fun _ => True) (encodeEach (fun vl => target.encodeSurface schema vl i) vs)
      fun elements => WrittenAll elements fun g =>
        decodeEach (fun e => decodeSurface g target.module schema e i) elements =
            .ok (vs.map schema.arrange) ↔ ∀ vl ∈ vs, schema.InRange vl := by
  induction vs with
  | nil =>
    refine .pure fun s _ => ⟨by simp, fun g _ => ?_⟩
    simp [decodeEach]
  | cons vl vs ih =>
    apply (hen vl List.mem_cons_self).bind
    intro e
    apply Encodes.bind (((ih fun v hv => hen v (List.mem_cons_of_mem _ hv)).frame
      persistent_written).conseq (fun s hs => ⟨trivial, hs⟩) fun _ _ h => h)
    intro es
    refine .pure fun s hs => ⟨List.forall_mem_cons.mpr ⟨hs.2.held, hs.1.held⟩, ?_⟩
    obtain ⟨hes, he⟩ := hs
    intro g hgt
    rw [List.map_cons, decodeEach_cons_eq_ok, List.forall_mem_cons, he.agrees g hgt,
      hes.agrees g hgt]

section Objects

variable {h : PrivateHeap} {r : VmObjectRef} {m ex : ℕ} {es : List VmValue}

theorem written_optional {ir : SurfaceSchema} {v : SurfaceValue} {i : ℕ}
    {vm : VmValue} (hty : target.module.types[ex]? = some (.nullable i))
    (hn : v ≠ .null) (hw : Written target ir v i vm h) :
    Written target (.optional ir) v ex vm h := by
  have hvm : vm ≠ .null := fun h => hn (hw.null h)
  refine ⟨hw.held, hw.null, fun g hg => ?_⟩
  have hd : decodeSurface g target.module (.optional ir) vm ex =
      decodeSurface g target.module ir vm i := by
    rw [decodeSurface.eq_def]
    dsimp only
    rw [hty]
    cases vm <;> first | exact absurd rfl hvm | rfl
  rw [arrange_optional hn, InRange, eachPart_optional hn, hd, hw.agrees g hg]

theorem written_list {i : SurfaceSchema} {vs : List SurfaceValue} {t : ℕ}
    (hty : target.module.types[ex]? = some (.array t))
    (ha : h.Anchored r (.array m t (.grown target.growth es)))
    (hw : WrittenAll es (fun g =>
      decodeEach (fun e => decodeSurface g target.module i e t) es =
        .ok (vs.map i.arrange) ↔ ∀ v ∈ vs, i.InRange v) h) :
    Written target (.list i) (.list vs) ex (.object r) h := by
  refine ⟨holds_of_anchored ha, nofun, fun g hg => ?_⟩
  rw [decodeSurface.eq_def]
  dsimp only
  rw [hty]
  dsimp only
  rw [readAs_bind array? (hg r _ ha) rfl, arrange, InRange, EachPart, ← hw.agrees g hg]
  exact except_map_eq_ok fun _ _ => SurfaceValue.list.inj

theorem written_tuple {i : List SurfaceSchema} {vs : List SurfaceValue} {t : List ℕ}
    (hty : target.module.types[ex]? = some (.tuple t))
    (ha : h.Anchored r (.tuple (.grown target.growth es)))
    (hl : i.length = es.length ∧ es.length = t.length)
    (hw : WrittenAll es (fun g =>
      decodeItems g target.module i es t = .ok (arrangeItems i vs) ↔ ItemsInRange i vs) h) :
    Written target (.tuple i) (.tuple vs) ex (.object r) h := by
  refine ⟨holds_of_anchored ha, nofun, fun g hg => ?_⟩
  rw [decodeSurface.eq_def]
  dsimp only
  rw [hty]
  dsimp only
  rw [readAs_bind tuple? (hg r _ ha) rfl, arrange, InRange, EachPart, ← ItemsInRange,
    ← hw.agrees g hg, RVec.grown_data, if_neg (by omega)]
  exact except_map_eq_ok fun _ _ => SurfaceValue.tuple.inj

theorem written_struct {n : String} {fs : List (String × SurfaceSchema)}
    {vs : List (String × SurfaceValue)} {li : ℕ} {l : StructLayout}
    (hty : target.module.types[ex]? = some (.struct li))
    (hl : target.module.structLayouts[li]? = some l)
    (ha : h.Anchored r (.struct m li (.grown target.growth es)))
    (hln : fs.length = es.length ∧ es.length = l.fields.length)
    (hw : WrittenAll es (fun g =>
      decodeFields g target.module fs es l.fields =
        .ok (arrangeFields fs vs) ↔ FieldsInRange vs fs) h) :
    Written target (.struct n fs) (.struct vs) ex (.object r) h := by
  refine ⟨holds_of_anchored ha, nofun, fun g hg => ?_⟩
  rw [decodeSurface.eq_def]
  dsimp only
  rw [hty]
  dsimp only
  rw [readAs_bind struct? (hg r _ ha) rfl, hl, arrange, InRange, EachPart, true_and,
    ← FieldsInRange, ← hw.agrees g hg, RVec.grown_data]
  dsimp only
  rw [if_neg (by omega)]
  exact except_map_eq_ok fun _ _ => SurfaceValue.struct.inj

end Objects

/-- The written form of a choice whose variant is not among the first ones. -/
structure WrittenVariant (target : SurfaceTarget) (layoutIdx : ℕ) (variant : String)
    (payload : Option SurfaceValue) (pre variants : List (String × Option SurfaceSchema))
    (r : VmObjectRef) (h : PrivateHeap) : Prop where
  held : Holds h (.object r)
  agrees : ∀ get, Reads h get → ∀ what mismatch,
    ((readAs get choice? what mismatch r >>= fun found =>
        decodeVariant get target.module mismatch layoutIdx found.1 found.2 found.1
          (pre ++ variants)) = .ok (.choice variant (arrangePayload variant payload variants)) ↔
      VariantInRange pre.length variant variants ∧
        PayloadPart (fun _ => True) (VariantInRange 0) variant payload variants)

structure WrittenPayload (target : SurfaceTarget) (schema : Option SurfaceSchema)
    (payloadTy : Option ℕ) (payload : Option SurfaceValue) (vm : VmValue) (h : PrivateHeap) :
    Prop where
  held : Holds h vm
  shape : schema.isSome = payload.isSome ∧ payloadTy.isSome = payload.isSome
  agrees : ∀ s ty v, schema = some s → payloadTy = some ty → payload = some v →
    Written target s v ty vm h

theorem persistent_writtenPayload {pt : Option ℕ} :
    Persistent (WrittenPayload target schema pt payload vm) :=
  fun h h' hk hw => ⟨persistent_holds vm h h' hk hw.held, hw.shape, fun s ty v hs ht hv =>
    persistent_written h h' hk (hw.agrees s ty v hs ht hv)⟩

theorem written_variant {li : ℕ} {l : ChoiceLayout}
    {vl : ChoiceVariantLayout} {n : String} {m : ℕ} {r : VmObjectRef}
    (hly : target.module.choiceLayouts[li]? = some l)
    (hvr : l.variants[pre.length]? = some vl) (hpr : ∀ p ∈ pre, p.1 ≠ n)
    (ha : h.Anchored r (.choice m li (pre.length % 65536) vm))
    (hw : WrittenPayload target schema vl.payloadTy payload vm h) :
    WrittenVariant target li n payload pre ((n, schema) :: variants) r h := by
  refine ⟨holds_of_anchored ha, fun g hgt w ms => ?_⟩
  rw [readAs_bind choice? (hgt r _ ha) rfl]
  rw [VariantInRange, PayloadPart.eq_def, arrangePayload.eq_def]
  dsimp only
  rw [if_pos (beq_self_eq_true n), if_pos (beq_self_eq_true n), if_pos (beq_self_eq_true n)]
  by_cases hlt : pre.length < 65536
  · rw [Nat.mod_eq_of_lt hlt, decodeVariant_append, decodeVariant, hly]
    dsimp only
    rw [hvr]
    dsimp only
    obtain ⟨hs, ht⟩ := hw.shape
    cases schema with
    | none =>
      cases payload with
      | some v => cases hs
      | none =>
        obtain hnn | ⟨ty, hsm⟩ := vl.payloadTy.eq_none_or_eq_some
        · rw [hnn]
          simp [hlt]
        · rw [hsm] at ht
          cases ht
    | some schema =>
      cases payload with
      | none => cases hs
      | some v =>
        obtain hnn | ⟨ty, hsm⟩ := vl.payloadTy.eq_none_or_eq_some
        · rw [hnn] at ht
          cases ht
        · rw [hsm]
          dsimp only
          rw [and_iff_right hlt, ← InRange, ← (hw.agrees schema ty v rfl hsm rfl).agrees g hgt]
          exact except_map_eq_ok fun a b hab => Option.some.inj (SurfaceValue.choice.inj hab).2
  · -- the truncated index is that of an earlier variant, which has another name
    constructor
    · intro hdc
      obtain ⟨n', s', v, heq, hgt'⟩ := decodeVariant_eq_ok hdc
      cases heq
      have hmd := Nat.mod_lt pre.length (show 0 < 65536 by decide)
      rw [List.getElem?_append_left (by omega)] at hgt'
      exact absurd rfl (hpr _ (List.mem_of_getElem? hgt'))
    · rintro ⟨hlt', -⟩
      exact absurd hlt' hlt

theorem written_choice {n : String} {v : String} {li expected : ℕ}
    {r : VmObjectRef} (hty : target.module.types[expected]? = some (.choice li))
    (hw : WrittenVariant target li v payload [] variants r h) :
    Written target (.choice n variants) (.choice v payload) expected (.object r) h := by
  refine ⟨hw.held, nofun, fun g hg => ?_⟩
  rw [decodeSurface.eq_def]
  dsimp only
  rw [hty, arrange, InRange, EachPart]
  exact hw.agrees g hg _ _

theorem encodes_encodeVariant_cons {ms : EncodeError} {li : ℕ} {vr : String}
    {n : String} (hpr : ∀ p ∈ pre, p.1 ≠ vr)
    (hsc : ∀ s, schema = some s → ∀ vl ty, Encodes (fun _ => True)
      (target.encodeSurface s vl ty) (Written target s vl ty))
    (hrs : n ≠ vr → Encodes (fun _ => True)
      (target.encodeVariant ms li vr payload (pre.length + 1) variants)
      fun vm h => ∃ r, vm = .object r ∧
        WrittenVariant target li vr payload (pre ++ [(n, schema)]) variants r h) :
    Encodes (fun _ => True) (target.encodeVariant ms li vr payload pre.length
        ((n, schema) :: variants))
      fun vm h => ∃ r, vm = .object r ∧
        WrittenVariant target li vr payload pre ((n, schema) :: variants) r h := by
  rw [encodeVariant]
  split
  · next hnm =>
    obtain rfl := beq_iff_eq.mp hnm
    split
    · exact .throw _
    next layout hly =>
    split
    · exact .throw _
    next variantLayout hvr =>
    have hal : ∀ vm, Encodes (WrittenPayload target schema variantLayout.payloadTy payload vm)
        (target.alloc "surface choice exceeds heap quota"
          (.choice target.moduleId li (pre.length % 65536) vm)) fun vm h =>
        ∃ r, vm = .object r ∧
          WrittenVariant target li n payload pre ((n, schema) :: variants) r h := by
      intro vm
      apply encodes_object _ persistent_writtenPayload
      · intro s hw v hv
        rw [slots, List.mem_singleton] at hv
        exact hv ▸ hw.held
      · exact fun r s ha hw => ⟨r, rfl, written_variant hly hvr hpr ha hw⟩
    split
    · next hnn =>
      refine .bind (.pure fun s _ => ?_) hal
      exact ⟨holds_plain rfl, by simp [hnn], by simp⟩
    · next schema payloadTy vl hsm =>
      apply Encodes.bind ((hsc schema rfl vl payloadTy).conseq (fun _ h => h) ?_) hal
      intro vm s hw
      refine ⟨hw.held, by simp [hsm], ?_⟩
      rintro s ty v ⟨⟩ hty ⟨⟩
      rw [hsm] at hty
      cases hty
      exact hw
    · exact .bind (.throw _) hal
  · next hnm =>
    have hne : n ≠ vr := fun h => hnm (beq_iff_eq.mpr h)
    refine (hrs hne).conseq (fun _ h => h) ?_
    rintro _ s ⟨r, rfl, hw⟩
    refine ⟨r, rfl, hw.held, fun g hgt w ms => ?_⟩
    rw [VariantInRange, PayloadPart.eq_def, arrangePayload.eq_def]
    dsimp only
    rw [if_neg hnm, if_neg hnm, if_neg hnm]
    simpa using hw.agrees g hgt w ms

mutual

theorem encodes_encodeSurface (schema : SurfaceSchema) (vl : SurfaceValue) (expected : ℕ) :
    Encodes (fun _ => True) (target.encodeSurface schema vl expected)
      (Written target schema vl expected) := by
  rw [encodeSurface.eq_def]
  apply (encodes_expectFit schema vl).bind
  intro _
  apply (encodes_typeAt expected).bind
  intro ty
  apply Encodes.assume
  intro hty
  cases schema with
  | optional i =>
    dsimp only
    split
    · refine .pure fun s _ => ⟨holds_plain rfl, fun _ => rfl, fun g _ => ?_⟩
      rw [decodeSurface.eq_def]
      simp [hty, arrange, EachPart]
    · next innerTy hnl =>
      apply (encodes_encodeSurface i vl innerTy).conseq fun _ h => h
      exact fun vm s hw => written_optional hty hnl hw
    · exact .throw _
  | list i =>
    dsimp only
    split
    · next values itemTy =>
      apply Encodes.bind (encodes_encodeEach fun v _ => encodes_encodeSurface i v itemTy)
      intro elements
      apply encodes_object _ persistent_writtenAll
      · exact fun s hw => hw.held
      · exact fun r s ha hw => written_list hty ha hw
    · exact .throw _
  | tuple im =>
    dsimp only
    split
    · next values itemTys =>
      split
      · next hln =>
        apply (encodes_encodeItems im values itemTys hln).bind
        intro elements
        apply Encodes.assume
        intro hln'
        apply encodes_object _ persistent_writtenAll
        · exact fun s hw => hw.held
        · exact fun r s ha hw => written_tuple hty ha ⟨hln'.symm, by omega⟩ hw
      · exact .throw _
    · exact .throw _
  | struct n fs =>
    dsimp only
    split
    · next values layoutIdx =>
      split
      · exact .throw _
      next layout hly =>
      split
      · exact .throw _
      next hln =>
      apply (encodes_encodeFields fs values layout.fields (not_not.mp hln)).bind
      intro elements
      apply Encodes.assume
      intro hln'
      apply encodes_object _ persistent_writtenAll
      · exact fun s hw => hw.held
      · exact fun r s ha hw => written_struct hty hly ha ⟨hln'.symm, by omega⟩ hw
    · exact .throw _
  | choice n variants =>
    dsimp only
    split
    · next variant payload layoutIdx =>
      apply (encodes_encodeVariant _ layoutIdx variant payload [] variants nofun).conseq
        fun _ h => h
      rintro _ s ⟨r, rfl, hw⟩
      exact written_choice hty hw
    · exact .throw _
  | _ =>
    apply (encodes_encodePlain _ vl ty).conseq fun _ h => h
    rintro vm s ⟨hhl, hnl, hdc⟩
    refine ⟨hhl, hnl, fun g hgt => ?_⟩
    rw [decodeSurface.eq_def]
    simp [hty, hdc g hgt, EachPart]

theorem encodes_encodeItems (ss : List SurfaceSchema) (vs : List SurfaceValue)
    (i : List ℕ) (hln : ss.length = vs.length ∧ vs.length = i.length) :
    Encodes (fun _ => True) (target.encodeItems ss vs i) fun elements h =>
      WrittenAll elements (fun g =>
        decodeItems g target.module ss elements i = .ok (arrangeItems ss vs) ↔
          ItemsInRange ss vs) h ∧ elements.length = ss.length := by
  cases ss with
  | nil =>
    refine .pure fun s _ => ⟨⟨nofun, fun g _ => ?_⟩, rfl⟩
    simp [decodeItems, arrangeItems, EachItem]
  | cons schema ss =>
    obtain ⟨v, vs, rfl⟩ := List.exists_cons_of_length_eq_add_one hln.1.symm
    obtain ⟨t, i, rfl⟩ := List.exists_cons_of_length_eq_add_one hln.2.symm
    apply (encodes_encodeSurface schema v t).bind
    intro e
    apply Encodes.bind (((encodes_encodeItems ss vs i
      (by simpa using hln)).frame persistent_written).conseq (fun s hs => ⟨trivial, hs⟩)
        fun _ _ h => h)
    intro es
    refine .pure fun s ⟨⟨hes, hln⟩, he⟩ => ⟨⟨List.forall_mem_cons.mpr ⟨he.held, hes.held⟩,
      fun g hgt => ?_⟩, congrArg (· + 1) hln⟩
    rw [arrangeItems, ItemsInRange, EachItem, decodeItems_cons_eq_ok, he.agrees g hgt,
      hes.agrees g hgt]

theorem encodes_encodeFields (fs : List (String × SurfaceSchema))
    (vs : List (String × SurfaceValue)) (ls : List FieldLayout)
    (hln : fs.length = ls.length) :
    Encodes (fun _ => True) (target.encodeFields fs vs ls) fun elements h =>
      WrittenAll elements (fun g =>
        decodeFields g target.module fs elements ls =
          .ok (arrangeFields fs vs) ↔ FieldsInRange vs fs) h ∧
        elements.length = fs.length := by
  cases fs with
  | nil =>
    refine .pure fun s _ => ⟨⟨nofun, fun g _ => ?_⟩, rfl⟩
    simp [decodeFields, arrangeFields, EachField]
  | cons f fs =>
    obtain ⟨n, schema⟩ := f
    obtain ⟨l, ls, rfl⟩ := List.exists_cons_of_length_eq_add_one hln.symm
    rw [encodeFields]
    split
    · exact .throw _
    · next value hfn =>
      apply (encodes_encodeSurface schema value l.ty).bind
      intro e
      apply Encodes.bind (((encodes_encodeFields fs vs ls
        (by simpa using hln)).frame persistent_written).conseq (fun s hs => ⟨trivial, hs⟩)
          fun _ _ h => h)
      intro es
      refine .pure fun s ⟨⟨hes, hln⟩, he⟩ => ⟨⟨List.forall_mem_cons.mpr ⟨he.held, hes.held⟩,
        fun g hgt => ?_⟩, congrArg (· + 1) hln⟩
      rw [arrangeFields, FieldsInRange, EachField, hfn]
      rw [decodeFields_cons_eq_ok, he.agrees g hgt, hes.agrees g hgt, eq_self_iff_true, true_and]
      simp

theorem encodes_encodeVariant (ms : EncodeError) (li : ℕ) (v : String)
    (payload : Option SurfaceValue) (pre variants : List (String × Option SurfaceSchema))
    (hp : ∀ p ∈ pre, p.1 ≠ v) :
    Encodes (fun _ => True) (target.encodeVariant ms li v payload pre.length variants)
      fun vm h => ∃ r, vm = .object r ∧ WrittenVariant target li v payload pre variants r h := by
  cases variants with
  | nil =>
    exact .throw _
  | cons p variants =>
    obtain ⟨n, schema⟩ := p
    apply encodes_encodeVariant_cons hp
    · cases schema with
      | none => nofun
      | some schema =>
        have hs := encodes_encodeSurface schema
        rintro _ ⟨⟩
        exact hs
    · intro hne
      have h := encodes_encodeVariant ms li v payload (pre ++ [(n, schema)])
        variants (by simpa [or_imp, forall_and, hne] using hp)
      rwa [List.length_append, List.length_singleton] at h

end

theorem written_of_encodeSurface {schema : SurfaceSchema} {v : SurfaceValue} {expected : ℕ}
    {h' : PrivateHeap} (hs : h.Sound)
    (hr : target.encodeSurface schema v expected h = some (.ok vm, h')) :
    Written target schema v expected vm h' := by
  obtain ⟨r, h₁, hr', -, -, hw⟩ := encodes_encodeSurface schema v expected h hs trivial
  rw [hr] at hr'
  cases hr'
  exact hw vm rfl

theorem validateValue_of_encodeSurface {schema : SurfaceSchema} {v : SurfaceValue} {expected : ℕ}
    {h' : PrivateHeap} (hr : target.encodeSurface schema v expected h = some (.ok vm, h')) :
    schema.validateValue v = .ok () := by
  rw [encodeSurface.eq_def] at hr
  cases hv : schema.validateValue v with
  | ok => rfl
  | error e =>
    simp only [SurfaceTarget.expectFit, hv] at hr
    cases hr

/-- Points with an integer and a flag, and pairs of integers. -/
def pointModule : BytecodeModule where
  name := "points"
  globalCount := 0
  constants := []
  functions := []
  types := [.int32, .bool, .struct 0, .struct 1]
  structLayouts := [⟨"Point", [⟨"x", 0, 0, .value⟩, ⟨"on", 1, 8, .value⟩], []⟩,
    ⟨"Pair", [⟨"a", 0, 0, .value⟩, ⟨"a", 0, 8, .value⟩], []⟩]
  choiceLayouts := []
  imports := []
  exports := []
  initFuncIdx := none

def pointTarget : SurfaceTarget := ⟨0, pointModule, some 0, .doubling, fun _ => .ascending⟩

def pointHeap : PrivateHeap := .new (.new 16 4096) ⟨32, 16⟩

def pointSchema : SurfaceSchema := .struct "Point" [("x", .i32), ("on", .bool)]

def point : SurfaceValue := .struct [("on", .bool true), ("x", .i32 5)]

def pairSchema : SurfaceSchema := .struct "Pair" [("a", .i32), ("a", .i32)]

def pair : List (String × SurfaceValue) := [("a", .i32 1), ("a", .i32 2)]

def mixedSchema : SurfaceSchema := .struct "Point" [("a", .i32), ("a", .bool)]

def mixed : SurfaceValue := .struct [("a", .i32 5), ("a", .bool true)]

end SurfaceTarget

end Galfus
