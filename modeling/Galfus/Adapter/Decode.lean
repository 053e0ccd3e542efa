import Galfus.Adapter.Encode

/-! # Reading surface values from a heap

The inverse walk: the objects of a bytecode type are read back as a surface value. The objects
are looked up by a function, which is that of a heap.
-/

namespace Galfus

inductive DecodeError where
  | missingExpectedType
  | mismatch (schema : SurfaceSchema) (expected : BytecodeType)
  | invalidReference (what : String)
  | missingStructLayout
  | missingChoiceLayout
  | tooManyVariants
  | layoutTooManyVariants
  | invalidHandle

namespace HeapObject

def array? : HeapObject → Option (List VmValue)
  | array _ _ elements => some elements.data
  | _ => none

def tuple? : HeapObject → Option (List VmValue)
  | tuple elements => some elements.data
  | _ => none

def struct? : HeapObject → Option (List VmValue)
  | struct _ _ fields => some fields.data
  | _ => none

def choice? : HeapObject → Option (ℕ × VmValue)
  | choice _ _ variantIdx payload => some (variantIdx, payload)
  | _ => none

end HeapObject

section Decode

variable (get : VmObjectRef → Option HeapObject) (module : BytecodeModule)

def readAs {α : Type} (kind : HeapObject → Option α) (what : String) (mismatch : DecodeError)
    (r : VmObjectRef) : Except DecodeError α :=
  match get r with
  | none => .error (.invalidReference what)
  | some obj =>
    match kind obj with
    | none => .error mismatch
    | some a => .ok a

def decodeByte (mismatch : DecodeError) : VmValue → Except DecodeError (BitVec 8)
  | .uint8 x => .ok x
  | _ => .error mismatch

def decodeEach {α : Type} (decode : VmValue → Except DecodeError α) :
    List VmValue → Except DecodeError (List α)
  | [] => .ok []
  | element :: elements => do
    let value ← decode element
    let values ← decodeEach decode elements
    .ok (value :: values)

def decodePlain (schema : SurfaceSchema) (value : VmValue) (ty : BytecodeType) :
    Except DecodeError SurfaceValue :=
  match schema, value, ty with
  | .null, .null, .null => .ok .null
  | .bool, .bool b, .bool => .ok (.bool b)
  | .u16, .uint16 x, .uint16 => .ok (.u16 x)
  | .i32, .int32 x, .int32 => .ok (.i32 x)
  | .i64, .int64 x, .int64 => .ok (.i64 x)
  | .u32, .uint32 x, .uint32 => .ok (.u32 x)
  | .u64, .uint64 x, .uint64 => .ok (.u64 x)
  | .f32, .float32 x, .float32 => .ok (.f32 (normalizeF32 x))
  | .f64, .float64 x, .float64 => .ok (.f64 (normalizeF64 x))
  | .bytes, .object r, .array elementTy =>
    if module.types[elementTy]? = some .uint8 then do
      let elements ← readAs get HeapObject.array? "surface bytes reference is invalid"
        (.mismatch schema ty) r
      let data ← decodeEach (decodeByte (.mismatch schema ty)) elements
      .ok (.bytes data)
    else .error (.mismatch schema ty)
  | .handle _, .object r, .adapterHandle typeId => do
    let handle ← readAs get HeapObject.handle? "surface handle reference is invalid"
      (.mismatch schema ty) r
    if handle.typeId ≠ typeId then .error .invalidHandle
    else .ok (.handle ⟨handle.typeId, handle.id⟩)
  | schema, _, ty => .error (.mismatch schema ty)

mutual

def decodeSurface : SurfaceSchema → VmValue → ℕ → Except DecodeError SurfaceValue
  | schema, value, expected =>
    match module.types[expected]? with
    | none => .error .missingExpectedType
    | some ty =>
      match schema with
      | .optional inner =>
        match value, ty with
        | .null, .nullable _ => .ok .null
        | value, .nullable innerTy => decodeSurface inner value innerTy
        | _, ty => .error (.mismatch (.optional inner) ty)
      | .list inner =>
        match value, ty with
        | .object r, .array itemTy => do
          let elements ← readAs get HeapObject.array? "surface list reference is invalid"
            (.mismatch (.list inner) ty) r
          let values ← decodeEach (fun value => decodeSurface inner value itemTy) elements
          .ok (.list values)
        | _, ty => .error (.mismatch (.list inner) ty)
      | .tuple schemas =>
        match value, ty with
        | .object r, .tuple itemTys => do
          let elements ← readAs get HeapObject.tuple? "surface tuple reference is invalid"
            (.mismatch (.tuple schemas) ty) r
          if schemas.length ≠ elements.length ∨ elements.length ≠ itemTys.length then
            .error (.mismatch (.tuple schemas) ty)
          else do
            let values ← decodeItems schemas elements itemTys
            .ok (.tuple values)
        | _, ty => .error (.mismatch (.tuple schemas) ty)
      | .struct name fields =>
        match value, ty with
        | .object r, .struct layoutIdx => do
          let elements ← readAs get HeapObject.struct? "surface struct reference is invalid"
            (.mismatch (.struct name fields) ty) r
          match module.structLayouts[layoutIdx]? with
          | none => .error .missingStructLayout
          | some layout =>
            if fields.length ≠ elements.length ∨ elements.length ≠ layout.fields.length then
              .error (.mismatch (.struct name fields) ty)
            else do
              let values ← decodeFields fields elements layout.fields
              .ok (.struct values)
        | _, ty => .error (.mismatch (.struct name fields) ty)
      | .choice name variants =>
        match value, ty with
        | .object r, .choice layoutIdx => do
          let found ← readAs get HeapObject.choice? "surface choice reference is invalid"
            (.mismatch (.choice name variants) ty) r
          decodeVariant (.mismatch (.choice name variants) ty) layoutIdx found.1 found.2 found.1
            variants
        | _, ty => .error (.mismatch (.choice name variants) ty)
      | schema => decodePlain get module schema value ty

def decodeItems : List SurfaceSchema → List VmValue → List ℕ →
    Except DecodeError (List SurfaceValue)
  | schema :: schemas, element :: elements, itemTy :: itemTys => do
    let value ← decodeSurface schema element itemTy
    let values ← decodeItems schemas elements itemTys
    .ok (value :: values)
  | _, _, _ => .ok []

def decodeFields : List (String × SurfaceSchema) → List VmValue → List FieldLayout →
    Except DecodeError (List (String × SurfaceValue))
  | (name, schema) :: fields, element :: elements, layout :: layouts => do
    let value ← decodeSurface schema element layout.ty
    let values ← decodeFields fields elements layouts
    .ok ((name, value) :: values)
  | _, _, _ => .ok []

/-- The variant with an index, which is counted down along the list. -/
def decodeVariant (mismatch : DecodeError) (layoutIdx variantIdx : ℕ) (payload : VmValue) :
    ℕ → List (String × Option SurfaceSchema) → Except DecodeError SurfaceValue
  | _, [] => .error .tooManyVariants
  | 0, (name, schema) :: _ =>
    match module.choiceLayouts[layoutIdx]? with
    | none => .error .missingChoiceLayout
    | some layout =>
      match layout.variants[variantIdx]? with
      | none => .error .layoutTooManyVariants
      | some variantLayout =>
        match schema, variantLayout.payloadTy with
        | none, none => .ok (.choice name none)
        | some schema, some payloadTy => do
          let value ← decodeSurface schema payload payloadTy
          .ok (.choice name (some value))
        | _, _ => .error mismatch
  | n + 1, _ :: variants => decodeVariant mismatch layoutIdx variantIdx payload n variants

end

end Decode

namespace PrivateHeap

def object? (h : PrivateHeap) (r : VmObjectRef) : Option HeapObject := (h.getObject r).toOption

def decodeSurface (h : PrivateHeap) (module : BytecodeModule) (schema : SurfaceSchema)
    (value : VmValue) (expected : ℕ) : Except DecodeError SurfaceValue :=
  Galfus.decodeSurface h.object? module schema value expected

end PrivateHeap

namespace SurfaceSchema

mutual

/-- The value with the fields of its structs in the order of the schema and with normalised
floating-point numbers. -/
def arrange : SurfaceSchema → SurfaceValue → SurfaceValue
  | optional inner, value =>
    match value with
    | .null => .null
    | value => arrange inner value
  | list inner, value =>
    match value with
    | .list values => .list (values.map (arrange inner))
    | value => value
  | tuple items, value =>
    match value with
    | .tuple values => .tuple (arrangeItems items values)
    | value => value
  | struct _ fields, value =>
    match value with
    | .struct values => .struct (arrangeFields fields values)
    | value => value
  | choice _ variants, value =>
    match value with
    | .choice variant payload => .choice variant (arrangePayload variant payload variants)
    | value => value
  | schema, value =>
    match schema, value with
    | f32, .f32 x => .f32 (normalizeF32 x)
    | f64, .f64 x => .f64 (normalizeF64 x)
    | _, value => value

def arrangeItems : List SurfaceSchema → List SurfaceValue → List SurfaceValue
  | schema :: schemas, value :: values => arrange schema value :: arrangeItems schemas values
  | _, _ => []

/-- For each field of the schema the first value with its name. -/
def arrangeFields : List (String × SurfaceSchema) → List (String × SurfaceValue) →
    List (String × SurfaceValue)
  | [], _ => []
  | (name, schema) :: fields, values =>
    match findField name values with
    | none => arrangeFields fields values
    | some value => (name, arrange schema value) :: arrangeFields fields values

def arrangePayload (variant : String) (payload : Option SurfaceValue) :
    List (String × Option SurfaceSchema) → Option SurfaceValue
  | [] => payload
  | (name, schema) :: variants =>
    if name == variant then
      match schema, payload with
      | some schema, some value => some (arrange schema value)
      | _, payload => payload
    else arrangePayload variant payload variants

end

section Parts

variable (S : List (String × SurfaceSchema) → Prop)
  (C : String → List (String × Option SurfaceSchema) → Prop)

mutual

/-- Every struct of the schema that the value comes to meets `S`, and every choice, with the variant
that the value names, meets `C`. -/
def EachPart : SurfaceSchema → SurfaceValue → Prop
  | optional inner, value =>
    match value with
    | .null => True
    | value => EachPart inner value
  | list inner, value =>
    match value with
    | .list values => ∀ value ∈ values, EachPart inner value
    | _ => True
  | tuple items, value =>
    match value with
    | .tuple values => EachItem items values
    | _ => True
  | struct _ fields, value =>
    match value with
    | .struct values => S fields ∧ EachField values fields
    | _ => True
  | choice _ variants, value =>
    match value with
    | .choice variant payload => C variant variants ∧ PayloadPart variant payload variants
    | _ => True
  | _, _ => True

def EachItem : List SurfaceSchema → List SurfaceValue → Prop
  | schema :: schemas, value :: values => EachPart schema value ∧ EachItem schemas values
  | _, _ => True

def EachField (values : List (String × SurfaceValue)) : List (String × SurfaceSchema) → Prop
  | [] => True
  | (name, schema) :: fields =>
    (∀ value, findField name values = some value → EachPart schema value) ∧ EachField values fields

def PayloadPart (variant : String) (payload : Option SurfaceValue) :
    List (String × Option SurfaceSchema) → Prop
  | [] => True
  | (name, schema) :: variants =>
    if name == variant then
      match schema, payload with
      | some schema, some value => EachPart schema value
      | _, _ => True
    else PayloadPart variant payload variants

end

end Parts

def FieldsOnce (fields : List (String × SurfaceSchema)) : Prop := (fields.map Prod.fst).Nodup

def VariantOnce (variant : String) (variants : List (String × Option SurfaceSchema)) : Prop :=
  (variants.map Prod.fst).count variant ≤ 1

/-- The variant is found before the position `2 ^ 16`. -/
def VariantInRange (index : ℕ) (variant : String) : List (String × Option SurfaceSchema) → Prop
  | [] => True
  | (name, _) :: variants =>
    if name == variant then index < 65536 else VariantInRange (index + 1) variant variants

/-- Every choice in the value is one of the first `2 ^ 16` variants. -/
abbrev InRange : SurfaceSchema → SurfaceValue → Prop :=
  EachPart (fun _ => True) (VariantInRange 0)

abbrev ItemsInRange : List SurfaceSchema → List SurfaceValue → Prop :=
  EachItem (fun _ => True) (VariantInRange 0)

abbrev FieldsInRange : List (String × SurfaceValue) → List (String × SurfaceSchema) → Prop :=
  EachField (fun _ => True) (VariantInRange 0)

/-- No struct that the value comes to has two fields of one name. -/
abbrev DistinctFields : SurfaceSchema → SurfaceValue → Prop :=
  EachPart FieldsOnce fun _ _ => True

/-- The variants that the value names are not repeated in their choices, either. -/
abbrev DistinctNames : SurfaceSchema → SurfaceValue → Prop :=
  EachPart FieldsOnce VariantOnce

end SurfaceSchema

section Reading

variable {ε α β : Type} {get : VmObjectRef → Option HeapObject} {module : BytecodeModule}

theorem except_bind_eq_ok {x : Except ε α} {f : α → Except ε β} {b : β} :
    (x >>= f) = .ok b ↔ ∃ a, x = .ok a ∧ f a = .ok b := by
  cases x with
  | error e => exact ⟨nofun, fun ⟨_, h, _⟩ => nomatch h⟩
  | ok a => exact ⟨fun h => ⟨a, rfl, h⟩, fun ⟨_, h, h'⟩ => by cases h; exact h'⟩

theorem except_seq_eq_ok {x : Except ε Unit} {y : Except ε β} {b : β} :
    (x >>= fun _ => y) = .ok b ↔ x = .ok () ∧ y = .ok b := by
  rw [except_bind_eq_ok]
  exact ⟨fun ⟨⟨⟩, hx, hy⟩ => ⟨hx, hy⟩, fun ⟨hx, hy⟩ => ⟨(), hx, hy⟩⟩

theorem except_guard_eq_ok {p : Prop} [Decidable p] {e : ε} {x : Except ε α} {a : α} :
    (if p then x else .error e) = .ok a ↔ p ∧ x = .ok a := by
  split <;> simp [*]

theorem except_map_eq_ok {x : Except ε α} {g : α → β} (hg : Function.Injective g) {a : α} :
    (x >>= fun a => .ok (g a)) = .ok (g a) ↔ x = .ok a := by
  rw [except_bind_eq_ok]
  constructor
  · rintro ⟨b, hb, heq⟩
    rw [hb, hg (Except.ok.inj heq)]
  · intro h
    exact ⟨a, h, rfl⟩

theorem readAs_bind (k : HeapObject → Option α) {r : VmObjectRef} {o : HeapObject} {a : α}
    (hg : get r = some o) (hk : k o = some a) (w : String) (mismatch : DecodeError)
    (f : α → Except DecodeError β) : (readAs get k w mismatch r >>= f) = f a := by
  simp only [readAs, hg, hk]
  rfl

theorem except_cons_eq_ok {ε : Type} {x : Except ε α} {y : Except ε (List α)} {v : α}
    {vs : List α} :
    (do let v ← x; let vs ← y; Except.ok (v :: vs)) = .ok (v :: vs) ↔ x = .ok v ∧ y = .ok vs := by
  simp only [except_bind_eq_ok, Except.ok.injEq, List.cons.injEq]
  constructor
  · rintro ⟨_, hv, _, hvs, rfl, rfl⟩
    exact ⟨hv, hvs⟩
  · rintro ⟨hv, hvs⟩
    exact ⟨_, hv, _, hvs, rfl, rfl⟩

theorem decodeEach_cons_eq_ok {d : VmValue → Except DecodeError α} {e : VmValue}
    {es : List VmValue} {v : α} {vs : List α} :
    decodeEach d (e :: es) = .ok (v :: vs) ↔ d e = .ok v ∧ decodeEach d es = .ok vs := by
  rw [decodeEach]
  exact except_cons_eq_ok

theorem decodeItems_cons_eq_ok {s : SurfaceSchema} {ss : List SurfaceSchema}
    {e : VmValue} {es : List VmValue} {ty : ℕ} {t : List ℕ} {v : SurfaceValue}
    {vs : List SurfaceValue} :
    decodeItems get module (s :: ss) (e :: es) (ty :: t) = .ok (v :: vs) ↔
      decodeSurface get module s e ty = .ok v ∧ decodeItems get module ss es t = .ok vs := by
  rw [decodeItems]
  exact except_cons_eq_ok

theorem decodeFields_cons_eq_ok {n n' : String} {s : SurfaceSchema}
    {fs : List (String × SurfaceSchema)} {e : VmValue} {es : List VmValue}
    {l : FieldLayout} {ls : List FieldLayout} {v : SurfaceValue}
    {vs : List (String × SurfaceValue)} :
    decodeFields get module ((n, s) :: fs) (e :: es) (l :: ls) = .ok ((n', v) :: vs) ↔
      n = n' ∧ decodeSurface get module s e l.ty = .ok v ∧
        decodeFields get module fs es ls = .ok vs := by
  simp only [decodeFields, except_bind_eq_ok, Except.ok.injEq, List.cons.injEq, Prod.mk.injEq]
  constructor
  · rintro ⟨_, hv, _, hvs, ⟨rfl, rfl⟩, rfl⟩
    exact ⟨rfl, hv, hvs⟩
  · rintro ⟨rfl, hv, hvs⟩
    exact ⟨_, hv, _, hvs, ⟨rfl, rfl⟩, rfl⟩

variable {m : DecodeError} {li vi : ℕ} {py : VmValue}

theorem decodeVariant_append (pr vs : List (String × Option SurfaceSchema)) :
    decodeVariant get module m li vi py pr.length (pr ++ vs) =
      decodeVariant get module m li vi py 0 vs := by
  induction pr with
  | nil => rfl
  | cons p pr ih => rw [List.length_cons, List.cons_append, decodeVariant, ih]

/-- The name of a choice that is read is that of the variant with its index. -/
theorem decodeVariant_eq_ok {n : ℕ} {vs : List (String × Option SurfaceSchema)} {w : SurfaceValue}
    (h : decodeVariant get module m li vi py n vs = .ok w) :
    ∃ nm s v, w = .choice nm v ∧ vs[n]? = some (nm, s) := by
  induction vs generalizing n with
  | nil =>
    cases h
  | cons p vs ih =>
    obtain ⟨nm, s⟩ := p
    cases n with
    | succ n =>
      exact ih h
    | zero =>
      rw [decodeVariant] at h
      split at h
      · cases h
      split at h
      · cases h
      split at h
      · cases h
        exact ⟨nm, none, none, rfl, rfl⟩
      · next s payloadTy _ =>
        obtain ⟨v, -, hv⟩ := except_bind_eq_ok.mp h
        cases hv
        exact ⟨nm, some s, some v, rfl, rfl⟩
      · cases h

end Reading

end Galfus
