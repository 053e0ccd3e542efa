import Galfus.Adapter.Surface
import Galfus.Exec.Moves
import Galfus.Heap.History
import Galfus.Vm.Machine

/-! # Surface values on a heap

A surface value that fits its schema is put on the heap of a thread as the objects of a
bytecode type. The schema is walked together with the value and the type; for the fields of a
struct the first value with the name of the field is taken.
-/

namespace Galfus

/-- `SurfaceCodecError`, as far as values are checked; a text that prints a schema and a value
is kept as the two. -/
inductive SurfaceCodecError where
  | structFieldCount (found : ℕ)
  | missingField (name : String)
  | invalidTag (variant : String)
  | choicePayload (variant : String)
  | typeMismatch (schema : SurfaceSchema) (value : SurfaceValue)

def findField (name : String) (fields : List (String × SurfaceValue)) : Option SurfaceValue :=
  (fields.find? fun field => field.1 == name).map Prod.snd

namespace SurfaceSchema

mutual

def validateValue : SurfaceSchema → SurfaceValue → Except SurfaceCodecError Unit
  | optional inner, value =>
    match value with
    | .null => .ok ()
    | value => validateValue inner value
  | list inner, value =>
    match value with
    | .list values => values.forM (validateValue inner)
    | value => .error (.typeMismatch (list inner) value)
  | tuple items, value =>
    match value with
    | .tuple values =>
      if items.length = values.length then validateItems items values
      else .error (.typeMismatch (tuple items) (.tuple values))
    | value => .error (.typeMismatch (tuple items) value)
  | struct name fields, value =>
    match value with
    | .struct values =>
      if fields.length ≠ values.length then .error (.structFieldCount values.length)
      else validateFields fields values
    | value => .error (.typeMismatch (struct name fields) value)
  | choice name variants, value =>
    match value with
    | .choice variant payload => validateVariant variant payload variants
    | value => .error (.typeMismatch (choice name variants) value)
  | schema, value =>
    match schema, value with
    | null, .null | bool, .bool _ | u16, .u16 _ | i32, .i32 _ | i64, .i64 _ | u32, .u32 _
    | u64, .u64 _ | f32, .f32 _ | f64, .f64 _ | bytes, .bytes _ | handle _, .handle _ => .ok ()
    | schema, value => .error (.typeMismatch schema value)

def validateItems : List SurfaceSchema → List SurfaceValue → Except SurfaceCodecError Unit
  | schema :: schemas, value :: values => do
    validateValue schema value
    validateItems schemas values
  | _, _ => .ok ()

def validateFields : List (String × SurfaceSchema) → List (String × SurfaceValue) →
    Except SurfaceCodecError Unit
  | [], _ => .ok ()
  | (name, schema) :: fields, values =>
    match findField name values with
    | none => .error (.missingField name)
    | some value => do
      validateValue schema value
      validateFields fields values

def validateVariant (variant : String) (payload : Option SurfaceValue) :
    List (String × Option SurfaceSchema) → Except SurfaceCodecError Unit
  | [] => .error (.invalidTag variant)
  | (name, expected) :: variants =>
    if name == variant then
      match expected, payload with
      | none, none => .ok ()
      | some schema, some value => validateValue schema value
      | _, _ => .error (.choicePayload variant)
    else validateVariant variant payload variants

end

end SurfaceSchema

inductive EncodeError where
  | value (e : SurfaceCodecError)
  | missingExpectedType
  | mismatch (schema : SurfaceSchema) (expected : BytecodeType)
  | missingField (name : String)
  | invalidTag (variant : String)
  | missingStructLayout
  | missingChoiceLayout
  | tooManyVariants
  | missingBinding
  | heapQuota (what : String)

/-- What an encoding is made for: the types of a module, the binding of the handles, and the host's
growth of buffers and drain orders. -/
structure SurfaceTarget where
  moduleId : ℕ
  module : BytecodeModule
  adapterBindingId : Option ℕ
  growth : VecGrowth
  order : PrivateHeap → CollectOrder

abbrev Encoding := Exec EncodeError PrivateHeap

namespace SurfaceTarget

variable (target : SurfaceTarget)

/-- Allocate an object; an error says that it is too much for the quota. -/
def alloc (what : String) (obj : HeapObject) : Encoding VmValue := fun h =>
  (h.alloc (target.order h) obj).map fun p =>
    (match p.2 with
      | .ok r => .ok (.object r)
      | .error _ => .error (.heapQuota what), p.1)

def typeAt (expected : ℕ) : Encoding BytecodeType :=
  match target.module.types[expected]? with
  | some ty => pure ty
  | none => Exec.throw .missingExpectedType

def expectFit (schema : SurfaceSchema) (value : SurfaceValue) : Encoding Unit :=
  match schema.validateValue value with
  | .ok () => pure ()
  | .error e => Exec.throw (.value e)

def encodePlain (schema : SurfaceSchema) (value : SurfaceValue) (ty : BytecodeType) :
    Encoding VmValue :=
  match schema, value, ty with
  | .null, .null, .null => pure .null
  | .bool, .bool b, .bool => pure (.bool b)
  | .u16, .u16 x, .uint16 => pure (.uint16 x)
  | .i32, .i32 x, .int32 => pure (.int32 x)
  | .i64, .i64 x, .int64 => pure (.int64 x)
  | .u32, .u32 x, .uint32 => pure (.uint32 x)
  | .u64, .u64 x, .uint64 => pure (.uint64 x)
  | .f32, .f32 x, .float32 => pure (.float32 (normalizeF32 x))
  | .f64, .f64 x, .float64 => pure (.float64 (normalizeF64 x))
  | .bytes, .bytes data, .array elementTy =>
    if target.module.types[elementTy]? = some .uint8 then
      target.alloc "surface bytes exceed heap quota"
        (.array target.moduleId elementTy (.exact (data.map .uint8)))
    else Exec.throw (.mismatch schema ty)
  | .handle _, .handle handle, .adapterHandle typeId =>
    if handle.typeId = typeId then
      match target.adapterBindingId with
      | none => Exec.throw .missingBinding
      | some bindingId =>
        target.alloc "surface handle exceeds heap quota"
          (.adapterHandle ⟨bindingId, handle.typeId, handle.id⟩)
    else Exec.throw (.mismatch schema ty)
  | schema, _, ty => Exec.throw (.mismatch schema ty)

def encodeEach (encode : SurfaceValue → Encoding VmValue) :
    List SurfaceValue → Encoding (List VmValue)
  | [] => pure []
  | value :: values => do
    let element ← encode value
    let elements ← encodeEach encode values
    pure (element :: elements)

mutual

def encodeSurface : SurfaceSchema → SurfaceValue → ℕ → Encoding VmValue
  | schema, value, expected => do
    expectFit schema value
    let ty ← target.typeAt expected
    match schema with
    | .optional inner =>
      match value, ty with
      | .null, .nullable _ => pure .null
      | value, .nullable innerTy => encodeSurface inner value innerTy
      | _, ty => Exec.throw (.mismatch (.optional inner) ty)
    | .list inner =>
      match value, ty with
      | .list values, .array itemTy => do
        let elements ← encodeEach (fun value => encodeSurface inner value itemTy) values
        target.alloc "surface list exceeds heap quota"
          (.array target.moduleId itemTy (.grown target.growth elements))
      | _, ty => Exec.throw (.mismatch (.list inner) ty)
    | .tuple items =>
      match value, ty with
      | .tuple values, .tuple itemTys =>
        if items.length = values.length ∧ values.length = itemTys.length then do
          let elements ← encodeItems items values itemTys
          target.alloc "surface tuple exceeds heap quota" (.tuple (.grown target.growth elements))
        else Exec.throw (.mismatch (.tuple items) (.tuple itemTys))
      | _, ty => Exec.throw (.mismatch (.tuple items) ty)
    | .struct name fields =>
      match value, ty with
      | .struct values, .struct layoutIdx =>
        match target.module.structLayouts[layoutIdx]? with
        | none => Exec.throw .missingStructLayout
        | some layout =>
          if fields.length ≠ layout.fields.length then
            Exec.throw (.mismatch (.struct name fields) ty)
          else do
            let elements ← encodeFields fields values layout.fields
            target.alloc "surface struct exceeds heap quota"
              (.struct target.moduleId layoutIdx (.grown target.growth elements))
      | _, ty => Exec.throw (.mismatch (.struct name fields) ty)
    | .choice name variants =>
      match value, ty with
      | .choice variant payload, .choice layoutIdx =>
        encodeVariant (.mismatch (.choice name variants) ty) layoutIdx variant payload 0 variants
      | _, ty => Exec.throw (.mismatch (.choice name variants) ty)
    | schema => target.encodePlain schema value ty

def encodeItems : List SurfaceSchema → List SurfaceValue → List ℕ → Encoding (List VmValue)
  | schema :: schemas, value :: values, itemTy :: itemTys => do
    let element ← encodeSurface schema value itemTy
    let elements ← encodeItems schemas values itemTys
    pure (element :: elements)
  | _, _, _ => pure []

def encodeFields : List (String × SurfaceSchema) → List (String × SurfaceValue) →
    List FieldLayout → Encoding (List VmValue)
  | (name, schema) :: fields, values, layout :: layouts =>
    match findField name values with
    | none => Exec.throw (.missingField name)
    | some value => do
      let element ← encodeSurface schema value layout.ty
      let elements ← encodeFields fields values layouts
      pure (element :: elements)
  | _, _, _ => pure []

/-- Look for the variant of a choice, from an index on. -/
def encodeVariant (mismatch : EncodeError) (layoutIdx : ℕ) (variant : String)
    (payload : Option SurfaceValue) :
    ℕ → List (String × Option SurfaceSchema) → Encoding VmValue
  | _, [] => Exec.throw (.invalidTag variant)
  | index, (name, schema) :: variants =>
    if name == variant then
      match target.module.choiceLayouts[layoutIdx]? with
      | none => Exec.throw .missingChoiceLayout
      | some layout =>
        match layout.variants[index]? with
        | none => Exec.throw .tooManyVariants
        | some variantLayout => do
          let payload ← match schema, variantLayout.payloadTy, payload with
            | none, none, none => pure .null
            | some schema, some payloadTy, some value => encodeSurface schema value payloadTy
            | _, _, _ => Exec.throw mismatch
          target.alloc "surface choice exceeds heap quota"
            (.choice target.moduleId layoutIdx (index % 65536) payload)
    else encodeVariant mismatch layoutIdx variant payload (index + 1) variants

end

end SurfaceTarget

end Galfus
