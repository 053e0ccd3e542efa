import Galfus.Heap.Object

/-! # Surface values

The data that adapters and providers exchange with the runtime, their schemas, and the walks
over a value that look for handles.
-/

namespace Galfus

structure SurfaceHandle where
  typeId : OpaqueTypeId
  id : ℕ
  deriving DecidableEq, Repr

inductive SurfaceValue where
  | null
  | bool (b : Bool)
  | u16 (x : BitVec 16)
  | i32 (x : BitVec 32)
  | i64 (x : BitVec 64)
  | u32 (x : BitVec 32)
  | u64 (x : BitVec 64)
  | f32 (bits : BitVec 32)
  | f64 (bits : BitVec 64)
  | bytes (data : List (BitVec 8))
  | list (values : List SurfaceValue)
  | tuple (values : List SurfaceValue)
  | struct (fields : List (String × SurfaceValue))
  | choice (variant : String) (payload : Option SurfaceValue)
  | handle (handle : SurfaceHandle)

inductive SurfaceSchema where
  | null | bool | u16 | i32 | i64 | u32 | u64 | f32 | f64 | bytes
  | optional (inner : SurfaceSchema)
  | list (inner : SurfaceSchema)
  | tuple (items : List SurfaceSchema)
  | struct (name : String) (fields : List (String × SurfaceSchema))
  | choice (name : String) (variants : List (String × Option SurfaceSchema))
  | handle (resource : String)

/-- `str::trim_end_matches(".gfp")` on the characters in reverse. -/
def dropExtensions : List Char → List Char
  | 'p' :: 'f' :: 'g' :: '.' :: rest => dropExtensions rest
  | chars => chars

def trimProxyModule (proxyModule : String) : String :=
  String.ofList (dropExtensions proxyModule.toList.reverse).reverse

def OpaqueTypeId.belongsTo (typeId : OpaqueTypeId) (proxyModule : String) : Bool :=
  typeId.proxyModule == trimProxyModule proxyModule

namespace SurfaceValue

mutual

/-- `collect_adapter_handles`, which does not look into structs. -/
def collectAdapterHandles : SurfaceValue → List (OpaqueTypeId × ℕ)
  | list values | tuple values => collectEach values
  | choice _ (some payload) => collectAdapterHandles payload
  | handle h => [(h.typeId, h.id)]
  | _ => []

def collectEach : List SurfaceValue → List (OpaqueTypeId × ℕ)
  | [] => []
  | value :: values => collectAdapterHandles value ++ collectEach values

end

mutual

/-- `validate_adapter_handles`, which does not look into structs. -/
def validateAdapterHandles (proxyModule : String) : SurfaceValue → Bool
  | list values | tuple values => validateEach proxyModule values
  | choice _ (some payload) => validateAdapterHandles proxyModule payload
  | handle h => h.typeId.belongsTo proxyModule
  | _ => true

def validateEach (proxyModule : String) : List SurfaceValue → Bool
  | [] => true
  | value :: values => validateAdapterHandles proxyModule value && validateEach proxyModule values

end

mutual

/-- The handles that occur anywhere in a value. -/
def handles : SurfaceValue → List (OpaqueTypeId × ℕ)
  | list values | tuple values => handlesEach values
  | struct fields => handlesFields fields
  | choice _ (some payload) => handles payload
  | handle h => [(h.typeId, h.id)]
  | _ => []

def handlesEach : List SurfaceValue → List (OpaqueTypeId × ℕ)
  | [] => []
  | value :: values => handles value ++ handlesEach values

def handlesFields : List (String × SurfaceValue) → List (OpaqueTypeId × ℕ)
  | [] => []
  | (_, value) :: fields => handles value ++ handlesFields fields

end

theorem mem_handlesEach {x : OpaqueTypeId × ℕ} {vs : List SurfaceValue} :
    x ∈ handlesEach vs ↔ ∃ v ∈ vs, x ∈ v.handles := by
  induction vs with
  | nil => simp [handlesEach]
  | cons v vs ih => simp [handlesEach, ih]

theorem mem_handlesFields {x : OpaqueTypeId × ℕ} {fs : List (String × SurfaceValue)} :
    x ∈ handlesFields fs ↔ ∃ f ∈ fs, x ∈ f.2.handles := by
  induction fs with
  | nil => simp [handlesFields]
  | cons f fs ih => simp [handlesFields, ih]

mutual

theorem validateAdapterHandles_iff {pm : String} (v : SurfaceValue) :
    v.validateAdapterHandles pm = true ↔
      ∀ x ∈ v.collectAdapterHandles, x.1.belongsTo pm = true := by
  cases v with
  | list vs | tuple vs =>
    exact validateEach_iff vs
  | choice vr p =>
    cases p with
    | none => simp [validateAdapterHandles, collectAdapterHandles]
    | some p =>
      exact validateAdapterHandles_iff p
  | _ => simp [validateAdapterHandles, collectAdapterHandles]

theorem validateEach_iff {pm : String} (vs : List SurfaceValue) : validateEach pm vs = true ↔
      ∀ x ∈ collectEach vs, x.1.belongsTo pm = true := by
  cases vs with
  | nil => simp [validateEach, collectEach]
  | cons v vs =>
    rw [validateEach, collectEach, Bool.and_eq_true, validateAdapterHandles_iff v,
      validateEach_iff vs, List.forall_mem_append]

end

mutual

theorem mem_handles_of_mem_collect {x : OpaqueTypeId × ℕ} (value : SurfaceValue)
    (h : x ∈ value.collectAdapterHandles) : x ∈ value.handles := by
  cases value with
  | list values | tuple values =>
    exact mem_handlesEach_of_mem_collect values h
  | choice variant payload =>
    cases payload with
    | none => simp [collectAdapterHandles] at h
    | some payload =>
      exact mem_handles_of_mem_collect payload h
  | handle handle =>
    exact h
  | _ => simp [collectAdapterHandles] at h

theorem mem_handlesEach_of_mem_collect {x : OpaqueTypeId × ℕ} (vs : List SurfaceValue)
    (h : x ∈ collectEach vs) : x ∈ handlesEach vs := by
  cases vs with
  | nil => simp [collectEach] at h
  | cons v vs =>
    rw [collectEach, List.mem_append] at h
    rw [handlesEach, List.mem_append]
    rcases h with h | h
    · exact .inl (mem_handles_of_mem_collect v h)
    · exact .inr (mem_handlesEach_of_mem_collect vs h)

end

end SurfaceValue

end Galfus
