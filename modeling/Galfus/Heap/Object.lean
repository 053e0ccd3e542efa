import Mathlib.Tactic.DeriveFintype

/-! # Values, heap objects and the thread quota

The value model of the virtual machine, the objects that live on a private
heap with the bytes they are charged for, and the counters of a thread quota.
-/

namespace Galfus

def u32Max : ℕ := 4294967295

/-- `usize` arithmetic is modulo `2 ^ 64`. -/
def usizeSize : ℕ := 18446744073709551616

def usizeMax : ℕ := 18446744073709551615

def usizeSaturatingAdd (a b : ℕ) : ℕ := min (a + b) usizeMax

/-- A reference to a heap slot; it resolves while the slot keeps its generation. -/
@[ext]
structure VmObjectRef where
  index : ℕ
  generation : ℕ
  deriving DecidableEq, Repr

/-- A virtual machine value. Floats are kept as their bit patterns. -/
inductive VmValue where
  | null
  | bool (b : Bool)
  | int8 (x : BitVec 8)
  | int16 (x : BitVec 16)
  | int32 (x : BitVec 32)
  | int64 (x : BitVec 64)
  | uint8 (x : BitVec 8)
  | uint16 (x : BitVec 16)
  | uint32 (x : BitVec 32)
  | uint64 (x : BitVec 64)
  | future (id : ℕ)
  | float32 (bits : BitVec 32)
  | float64 (bits : BitVec 64)
  | object (r : VmObjectRef)
  | function (moduleId funcIdx : ℕ)
  deriving DecidableEq, Repr

namespace VmValue

def objectRef? : VmValue → Option VmObjectRef
  | object r => some r
  | _ => none

@[simp] theorem objectRef?_eq_some {v : VmValue} {r : VmObjectRef} :
    v.objectRef? = some r ↔ v = object r := by
  cases v <;> simp [objectRef?]

end VmValue

/-- A growable vector with the capacity of its buffer. -/
structure RVec (α : Type) where
  data : List α
  capacity : ℕ
  length_le : data.length ≤ capacity
  deriving DecidableEq

/-- The capacity of a buffer that was filled element by element. -/
structure VecGrowth where
  capacity : ℕ → ℕ
  le_capacity : ∀ n, n ≤ capacity n

def VecGrowth.doubling : VecGrowth where
  capacity n := if n = 0 then 0 else (fun c => if n ≤ c then c else 2 * c)^[n] 4
  le_capacity n := by
    split
    · omega
    · have hgrow : ∀ k, n ≤ (fun c => if n ≤ c then c else 2 * c)^[k] 4 ∨
          k < (fun c => if n ≤ c then c else 2 * c)^[k] 4 := by
        intro k
        induction k with
        | zero => exact Or.inr (by simp)
        | succ k ih =>
          rw [Function.iterate_succ_apply']
          split <;> omega
      rcases hgrow n with hn | hn <;> omega

namespace RVec

variable {α : Type}

def empty : RVec α := ⟨[], 0, le_rfl⟩

/-- A vector whose buffer is exactly filled, as `vec![x; n]` and `clone` build it. -/
def exact (xs : List α) : RVec α := ⟨xs, xs.length, le_rfl⟩

/-- A vector that grew while it was filled, as `push` and a fallible `collect` build it. -/
def grown (g : VecGrowth) (xs : List α) : RVec α := ⟨xs, g.capacity xs.length, g.le_capacity _⟩

def set (v : RVec α) (i : ℕ) (x : α) : RVec α :=
  ⟨v.data.set i x, v.capacity, by simpa using v.length_le⟩

@[simp] theorem grown_data (g : VecGrowth) (xs : List α) : (grown g xs).data = xs := rfl

@[simp] theorem grown_capacity (g : VecGrowth) (xs : List α) :
    (grown g xs).capacity = g.capacity xs.length := rfl

@[simp] theorem empty_capacity : (empty : RVec α).capacity = 0 := rfl

@[simp] theorem exact_data (xs : List α) : (exact xs).data = xs := rfl

@[simp] theorem exact_capacity (xs : List α) : (exact xs).capacity = xs.length := rfl

end RVec

structure OpaqueTypeId where
  proxyModule : String
  name : String
  deriving DecidableEq, Repr

/-- A handle of a host adapter: its binding, its type and its id. -/
structure AdapterHandleId where
  bindingId : ℕ
  typeId : OpaqueTypeId
  id : ℕ
  deriving DecidableEq, Repr

inductive HeapObject where
  | struct (moduleId layoutIdx : ℕ) (fields : RVec VmValue)
  | array (moduleId elementTy : ℕ) (elements : RVec VmValue)
  | tuple (elements : RVec VmValue)
  | choice (moduleId layoutIdx variantIdx : ℕ) (payload : VmValue)
  | adapterHandle (handle : AdapterHandleId)
  deriving DecidableEq

/-- `size_of` of the two types that `heap_bytes` charges for. -/
structure TypeSizes where
  object : ℕ
  value : ℕ
  deriving DecidableEq, Repr

namespace HeapObject

/-- The values that an object stores, in order. -/
def slots : HeapObject → List VmValue
  | struct _ _ fields => fields.data
  | array _ _ elements => elements.data
  | tuple elements => elements.data
  | choice _ _ _ payload => [payload]
  | adapterHandle _ => []

/-- `get_children`: the references that an object stores, in order. -/
def getChildren (obj : HeapObject) : List VmObjectRef :=
  obj.slots.filterMap VmValue.objectRef?

def heapBytes (sz : TypeSizes) : HeapObject → ℕ
  | struct _ _ fields => sz.object + fields.capacity * sz.value
  | array _ _ elements => sz.object + elements.capacity * sz.value
  | tuple elements => sz.object + elements.capacity * sz.value
  | choice _ _ _ _ | adapterHandle _ => sz.object

/-- Replace the value at a position of a struct, an array or a tuple. -/
def store (i : ℕ) (v : VmValue) : HeapObject → HeapObject
  | struct m l fields => struct m l (fields.set i v)
  | array m e elements => array m e (elements.set i v)
  | tuple elements => tuple (elements.set i v)
  | choice m l k payload => choice m l k payload
  | adapterHandle handle => adapterHandle handle

@[simp] theorem heapBytes_store (sz : TypeSizes) (i : ℕ) (v : VmValue) (o : HeapObject) :
    (o.store i v).heapBytes sz = o.heapBytes sz := by
  cases o <;> rfl

def handle? : HeapObject → Option AdapterHandleId
  | adapterHandle handle => some handle
  | _ => none

end HeapObject

inductive ResourceLimitKind where
  | heapObjects | heapBytes | callDepth | threads | futures | pendingRequests
  | mailboxMessages | mailboxBytes | eventQueue | kernelTasks | runnableThreads
  | externalHandles | timers | pendingStates
  deriving DecidableEq, Repr

structure LimitExceeded where
  resource : ResourceLimitKind
  current : ℕ
  requested : ℕ
  limit : ℕ
  deriving DecidableEq, Repr

inductive VmError where
  | resourceLimitExceeded (failure : LimitExceeded)
  | idCounterExhausted
  | invalidObjectReference
  | emptyCallStack
  | moduleNotFound (moduleId : ℕ)
  | typeOutOfBounds (index : ℕ)
  | fieldOutOfBounds (index : ℕ)
  | indexOutOfBounds (index : ℤ) (len : ℕ)
  | typeMismatch (expected : String)
  | divisionByZero
  | registerOutOfBounds (reg : ℕ)
  | constantOutOfBounds (index : ℕ)
  | functionOutOfBounds (index : ℕ)
  | invalidModule
  | panic (message : String)
  deriving DecidableEq, Repr

structure ThreadQuota where
  maxHeapObjects : ℕ
  maxHeapBytes : ℕ
  heapObjects : ℕ
  heapBytes : ℕ
  deriving DecidableEq, Repr

namespace ThreadQuota

def new (maxHeapObjects maxHeapBytes : ℕ) : ThreadQuota := ⟨maxHeapObjects, maxHeapBytes, 0, 0⟩

/-- The atomic counters wrap around on addition. -/
def fetchAdd (current amount : ℕ) : ℕ := (current + amount) % usizeSize

def fetchSub (current amount : ℕ) : ℕ :=
  (current + (usizeSize - amount % usizeSize)) % usizeSize

def tryReserveHeap (q : ThreadQuota) (objects bytes : ℕ) : Except LimitExceeded ThreadQuota :=
  if q.maxHeapObjects < usizeSaturatingAdd q.heapObjects objects then
    .error ⟨.heapObjects, q.heapObjects, objects, q.maxHeapObjects⟩
  else if q.maxHeapBytes < usizeSaturatingAdd q.heapBytes bytes then
    .error ⟨.heapBytes, q.heapBytes, bytes, q.maxHeapBytes⟩
  else
    .ok { q with
      heapObjects := fetchAdd q.heapObjects objects
      heapBytes := fetchAdd q.heapBytes bytes }

def releaseHeap (q : ThreadQuota) (objects bytes : ℕ) : ThreadQuota :=
  { q with
    heapObjects := fetchSub q.heapObjects objects
    heapBytes := fetchSub q.heapBytes bytes }

end ThreadQuota

end Galfus
