import Galfus.Vm.Holders

/-! # What handlers count

What each handler does to the counts of a thread. Handlers that allocate and store keep
them exact, `Move`, `LoadGlobal` and `StoreGlobal` retain what they write, and `LoadField`,
`LoadIndex`, `Cast` and `Fallback` write a value without retaining it.
-/

namespace Galfus

open Exec (bind_eq_ok pure_eq_ok lift_eq_ok throw_ne_ok get_eq_ok unwrap_eq_ok)

namespace ThreadState

variable {t t' : ThreadState} {r : VmObjectRef} {obj : HeapObject}

theorem currentModule_eq_ok {m : ℕ} : currentModule t = some (.ok m, t') ↔
    t.callStack.head?.map CallFrame.moduleId = some m ∧ t = t' := by
  simp only [currentModule, bind_eq_ok, get_eq_ok]
  constructor
  · rintro ⟨_, _, ⟨rfl, rfl⟩, hr⟩
    cases hc : t.callStack with
    | nil =>
      rw [hc] at hr
      exact absurd hr throw_ne_ok
    | cons f fs =>
      rw [hc] at hr
      obtain ⟨rfl, rfl⟩ := Exec.pure_eq_ok.mp hr
      exact ⟨rfl, rfl⟩
  · rintro ⟨hm, rfl⟩
    refine ⟨_, _, ⟨rfl, rfl⟩, ?_⟩
    cases hc : t.callStack with
    | nil => simp [hc] at hm
    | cons f fs => simpa [hc] using hm

theorem allocObject_eq_ok {ord : CollectOrder} : allocObject ord obj t = some (.ok r, t') ↔
    ∃ h, t.heap.alloc ord obj = some (h, .ok r) ∧ { t with heap := h } = t' := by
  rw [allocObject, Exec.zoom_eq_ok]
  simp [PrivateHeap.allocM]

theorem onHeap_eq_ok {f : PrivateHeap → PrivateHeap} {u : Unit} :
    onHeap f t = some (.ok u, t') ↔ { t with heap := f t.heap } = t' := Exec.modify_eq_ok

def peek (t : ThreadState) (reg : ℕ) : Option VmValue :=
  t.registers[t.currentRegisterBase + reg]?

def pointee (t : ThreadState) (reg : ℕ) : Option HeapObject := do
  let r ← (t.peek reg).bind VmValue.objectRef?
  (t.heap.getObject r).toOption

theorem pointee_eq_some {reg : ℕ}
    (hv : t.registers[t.currentRegisterBase + reg]? = some (.object r))
    (hg : t.heap.getObject r = .ok obj) : t.pointee reg = some obj := by
  simp [pointee, peek, hv, hg, VmValue.objectRef?, Except.toOption]

def values (t : ThreadState) (regs : List ℕ) : List VmValue :=
  regs.filterMap fun reg => t.registers[t.currentRegisterBase + reg]?

/-- The edges to the objects in these registers can all be counted. -/
def EdgesLeft (t : ThreadState) (regs : List ℕ) : Prop :=
  ∀ r ∈ objectsIn (t.values regs),
    t.heap.edgesAt r.index + (objectsIn (t.values regs)).count r ≤ u32Max

instance (t : ThreadState) (regs : List ℕ) : Decidable (t.EdgesLeft regs) :=
  inferInstanceAs (Decidable (∀ r ∈ objectsIn (t.values regs), _ ≤ u32Max))

theorem InWindow.objectsIn_heldValues {reg : ℕ} {v : VmValue} (hw : t.InWindow reg)
    (hv : t.registers[t.currentRegisterBase + reg]? = some v) :
    ∀ r ∈ objectsIn [v], r ∈ objectsIn t.heldValues := by
  intro r hr
  obtain rfl : .object r = v := by simpa [mem_objectsIn] using hr
  exact mem_objectsIn.mpr (hw.mem_heldValues hv)

theorem CountsExact.edgesAt (he : t.CountsExact) (hr : r ∈ objectsIn t.heldValues) :
    t.heap.edgesAt r.index = t.heap.occurrences r := by
  obtain ⟨s, hs⟩ := PrivateHeap.alive_iff_resolve.mp (he.alive r (.inl (mem_objectsIn.mp hr)))
  rw [PrivateHeap.edgesAt_eq (PrivateHeap.resolve_eq_some_iff.mp hs).1, he.edges r s hs]

theorem CountsExact.edgesLeft {regs : List ℕ} (he : t.CountsExact)
    (hw : ∀ reg ∈ regs, t.InWindow reg) (hl : t.EdgesLeft regs)
    (hr : r ∈ objectsIn (t.values regs)) :
    t.heap.occurrences r + (objectsIn (t.values regs)).count r ≤ u32Max := by
  obtain ⟨reg, hrg, hv⟩ := List.mem_filterMap.mp (mem_objectsIn.mp hr)
  rw [← he.edgesAt (mem_objectsIn.mpr ((hw reg hrg).mem_heldValues hv))]
  exact hl r hr

theorem CountsExact.retainEdgeVal {reg : ℕ} {v : VmValue} (he : t.CountsExact)
    (hw : t.InWindow reg) (hv : t.registers[t.currentRegisterBase + reg]? = some v)
    (hl : t.EdgesLeft [reg]) :
    (t.heap.retainEdgeVal v).Balanced (objectsIn t.heldValues) (objectsIn [v]) := by
  have hvl : t.values [reg] = [v] := by simp [values, hv]
  obtain ⟨hb, -⟩ := (countsExact_iff.mp he).retainEdgeVal (hw.objectsIn_heldValues hv)
    fun r hr => by
      have := he.edgesLeft (r := r) (by simpa using hw) hl (by rwa [hvl])
      have := Multiset.count_pos.mpr hr
      rw [hvl] at *
      rw [Multiset.count_zero]
      omega
  rwa [add_zero] at hb

section Write

variable {u : Unit} {reg : ℕ} {v : VmValue}

theorem CountsExact.writeReg (he : t.CountsExact) (hw : t.InWindow reg)
    (hr : ThreadState.writeReg reg v t = some (.ok u, t')) :
    t'.CountsExact ↔ ∀ r, v ≠ .object r := by
  have hb : t.heap.Balanced (0 + objectsIn t.heldValues) 0 := by
    exact countsExact_iff.mp he
  rw [writeReg_countsExact hr hw hb, eq_comm, objectsIn_singleton_eq_zero]

theorem CountsExact.retainAnchorVal (he : t.CountsExact)
    (hv : ∀ r, v = .object r → v ∈ t.heldValues) :
    ∃ X, (t.heap.retainAnchorVal v).Balanced (X + objectsIn t.heldValues) 0 ∧
      (X = objectsIn [v] ↔ ∀ r, v = .object r → t.heap.anchorsAt r.index < u32Max) := by
  refine (countsExact_iff.mp he).retainAnchorVal fun r hr => ?_
  obtain rfl : .object r = v := by simpa [mem_objectsIn] using hr
  exact mem_objectsIn.mpr (hv r rfl)

theorem CountsExact.retain_writeReg (he : t.CountsExact)
    (hv : ∀ r, v = .object r → v ∈ t.heldValues) (hw : t.InWindow reg)
    (hr : ThreadState.writeReg reg v { t with heap := t.heap.retainAnchorVal v } =
      some (.ok u, t')) :
    t'.CountsExact ↔ ∀ r, v = .object r → t.heap.anchorsAt r.index < u32Max := by
  obtain ⟨X, hb, hX⟩ := he.retainAnchorVal hv
  rw [writeReg_countsExact hr hw hb, hX]

end Write

end ThreadState

namespace VirtualMachine

open ThreadState

variable {vm : VirtualMachine} {os : HashOrders} {t t' : ThreadState} {v v' : VmValue}
  {r : VmObjectRef} {obj : HeapObject} {step : VmStep} {i : BytecodeModule} {d : ℕ}
  {o : CollectOrder}

theorem currentImage_eq_ok : vm.currentImage t = some (.ok i, t') ↔
    (∃ m, t.callStack.head?.map CallFrame.moduleId = some m ∧ vm.getModule m = .ok i) ∧ t = t' := by
  simp only [currentImage, bind_eq_ok, currentModule_eq_ok, lift_eq_ok]
  constructor
  · rintro ⟨m, _, ⟨hm, rfl⟩, hi, rfl⟩
    exact ⟨⟨m, hm, hi⟩, rfl⟩
  · rintro ⟨⟨m, hm, hi⟩, rfl⟩
    exact ⟨m, _, ⟨hm, rfl⟩, hi, rfl⟩

theorem zeroValueForType_eq_ok {typeIdx : ℕ}
    (hr : vm.zeroValueForType typeIdx t = some (.ok v, t')) :
    objectsIn [v] = 0 ∧ t = t' := by
  simp only [zeroValueForType, bind_eq_ok, currentImage_eq_ok, lift_eq_ok] at hr
  obtain ⟨i, _, ⟨-, rfl⟩, ty, _, ⟨-, rfl⟩, hz, rfl⟩ := hr
  refine ⟨?_, rfl⟩
  cases ty <;> cases hz <;> rfl

theorem deref_eq_ok : deref v t = some (.ok (r, obj), t') ↔
    v = .object r ∧ t.heap.getObject r = .ok obj ∧ t = t' := by
  cases v with
  | object x =>
    simp only [deref, bind_eq_ok, get_eq_ok, lift_eq_ok, pure_eq_ok,
      Prod.mk.injEq, VmValue.object.injEq]
    constructor
    · rintro ⟨_, _, ⟨rfl, rfl⟩, o, _, ⟨ho, rfl⟩, ⟨rfl, rfl⟩, rfl⟩
      exact ⟨rfl, ho, rfl⟩
    · rintro ⟨rfl, ho, rfl⟩
      exact ⟨_, _, ⟨rfl, rfl⟩, obj, _, ⟨ho, rfl⟩, ⟨rfl, rfl⟩, rfl⟩
  | _ => exact iff_of_false throw_ne_ok nofun

theorem castInt_objectsIn {z : ℤ} {ty : BytecodeType} (hr : vm.castInt z ty = some v) :
    objectsIn [v] = 0 := by
  cases ty <;> cases hr <;> rfl

theorem castFloat_objectsIn {tr : ℤ → ℤ → ℤ} {s : BitVec 32} {d : BitVec 64}
    {ty : BytecodeType} (hr : castFloat tr s d ty = some v) :
    objectsIn [v] = 0 := by
  cases ty <;> cases hr <;> rfl

theorem castNumber_objectsIn {ty : BytecodeType} (hr : vm.castNumber ty v = some v') :
    objectsIn [v] = 0 ∧ objectsIn [v'] = 0 := by
  cases v with
  | int8 | int16 | int32 | int64 | uint8 | uint16 | uint32 | uint64 =>
    exact ⟨rfl, castInt_objectsIn hr⟩
  | float32 | float64 => exact ⟨rfl, castFloat_objectsIn hr⟩
  | _ => cases hr

theorem executeCast_eq_ok {typeIdx : ℕ} (hr : vm.executeCast v typeIdx t = some (.ok v', t')) :
    objectsIn [v'] = objectsIn [v] ∧ t = t' := by
  simp only [executeCast, bind_eq_ok, currentModule_eq_ok, lift_eq_ok, get_eq_ok,
    unwrap_eq_ok] at hr
  obtain ⟨_, _, ⟨-, rfl⟩, _, _, ⟨-, rfl⟩, ty, _, ⟨-, rfl⟩, _, _, ⟨rfl, rfl⟩, isInstance, _,
    ⟨-, rfl⟩, hr⟩ := hr
  cases isInstance with
  | true =>
    obtain ⟨rfl, rfl⟩ := Exec.pure_eq_ok.mp hr
    exact ⟨rfl, rfl⟩
  | false =>
    cases hc : vm.castNumber ty v with
    | none =>
      rw [hc] at hr
      exact absurd hr throw_ne_ok
    | some w =>
      rw [hc] at hr
      obtain ⟨rfl, rfl⟩ := Exec.pure_eq_ok.mp hr
      obtain ⟨hv, hw⟩ := castNumber_objectsIn hc
      exact ⟨hw.trans hv.symm, rfl⟩

/-- An object whose children are retained is allocated into a register. -/
theorem allocToReg_countsExact (hr : allocToReg os d obj t = some (.ok step, t'))
    (hw : t.InWindow d) (hh : t.heap.Harmless (os.collect 0))
    (hb : t.heap.Balanced (objectsIn t.heldValues) obj.getChildren) : t'.CountsExact := by
  simp only [allocToReg, bind_eq_ok, allocObject_eq_ok, pure_eq_ok] at hr
  obtain ⟨r, _, ⟨h, ha, rfl⟩, _, _, hwr, -, rfl⟩ := hr
  have hb' : h.Balanced (r ::ₘ objectsIn t.heldValues) 0 :=
    .alloc (by rwa [add_zero]) hh ha
  exact (writeReg_countsExact (X := {r}) hwr hw hb').mpr rfl

/-- A slot of an object takes a retained value, and the edge of the old one is released. -/
theorem replaceSlot_countsExact {i : ℕ} {o : VmValue}
    (hr : replaceSlot r obj i v o t = some (.ok step, t'))
    (hg : t.heap.getObject r = .ok obj) (hs : (obj.store i v).slots = obj.slots.set i v)
    (hl : obj.slots[i]? = some o)
    (hb : t.heap.Balanced (objectsIn t.heldValues) (objectsIn [v])) : t'.CountsExact := by
  simp only [replaceSlot, bind_eq_ok, get_eq_ok, lift_eq_ok, onHeap_eq_ok, pure_eq_ok] at hr
  obtain ⟨_, _, ⟨rfl, rfl⟩, h, _, ⟨hst, rfl⟩, _, _, rfl, -, rfl⟩ := hr
  obtain ⟨A, hA, hA'⟩ := objectsIn_set hl v
  have hch : objectsIn (obj.store i v).slots + objectsIn [o] =
      objectsIn obj.slots + objectsIn [v] := by
    rw [hs, hA, hA', add_right_comm, add_comm (objectsIn [v])]
    exact add_right_comm _ _ _
  rw [countsExact_iff]
  apply PrivateHeap.Balanced.releaseEdgeVal
  exact .setObject (N := objectsIn [v]) (by rwa [add_zero]) hg hst hch

theorem gatherElements_balanced {regs : List ℕ} {vs : List VmValue} {B : Multiset VmObjectRef}
    (hrn : gatherElements regs t = some (.ok vs, t')) (hw : ∀ reg ∈ regs, t.InWindow reg)
    (hb : t.heap.Balanced (objectsIn t.heldValues) B)
    (hlt : ∀ r ∈ objectsIn (t.values regs),
      t.heap.occurrences r + B.count r + (objectsIn (t.values regs)).count r ≤ u32Max)
    (hh : t.heap.Harmless o) :
    ∃ h, t' = { t with heap := h } ∧ h.Balanced (objectsIn t.heldValues) (objectsIn vs + B) ∧
      h.Harmless o := by
  induction regs generalizing t B vs with
  | nil =>
    simp only [gatherElements, gather, pure_eq_ok] at hrn
    obtain ⟨rfl, rfl⟩ := hrn
    exact ⟨t.heap, rfl, (zero_add B).symm ▸ hb, hh⟩
  | cons reg regs ih =>
    simp only [gatherElements, gather, bind_eq_ok, readReg_eq_ok, onHeap_eq_ok, pure_eq_ok] at hrn
    obtain ⟨v, _, ⟨hv, rfl⟩, _, _, rfl, vs, _, hrn, rfl, rfl⟩ := hrn
    have hvl : objectsIn (t.values (reg :: regs)) = objectsIn [v] + objectsIn (t.values regs) := by
      rw [← objectsIn_cons, values, List.filterMap_cons, hv]
      rfl
    have hhl := (hw reg (by simp)).objectsIn_heldValues hv
    rw [hvl] at hlt
    obtain ⟨hb₁, hoc⟩ := hb.retainEdgeVal hhl fun r hr => by
      have := hlt r (Multiset.mem_add.mpr (.inl hr))
      have := Multiset.count_pos.mpr hr
      rw [Multiset.count_add] at *
      omega
    obtain ⟨h, rfl, hb', hh'⟩ := ih hrn (fun r' hrg => hw r' (by simp [hrg])) hb₁ (fun r hr => by
        have := hlt r (Multiset.mem_add.mpr (.inr hr))
        rw [Multiset.count_add] at *
        rw [hoc]
        show _ + _ + (objectsIn (t.values regs)).count r ≤ u32Max
        omega) (hh.retainEdgeVal hb hhl)
    refine ⟨h, rfl, ?_, hh'⟩
    rw [objectsIn_cons, add_assoc, add_left_comm]
    exact hb'

variable {regs : List ℕ} {o' field val typeIdx idx src fallback moduleId globalIdx : ℕ}

variable (he : t.CountsExact)
include he

section

variable (hw : t.InWindow d)
include hw

theorem executeAllocLocal_countsExact (hh : t.heap.Harmless (os.collect 0))
    (hr : vm.executeAllocLocal os d typeIdx t = some (.ok step, t')) : t'.CountsExact := by
  simp only [executeAllocLocal, bind_eq_ok, currentImage_eq_ok, lift_eq_ok] at hr
  obtain ⟨i, _, ⟨-, rfl⟩, ty, _, ⟨-, rfl⟩, hr⟩ := hr
  split at hr
  · rename_i layoutIdx
    cases hl : i.structLayouts[layoutIdx]? with
    | none =>
      rw [hl] at hr
      exact absurd hr throw_ne_ok
    | some l =>
      simp only [hl, bind_eq_ok, currentModule_eq_ok] at hr
      obtain ⟨m, _, ⟨-, rfl⟩, hr⟩ := hr
      refine allocToReg_countsExact hr hw hh ?_
      rw [show ((HeapObject.struct _ _ (.exact _)).getChildren : Multiset VmObjectRef) = 0 from
        objectsIn_replicate rfl _]
      exact countsExact_iff.mp he
  · exact absurd hr throw_ne_ok

theorem executeNewArray_countsExact {lr : ℕ} (hh : t.heap.Harmless (os.collect 0))
    (hr : vm.executeNewArray os d typeIdx lr t = some (.ok step, t')) :
    t'.CountsExact := by
  simp only [executeNewArray, bind_eq_ok, currentImage_eq_ok, lift_eq_ok] at hr
  obtain ⟨i, _, ⟨-, rfl⟩, ty, _, ⟨-, rfl⟩, hr⟩ := hr
  split at hr
  · simp only [bind_eq_ok, readReg_eq_ok, lift_eq_ok, currentModule_eq_ok] at hr
    obtain ⟨_, _, ⟨-, rfl⟩, l, _, ⟨-, rfl⟩, zero, _, hz, m, _, ⟨-, rfl⟩, hr⟩ := hr
    obtain ⟨hp, rfl⟩ := zeroValueForType_eq_ok hz
    refine allocToReg_countsExact hr hw hh ?_
    rw [show ((HeapObject.array _ _ (.exact _)).getChildren : Multiset VmObjectRef) = 0 from
      objectsIn_replicate hp _]
    exact countsExact_iff.mp he
  · exact absurd hr throw_ne_ok

omit hw in
theorem executeStoreField_countsExact (hvl : t.InWindow val) (hl : t.EdgesLeft [val])
    (hr : executeStoreField o' field val t = some (.ok step, t')) : t'.CountsExact := by
  simp only [executeStoreField, bind_eq_ok, readReg_eq_ok, onHeap_eq_ok, Prod.exists,
    deref_eq_ok] at hr
  obtain ⟨ov, _, ⟨ho, rfl⟩, v, _, ⟨hv, rfl⟩, _, _, rfl, r, hep, _, ⟨rfl, hg, rfl⟩, hr⟩ :=
    hr
  have hb := he.retainEdgeVal hvl hv hl
  cases hep with
  | struct m l fs =>
    cases hold : fs.data[field]? with
    | none =>
      simp only [hold] at hr
      cases hr
    | some o =>
      simp only [hold] at hr
      exact replaceSlot_countsExact hr hg rfl hold hb
  | _ => exact absurd hr throw_ne_ok

omit hw in
theorem executeStoreIndex_countsExact {a : ℕ} (hvl : t.InWindow val)
    (hlf : t.EdgesLeft [val]) (hrn : vm.executeStoreIndex a idx val t = some (.ok step, t')) :
    t'.CountsExact := by
  simp only [executeStoreIndex, bind_eq_ok, readReg_eq_ok, onHeap_eq_ok, Prod.exists,
    deref_eq_ok, lift_eq_ok] at hrn
  obtain ⟨av, _, ⟨har, rfl⟩, iv, _, ⟨-, rfl⟩, ri, _, ⟨-, rfl⟩, v, _, ⟨hv, rfl⟩, _, _,
    rfl, r, hep, _, ⟨rfl, hgt, rfl⟩, elements, _, ⟨hel, rfl⟩, hrn⟩ := hrn
  have hb := he.retainEdgeVal hvl hv hlf
  cases hi : resolveRawArrayIndex ri elements.length with
  | none =>
    rw [hi] at hrn
    exact absurd hrn throw_ne_ok
  | some i =>
    simp only [hi] at hrn
    cases hep with
    | array m et ss =>
      cases hel
      simp only [bind_eq_ok, unwrap_eq_ok] at hrn
      obtain ⟨s, _, hst, o, _, ⟨h, rfl⟩, hrn⟩ := hrn
      obtain ⟨hsm, rfl⟩ := executeCast_eq_ok hst
      exact replaceSlot_countsExact hrn hgt rfl h (hsm ▸ hb)
    | tuple ss =>
      cases hel
      simp only [bind_eq_ok, pure_eq_ok, unwrap_eq_ok] at hrn
      obtain ⟨_, _, ⟨rfl, rfl⟩, o, _, ⟨h, rfl⟩, hrn⟩ := hrn
      exact replaceSlot_countsExact hrn hgt rfl h hb
    | _ => cases hel

theorem executeNewTuple_countsExact {s c : ℕ} (hrg : ∀ reg ∈ regRange s c, t.InWindow reg)
    (hl : t.EdgesLeft (regRange s c)) (hh : t.heap.Harmless (os.collect 0))
    (hrn : vm.executeNewTuple os d typeIdx s c t = some (.ok step, t')) :
    t'.CountsExact := by
  simp only [executeNewTuple, bind_eq_ok, currentImage_eq_ok, lift_eq_ok] at hrn
  obtain ⟨i, _, ⟨-, rfl⟩, ty, _, ⟨-, rfl⟩, hrn⟩ := hrn
  split at hrn
  · split at hrn
    · simp only [bind_eq_ok] at hrn
      obtain ⟨vs, _, hg, hrn⟩ := hrn
      obtain ⟨h, rfl, hb, hh'⟩ := gatherElements_balanced hg hrg (countsExact_iff.mp he)
        (fun r hr => by simpa using he.edgesLeft hrg hl hr) hh
      rw [add_zero] at hb
      exact allocToReg_countsExact hrn hw hh' hb
    · exact absurd hrn throw_ne_ok
  · exact absurd hrn throw_ne_ok

theorem executeNewChoice_countsExact {vi p : ℕ} (hp : t.InWindow p)
    (hl : t.EdgesLeft [p]) (hh : t.heap.Harmless (os.collect 0))
    (hr : vm.executeNewChoice os d typeIdx vi p t = some (.ok step, t')) :
    t'.CountsExact := by
  simp only [executeNewChoice, bind_eq_ok, currentImage_eq_ok, lift_eq_ok] at hr
  obtain ⟨i, _, ⟨-, rfl⟩, ty, _, ⟨-, rfl⟩, hr⟩ := hr
  split at hr
  · simp only [bind_eq_ok, readReg_eq_ok, onHeap_eq_ok, currentModule_eq_ok] at hr
    obtain ⟨v, _, ⟨hv, rfl⟩, _, _, rfl, m, _, ⟨-, rfl⟩, hr⟩ := hr
    have hh' := hh.retainEdgeVal (countsExact_iff.mp he) (hp.objectsIn_heldValues hv)
    exact allocToReg_countsExact hr hw hh' (he.retainEdgeVal hp hv hl)
  · exact absurd hr throw_ne_ok

/-- The value that an instruction writes to a register without retaining it. -/
def unretained (t : ThreadState) : Instruction → Option VmValue
  | .loadField _ obj field => do
    let heapObj ← t.pointee obj
    (fieldOf field heapObj).toOption
  | .loadIndex _ arr idx => do
    let heapObj ← t.pointee arr
    let elements ← (elementsOf heapObj).toOption
    let rawIndex ← (t.peek idx).bind intValue?
    let i ← resolveRawArrayIndex rawIndex elements.length
    elements[i]?
  | .cast _ src _ => t.peek src
  | .fallback _ src fallback => if t.peek src = some .null then t.peek fallback else t.peek src
  | _ => none

/-- The value that an instruction retains for a register or a global. -/
def retained (t : ThreadState) : Instruction → Option VmValue
  | .move _ src | .storeGlobal _ _ src => t.peek src
  | .loadGlobal _ moduleId globalIdx => some ((t.getGlobals moduleId).getD globalIdx .null)
  | _ => none

theorem executeLoadField_countsExact (hr : executeLoadField d o' field t = some (.ok step, t')) :
    t'.CountsExact ↔ ∀ r, unretained t (.loadField d o' field) ≠ some (.object r) := by
  simp only [executeLoadField, bind_eq_ok, readReg_eq_ok, Prod.exists, deref_eq_ok,
    lift_eq_ok, pure_eq_ok] at hr
  obtain ⟨ov, _, ⟨ho, rfl⟩, r, hep, _, ⟨rfl, hg, rfl⟩, v, _, ⟨hv, rfl⟩, _, _, hwr, -,
    rfl⟩ := hr
  have hvl : unretained t (.loadField d o' field) = some v := by
    simp [unretained, pointee_eq_some ho hg, hv, Except.toOption]
  rw [he.writeReg hw hwr, hvl]
  simp

theorem executeLoadIndex_countsExact {a : ℕ}
    (hrn : executeLoadIndex d a idx t = some (.ok step, t')) :
    t'.CountsExact ↔ ∀ r, unretained t (.loadIndex d a idx) ≠ some (.object r) := by
  simp only [executeLoadIndex, bind_eq_ok, readReg_eq_ok, Prod.exists, deref_eq_ok,
    lift_eq_ok, pure_eq_ok] at hrn
  obtain ⟨av, _, ⟨ha, rfl⟩, iv, _, ⟨hid, rfl⟩, ri, _, ⟨hr, rfl⟩, r, hep, _,
    ⟨rfl, hg, rfl⟩, elements, _, ⟨hel, rfl⟩, _, _, hwr, -, rfl⟩ := hrn
  have hit : intValue? iv = some ri := by
    unfold toRawArrayIndex at hr
    split at hr <;> cases hr
    assumption
  have hv : unretained t (.loadIndex d a idx) =
      (resolveRawArrayIndex ri elements.length).bind fun i => elements[i]? := by
    simp [unretained, pointee_eq_some ha hg, peek, hid, hel, hit, Except.toOption]
  rw [he.writeReg hw hwr, hv]
  cases hi : resolveRawArrayIndex ri elements.length with
  | none => simp
  | some i => cases he : elements[i]? <;> simp [he]

theorem executeCastTo_countsExact (hr : vm.executeCastTo d src typeIdx t = some (.ok step, t')) :
    t'.CountsExact ↔ ∀ r, unretained t (.cast d src typeIdx) ≠ some (.object r) := by
  simp only [executeCastTo, bind_eq_ok, readReg_eq_ok, pure_eq_ok] at hr
  obtain ⟨v, _, ⟨hv, rfl⟩, v', _, hc, _, _, hwr, -, rfl⟩ := hr
  obtain ⟨hs, rfl⟩ := executeCast_eq_ok hc
  have hvl : unretained t (.cast d src typeIdx) = some v := hv
  rw [he.writeReg hw hwr, ← objectsIn_singleton_eq_zero, hs, objectsIn_singleton_eq_zero, hvl]
  simp

theorem executeFallback_countsExact (hr : executeFallback d src fallback t = some (.ok step, t')) :
    t'.CountsExact ↔ ∀ r, unretained t (.fallback d src fallback) ≠ some (.object r) := by
  simp only [executeFallback, bind_eq_ok, readReg_eq_ok, pure_eq_ok] at hr
  obtain ⟨v, _, ⟨hv, rfl⟩, w, _, ⟨hw', rfl⟩, _, _, hwr, -, rfl⟩ := hr
  have hvl : unretained t (.fallback d src fallback) = some (if v = .null then w else v) := by
    simp only [unretained, peek, hv, hw', Option.some.injEq]
    split <;> rfl
  rw [he.writeReg hw hwr, hvl]
  simp

theorem executeInstanceof_countsExact
    (hr : vm.executeInstanceof d src typeIdx t = some (.ok step, t')) : t'.CountsExact := by
  simp only [executeInstanceof, bind_eq_ok, readReg_eq_ok, get_eq_ok] at hr
  obtain ⟨v, _, ⟨-, rfl⟩, _, _, ⟨rfl, rfl⟩, hr⟩ := hr
  have hwr : ∀ b, (do writeReg d (.bool b); pure .continue : ThreadExec VmStep) t =
      some (.ok step, t') → t'.CountsExact := by
    intro b hr
    simp only [bind_eq_ok, pure_eq_ok] at hr
    obtain ⟨_, _, hwr, -, rfl⟩ := hr
    exact (he.writeReg hw hwr).mpr nofun
  cases hc : t.callStack with
  | nil =>
    rw [hc] at hr
    exact hwr false hr
  | cons f fs =>
    rw [hc] at hr
    cases hm : vm.modules f.moduleId with
    | none =>
      simp only [hm] at hr
      exact hwr false hr
    | some i =>
      simp only [hm] at hr
      rw [bind_eq_ok] at hr
      obtain ⟨b, _, hb, hr⟩ := hr
      obtain ⟨-, rfl⟩ := Exec.unwrap_eq_ok.mp hb
      exact hwr b hr

theorem executeMove_countsExact (hs : t.InWindow src)
    (hr : executeMove d src t = some (.ok step, t')) :
    t'.CountsExact ↔ ∀ r, retained t (.move d src) = some (.object r) →
      t.heap.anchorsAt r.index < u32Max := by
  simp only [executeMove, bind_eq_ok, readReg_eq_ok, onHeap_eq_ok, pure_eq_ok] at hr
  obtain ⟨v, _, ⟨hv, rfl⟩, _, _, rfl, _, _, hwr, -, rfl⟩ := hr
  have hvl : retained t (.move d src) = some v := hv
  rw [he.retain_writeReg (fun _ _ => hs.mem_heldValues hv) hw hwr, hvl]
  simp

omit hw in
omit he in
theorem checkGlobal_eq_ok {u : Unit}
    (hr : vm.checkGlobal moduleId globalIdx t = some (.ok u, t')) : t = t' := by
  simp only [checkGlobal, bind_eq_ok, lift_eq_ok] at hr
  obtain ⟨m, _, ⟨-, rfl⟩, hr⟩ := hr
  split at hr
  · cases hr
  · exact (Exec.pure_eq_ok.mp hr).2

theorem executeLoadGlobal_countsExact
    (hrn : vm.executeLoadGlobal d moduleId globalIdx t = some (.ok step, t')) :
    t'.CountsExact ↔ ∀ r, retained t (.loadGlobal d moduleId globalIdx) = some (.object r) →
      t.heap.anchorsAt r.index < u32Max := by
  simp only [executeLoadGlobal, bind_eq_ok, get_eq_ok, onHeap_eq_ok, pure_eq_ok] at hrn
  obtain ⟨_, _, hc, _, _, ⟨rfl, rfl⟩, _, _, rfl, _, _, hwr, -, rfl⟩ := hrn
  obtain rfl := checkGlobal_eq_ok hc
  have hh : ∀ r, (t.getGlobals moduleId).getD globalIdx .null = .object r →
      (t.getGlobals moduleId).getD globalIdx .null ∈ t.heldValues := by
    intro r hr
    cases hg : (t.getGlobals moduleId)[globalIdx]? with
    | none => simp [hg] at hr
    | some v =>
      rw [List.getD_eq_getElem?_getD, hg]
      exact mem_heldValues_of_getGlobals hg
  rw [he.retain_writeReg hh hw hwr]
  simp [retained]

end

theorem executeStoreGlobal_countsExact (hs : t.InWindow src)
    (hr : vm.executeStoreGlobal moduleId globalIdx src t = some (.ok step, t')) :
    t'.CountsExact ↔ ∀ r, retained t (.storeGlobal moduleId globalIdx src) = some (.object r) →
      t.heap.anchorsAt r.index < u32Max := by
  simp only [executeStoreGlobal, bind_eq_ok, get_eq_ok, readReg_eq_ok, onHeap_eq_ok,
    Exec.modify_eq_ok, pure_eq_ok] at hr
  obtain ⟨_, _, hc, v, _, ⟨hv, rfl⟩, _, _, rfl, _, _, ⟨rfl, rfl⟩, _, _, rfl, -, rfl⟩ := hr
  obtain rfl := checkGlobal_eq_ok hc
  have hvl : retained t (.storeGlobal moduleId globalIdx src) = some v := hv
  obtain ⟨X, hb, hX⟩ := he.retainAnchorVal fun _ _ => hs.mem_heldValues hv
  let t₁ : ThreadState := { t with heap := t.heap.retainAnchorVal v }
  refine (countsExact_overwrite (t := t₁) hb rfl
    (storeGlobal_heldValues t₁ moduleId globalIdx v)).trans ?_
  rw [hX, hvl]
  simp

theorem executeDrop_countsExact {reg : ℕ} (hw : t.InWindow reg)
    (hr : vm.executeDrop reg t = some (.ok step, t')) : t'.CountsExact := by
  simp only [executeDrop, bind_eq_ok, readReg_eq_ok, futureHandlesInValue, get_eq_ok,
    unwrap_eq_ok, pure_eq_ok] at hr
  obtain ⟨v, _, ⟨-, rfl⟩, i, _, ⟨_, _, ⟨rfl, rfl⟩, _, _, ⟨-, rfl⟩, -, rfl⟩, _, t₁, hwr, _, _,
    ⟨rfl, rfl⟩, dropped, _, ⟨-, rfl⟩, hr⟩ := hr
  have he₁ : t₁.CountsExact := (he.writeReg hw hwr).mpr nofun
  split at hr
  · obtain ⟨-, rfl⟩ := Exec.pure_eq_ok.mp hr
    exact he₁
  · obtain ⟨-, rfl⟩ := Exec.pure_eq_ok.mp hr
    exact he₁

end VirtualMachine

end Galfus
