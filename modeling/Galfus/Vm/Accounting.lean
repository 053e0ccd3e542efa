import Galfus.Vm.CopyQuota

/-! # The books of a thread

Runs of allocations, stores, copies, frees and collections on the heap of a thread.
As long as every step fits, the quota is exact in every state, no release takes more
than is reserved, and dropping the heap returns all of it.
-/

namespace Galfus

def PrivateHeap.storeSlot (h : PrivateHeap) (r : VmObjectRef) (i : ℕ) (v : VmValue) :
    Except VmError PrivateHeap := do
  let obj ← h.getObject r
  h.setObject r (obj.store i v)

/-- What a thread does to its heap. `copying` leaves a copy under way, after the first
`n` placeholders are allocated. -/
inductive QuotaOp where
  | alloc (ord : CollectOrder) (obj : HeapObject)
  | store (r : VmObjectRef) (i : ℕ) (v : VmValue)
  | copy (order : DrainOrder VmObjectRef) (ords : ℕ → CollectOrder) (v : VmValue)
  | copying (order : DrainOrder VmObjectRef) (ords : ℕ → CollectOrder) (n : ℕ) (r : VmObjectRef)
  | count (op : CountOp)

namespace QuotaOp

/-- The heap after an operation, whether or not it reports an error. -/
def apply (vm : VirtualMachine) (h : PrivateHeap) : QuotaOp → Option PrivateHeap
  | alloc ord obj => (h.alloc ord obj).map Prod.fst
  | store r i v => some (h.orKeep (h.storeSlot r i v))
  | copy order ords v => (vm.deepCopyValue order ords v h).map Prod.snd
  | copying order ords n r =>
    match vm.discoverStrongCopyClosure h r with
    | none => none
    | some (.error _) => some h
    | some (.ok closure) =>
      (vm.allocateCopyPlaceholders ords ((order.drain closure).take n) h).map Prod.snd
  | count op => op.apply h

/-- Allocations find a slot and fit the byte counter, and copies keep the sizes of their
placeholders or end before they fill one. -/
def Fits (vm : VirtualMachine) (h : PrivateHeap) : QuotaOp → Prop
  | alloc ord obj => h.AllocFits ord obj
  | copy _ _ v => ∀ r rs, v = .object r → vm.IsClosure h r rs → vm.CopyFits h rs
  | copying _ _ _ r => ∀ rs, vm.IsClosure h r rs → h.Admits rs.length
        (rs.map fun x => vm.placeholderBytes h.sizes (VirtualMachine.original h x)).sum
  | _ => True

end QuotaOp

namespace PrivateHeap

variable {vm : VirtualMachine} {h h' : PrivateHeap} {r : VmObjectRef} {i : ℕ} {v : VmValue}

theorem Accounted.storeSlot (ha : h.Accounted) (hr : h.storeSlot r i v = .ok h') :
    h'.Accounted := by
  unfold PrivateHeap.storeSlot at hr
  cases ho : h.getObject r with
  | error e => simp [ho, bind, Except.bind] at hr
  | ok o =>
    simp only [ho, bind, Except.bind] at hr
    exact ha.setObject ho (HeapObject.heapBytes_store _ _ _ _) hr

theorem Admits.mono {n m b c : ℕ} (ha : h.Admits n b) (hn : m ≤ n) (hb : c ≤ b) : h.Admits m c :=
  ⟨hn.trans ha.slots, ha.fitting.mono hb⟩

theorem Accounted.apply (ha : h.Accounted) (op : QuotaOp) (hft : op.Fits vm h)
    (hrn : op.apply vm h = some h') : h'.Accounted := by
  cases op with
  | alloc od ob =>
    obtain ⟨⟨g, rs⟩, hal, rfl⟩ := Option.map_eq_some_iff.mp hrn
    exact ha.alloc hft hal
  | store r i v =>
    cases hrn
    cases hst : h.storeSlot r i v with
    | error e => exact ha
    | ok g => exact ha.storeSlot hst
  | copy o os v =>
    obtain ⟨⟨rs, g⟩, hcp, rfl⟩ := Option.map_eq_some_iff.mp hrn
    have haf := VirtualMachine.deepCopyValue_accounted ha hft h rfl rs g hcp
    cases rs <;> exact haf
  | copying o os n r =>
    simp only [QuotaOp.apply] at hrn
    split at hrn
    · cases hrn
    · cases hrn
      exact ha
    · rename_i closure hfn
      obtain ⟨⟨rs, g⟩, hpl, rfl⟩ := Option.map_eq_some_iff.mp hrn
      obtain ⟨hcl, hav⟩ := VirtualMachine.isClosure_drain o hfn
      obtain ⟨hc, hln⟩ := VirtualMachine.copying_originals ha hcl.1 hav
      have hsh : ((o.drain closure).take n).length ≤ (o.drain closure).length := by
        rw [List.length_take]
        exact min_le_right _ _
      refine (VirtualMachine.allocateCopyPlaceholders_copying hc
        (fun x hx => VirtualMachine.mem_originals (List.mem_of_mem_take hx)) (by omega)
        ((hft _ hcl).mono hsh ?_) hpl).1
      rw [List.map_take]
      exact (List.take_sublist n _).sum_le_sum fun _ _ => Nat.zero_le _
  | count op => exact ha.freesTo (op.freesTo hrn)

def ThreadStep (vm : VirtualMachine) (h h' : PrivateHeap) : Prop :=
  ∃ op : QuotaOp, op.apply vm h = some h'

def FittingStep (vm : VirtualMachine) (h h' : PrivateHeap) : Prop :=
  ∃ op : QuotaOp, op.Fits vm h ∧ op.apply vm h = some h'

theorem Accounted.runs (hr : Relation.ReflTransGen (FittingStep vm) h h') (ha : h.Accounted) :
    h'.Accounted := by
  induction hr with
  | refl => exact ha
  | tail _ hs ih =>
    obtain ⟨op, hf, hrn⟩ := hs
    exact ih.apply op hf hrn

/-- The quota is exact, whatever is freed next no release takes more than is reserved, and the
destructor returns all of it. -/
structure QuotaSafe (h : PrivateHeap) : Prop where
  exact : h.QuotaExact
  frees : ∀ fs h', Frees fs h h' → h.quota.Covers h.sizes (fs.map Prod.snd)
  allocFrees : ∀ ord obj q n, h.AllocFits ord obj →
    h.quota.tryReserveHeap 1 (obj.heapBytes h.sizes) = .ok q →
    ∀ fs h', Frees fs (h.book q n) h' → q.Covers h.sizes (fs.map Prod.snd)
  drops : h.quota.Covers h.sizes h.liveObjects
  dropped : h.drop.quota.heapObjects = 0 ∧ h.drop.quota.heapBytes = 0

theorem Accounted.quotaSafe (ha : h.Accounted) : h.QuotaSafe where
  exact := ha.charged.quotaExact
  frees _ _ a := (ha.charged.frees a).1
  allocFrees _ _ q n hf hr _ _ a :=
    ((ha.reserve (hf q hr).1 hr n).1.frees a).1
  drops := ha.charged.drop.1
  dropped := ha.charged.drop.2

/-- In every run of fitting steps from the empty heap, the quota is exact. -/
theorem runs_quotaSafe (maxObjects maxBytes : ℕ) (sz : TypeSizes)
    (hruns : Relation.ReflTransGen (FittingStep vm) (new (.new maxObjects maxBytes) sz) h) :
    h.QuotaSafe :=
  ((Accounted.new maxObjects maxBytes sz).runs hruns).quotaSafe

def copiedChoice : PrivateHeap :=
  ⟨[.fresh 1 (.choice 0 0 0 .null), .fresh 1 (.choice 0 0 0 .null)], [], ∅, 2, [],
    ⟨9, 999, 2, 128⟩, ⟨64, 16⟩⟩

theorem runs_quotaSafe_copiedChoice :
    Relation.ReflTransGen (FittingStep .bare) (new (.new 9 999) ⟨64, 16⟩) copiedChoice ∧
      copiedChoice.QuotaSafe := by
  let o : PrivateHeap :=
    ⟨[.fresh 1 (.choice 0 0 0 .null)], [], ∅, 1, [], ⟨9, 999, 1, 64⟩, ⟨64, 16⟩⟩
  have s₁ : FittingStep .bare (new (.new 9 999) ⟨64, 16⟩) o := by
    refine ⟨.alloc .ascending (.choice 0 0 0 .null), ?_, rfl⟩
    exact Admits.allocFits (n := 0) (b := 64) ⟨by decide, Or.inl (by decide)⟩ (by decide)
  have s₂ : FittingStep .bare o copiedChoice := by
    refine ⟨.copy .byIndex (fun _ => .ascending) (.object ⟨0, 1⟩), ?_, by decide⟩
    rintro r rs ⟨⟩ hc
    obtain rfl := hc.eq_singleton (by decide)
    exact ⟨⟨by decide, Or.inl (by decide)⟩, Or.inl (by simp; decide)⟩
  have hr := (Relation.ReflTransGen.single s₁).tail s₂
  exact ⟨hr, runs_quotaSafe 9 999 ⟨64, 16⟩ hr⟩

/-- A copied tuple of one element: its placeholder was charged for no element. -/
def copiedTuple : PrivateHeap :=
  ⟨[.fresh 1 (.tuple (.exact [.null])), .fresh 1 (.tuple (.grown .doubling [.null]))], [], ∅, 2, [],
    ⟨9, 999, 2, 144⟩, ⟨64, 16⟩⟩

theorem runs_copiedTuple :
    Relation.ReflTransGen (ThreadStep .bare) (new (.new 9 999) ⟨64, 16⟩) copiedTuple ∧
      copiedTuple.quota.heapBytes < copiedTuple.liveBytes ∧
      ¬ copiedTuple.quota.Covers copiedTuple.sizes copiedTuple.liveObjects ∧
      copiedTuple.drop.quota.heapBytes ≠ 0 := by
  have s₁ : ThreadStep .bare (new (.new 9 999) ⟨64, 16⟩)
      ⟨[.fresh 1 (.tuple (.exact [.null]))], [], ∅, 1, [], ⟨9, 999, 1, 80⟩, ⟨64, 16⟩⟩ :=
    ⟨.alloc .ascending (.tuple (.exact [.null])), rfl⟩
  have s₂ : ThreadStep .bare
      ⟨[.fresh 1 (.tuple (.exact [.null]))], [], ∅, 1, [], ⟨9, 999, 1, 80⟩, ⟨64, 16⟩⟩ copiedTuple :=
    ⟨.copy .byIndex (fun _ => .ascending) (.object ⟨0, 1⟩), by decide⟩
  exact ⟨(Relation.ReflTransGen.single s₁).tail s₂, by decide, by decide, by decide⟩

end PrivateHeap

end Galfus
