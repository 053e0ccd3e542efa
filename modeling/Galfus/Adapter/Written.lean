import Galfus.Adapter.Decode
import Galfus.Heap.Anchored

/-! # What an encoding writes

An encoding always ends. The objects that it writes keep their anchors, so what was written
before can be read back from every later heap.
-/

namespace Galfus.SurfaceTarget

open PrivateHeap

variable {α β : Type} {P P' : PrivateHeap → Prop} {Q Q' : α → PrivateHeap → Prop}
  {R : β → PrivateHeap → Prop} {x : Encoding α} {f : α → Encoding β}

/-- The encoding ends, keeps what is anchored, and its results have a property. -/
def Encodes (P : PrivateHeap → Prop) (x : Encoding α) (Q : α → PrivateHeap → Prop) : Prop :=
  ∀ h, h.Sound → P h → ∃ r h', x h = some (r, h') ∧ h'.Sound ∧ KeepsAnchored h h' ∧
    ∀ a, r = .ok a → Q a h'

/-- A property that stays as long as the anchored objects stay. -/
def Persistent (P : PrivateHeap → Prop) : Prop := ∀ h h', KeepsAnchored h h' → P h → P h'

namespace Encodes

theorem pure {a : α} (h : ∀ s, P s → Q a s) : Encodes P (Pure.pure a) Q := by
  intro s hs hP
  refine ⟨.ok a, s, rfl, hs, .refl s, ?_⟩
  rintro _ ⟨⟩
  exact h s hP

theorem throw (e : EncodeError) : Encodes P (Exec.throw e) Q :=
  fun s hs _ => ⟨.error e, s, rfl, hs, .refl s, nofun⟩

theorem bind (hx : Encodes P x Q) (hf : ∀ a, Encodes (Q a) (f a) R) : Encodes P (x >>= f) R := by
  intro s hs hP
  obtain ⟨r, s₁, hr, hs₁, hk, hQ⟩ := hx s hs hP
  rw [Exec.bind_apply, hr]
  cases r with
  | error e => exact ⟨.error e, s₁, rfl, hs₁, hk, nofun⟩
  | ok a =>
    obtain ⟨r, s₂, hr', hs₂, hk', hR⟩ := hf a s₁ hs₁ (hQ a rfl)
    exact ⟨r, s₂, hr', hs₂, hk.trans hk', hR⟩

theorem conseq (hx : Encodes P' x Q') (hP : ∀ s, P s → P' s) (hQ : ∀ a s, Q' a s → Q a s) :
    Encodes P x Q := by
  intro s hs hPs
  obtain ⟨r, s', hr, hs', hk, hQ'⟩ := hx s hs (hP s hPs)
  exact ⟨r, s', hr, hs', hk, fun a ha => hQ a s' (hQ' a ha)⟩

theorem assume {p : Prop} (hx : p → Encodes P x Q) : Encodes (fun s => P s ∧ p) x Q :=
  fun s hs hP => hx hP.2 s hs hP.1

theorem frame {F : PrivateHeap → Prop} (hx : Encodes P x Q) (hF : Persistent F) :
    Encodes (fun s => P s ∧ F s) x fun a s => Q a s ∧ F s := by
  intro s hs hPF
  obtain ⟨r, s', hr, hs', hk, hQ⟩ := hx s hs hPF.1
  exact ⟨r, s', hr, hs', hk, fun a ha => ⟨hQ a ha, hF s s' hk hPF.2⟩⟩

end Encodes

/-- The value is no object, or one with an anchor. -/
def Holds (h : PrivateHeap) (value : VmValue) : Prop :=
  ∀ r, value = .object r → ∃ obj, h.Anchored r obj

/-- The objects are looked up as on the heap, as far as they are anchored. -/
def Reads (h : PrivateHeap) (get : VmObjectRef → Option HeapObject) : Prop :=
  ∀ r obj, h.Anchored r obj → get r = some obj

theorem reads_object? (h : PrivateHeap) : Reads h h.object? := by
  intro r o ha
  rw [PrivateHeap.object?, ha.getObject]
  rfl

theorem Reads.of_keeps {h h' : PrivateHeap} {g : VmObjectRef → Option HeapObject}
    (hr : Reads h' g) (hk : KeepsAnchored h h') : Reads h g :=
  fun r o ha => hr r o (hk r o ha)

theorem persistent_holds (v : VmValue) : Persistent fun h => Holds h v := by
  intro h h' hk hh r hr
  obtain ⟨o, ha⟩ := hh r hr
  exact ⟨o, hk r o ha⟩

theorem persistent_reads {p : (VmObjectRef → Option HeapObject) → Prop} :
    Persistent fun h => ∀ g, Reads h g → p g :=
  fun _ _ hk hh g hr => hh g (hr.of_keeps hk)

variable {tr : SurfaceTarget}

theorem encodes_alloc (w : String) {ob : HeapObject} (hob : ∀ s, P s → ∀ v ∈ ob.slots, Holds s v) :
    Encodes P (tr.alloc w ob) fun v s => ∃ r, v = .object r ∧ s.Anchored r ob := by
  intro s hs hP
  have hrn : ∀ c ∈ ob.getChildren, c.index < s.objects.length := by
    intro c hc
    obtain ⟨v, hv, hvc⟩ := List.mem_filterMap.mp hc
    obtain ⟨o, ho⟩ := hob s hP v hv c (VmValue.objectRef?_eq_some.mp hvc)
    exact ho.lt
  obtain ⟨s', rs, hru, hs', hk, hrs⟩ := alloc_sound (tr.order s) hs hrn
  refine ⟨_, s', by rw [SurfaceTarget.alloc, hru, Option.map_some], hs', hk, fun v hv => ?_⟩
  cases rs with
  | error e => cases hv
  | ok r =>
    cases hv
    obtain ⟨t, hr, ho, hon, -⟩ := hrs r rfl
    exact ⟨r, rfl, t, hr, ho, hon ▸ Nat.one_pos⟩

theorem encodes_typeAt (e : ℕ) : Encodes P (tr.typeAt e) fun ty s =>
    P s ∧ tr.module.types[e]? = some ty := by
  unfold typeAt
  split
  · next ty hty => exact .pure fun s hs => ⟨hs, hty⟩
  · exact .throw _

theorem encodes_expectFit (sc : SurfaceSchema) (v : SurfaceValue) :
    Encodes P (expectFit sc v) fun _ s => P s := by
  unfold expectFit
  split
  · exact .pure fun s hs => hs
  · exact .throw _

/-- An object is written whose values are held; what was written before can still be read. -/
theorem encodes_object (w : String) {o : HeapObject} {F : PrivateHeap → Prop}
    {Q : VmValue → PrivateHeap → Prop} (hF : Persistent F)
    (hsl : ∀ s, F s → ∀ v ∈ o.slots, Holds s v)
    (hQ : ∀ r s, s.Anchored r o → F s → Q (.object r) s) :
    Encodes F (tr.alloc w o) Q := by
  refine ((encodes_alloc w hsl).frame hF).conseq (fun s hs => ⟨hs, hs⟩) ?_
  rintro _ s ⟨⟨r, rfl, ha⟩, hs⟩
  exact hQ r s ha hs

end Galfus.SurfaceTarget
