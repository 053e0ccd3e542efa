import Galfus.Adapter.Encode

/-! # The handles on a heap

Which handles the objects of a heap denote, and which ones an encoding adds: only those of the
value that is encoded.
-/

namespace Galfus

namespace PrivateHeap

variable {h h' : PrivateHeap} {obj : HeapObject} {handle : AdapterHandleId}
  {S : AdapterHandleId → Prop}

/-- Some object of the heap is this handle. -/
def Denotes (h : PrivateHeap) (handle : AdapterHandleId) : Prop :=
  ∃ i, h.objectAt i = some (.adapterHandle handle)

def Adds (S : AdapterHandleId → Prop) (h h' : PrivateHeap) : Prop :=
  ∀ handle, h'.Denotes handle → h.Denotes handle ∨ S handle

instance : Std.Refl (Adds S) := ⟨fun _ _ => Or.inl⟩

instance : IsTrans PrivateHeap (Adds S) where
  trans _ _ _ h h' handle hd := (h' handle hd).elim (h handle) Or.inr

theorem FreesTo.denotes (a : FreesTo h h') (hd : h'.Denotes handle) : h.Denotes handle := by
  obtain ⟨fs, a⟩ := a
  obtain ⟨i, hi⟩ := hd
  rw [a.object, Option.ite_none_left_eq_some] at hi
  exact ⟨i, hi.2⟩

theorem place_denotes {r : Except VmError VmObjectRef} (hr : h.place obj = some (h', r))
    (hd : h'.Denotes handle) : h.Denotes handle ∨ obj = .adapterHandle handle := by
  obtain ⟨i, hi⟩ := hd
  rcases place_objectAt hr hi with heq | hold
  · exact .inr heq.symm
  · exact .inl ⟨i, hold⟩

theorem alloc_denotes {o : CollectOrder} {r : Except VmError VmObjectRef}
    (hr : h.alloc o obj = some (h', r)) (hd : h'.Denotes handle) :
    h.Denotes handle ∨ obj = .adapterHandle handle := by
  obtain ⟨-, -, -, rfl⟩ | ⟨q, n, h₁, -, -, a, hp⟩ := alloc_cases hr
  · exact .inl hd
  · exact (place_denotes hp hd).imp_left a.denotes

section Holders

variable {x : AdapterHandleId}

/-- The slots whose object is this handle. -/
def handleSlots (h : PrivateHeap) (x : AdapterHandleId) : Finset ℕ :=
  (Finset.range h.objects.length).filter fun i => h.objectAt i = some (.adapterHandle x)

/-- The number of objects and pending drops that are this handle. -/
def holders (h : PrivateHeap) (x : AdapterHandleId) : ℕ :=
  (h.handleSlots x).card + h.pendingAdapterHandleDrops.count x

theorem mem_handleSlots {i : ℕ} :
    i ∈ h.handleSlots x ↔ h.objectAt i = some (.adapterHandle x) := by
  rw [handleSlots, Finset.mem_filter, Finset.mem_range]
  exact and_iff_right_of_imp fun hi => (live_iff_objectAt.mpr ⟨_, hi⟩).lt

theorem Denotes.slots_pos (hd : h.Denotes x) : 0 < (h.handleSlots x).card := by
  obtain ⟨i, hi⟩ := hd
  exact Finset.card_pos.mpr ⟨i, mem_handleSlots.mpr hi⟩

theorem Denotes.holders_pos (hd : h.Denotes x) : 0 < h.holders x :=
  Nat.add_pos_left hd.slots_pos _

/-- A freed handle waits for its drop. -/
theorem FreesTo.holders_le (a : FreesTo h h') (x : AdapterHandleId) :
    h'.holders x ≤ h.holders x := by
  obtain ⟨fs, a⟩ := a
  let freed := (fs.filter fun p => p.2.handle? == some x).map Prod.fst
  have hn : freed.Nodup := a.nodup.sublist (List.filter_sublist.map _)
  have hm : ∀ i ∈ freed, i ∈ fs.map Prod.fst ∧ i ∈ h.handleSlots x := by
    intro i hi
    obtain ⟨p, hp, rfl⟩ := List.mem_map.mp hi
    obtain ⟨hp, hx⟩ := List.mem_filter.mp hp
    refine ⟨List.mem_map_of_mem hp, mem_handleSlots.mpr ((a.freed p hp).trans ?_)⟩
    revert hx
    cases p.2 <;> simp [HeapObject.handle?]
  have hle : (h'.handleSlots x).card + freed.length ≤ (h.handleSlots x).card := by
    rw [← List.toFinset_card_of_nodup hn, ← Finset.card_union_of_disjoint]
    · refine Finset.card_le_card (Finset.union_subset (fun i hi => ?_) fun i hi => ?_)
      · have hi := mem_handleSlots.mp hi
        rw [a.object, Option.ite_none_left_eq_some] at hi
        exact mem_handleSlots.mpr hi.2
      · exact (hm i (List.mem_toFinset.mp hi)).2
    · refine Finset.disjoint_left.mpr fun i hi hi' => ?_
      have hi := mem_handleSlots.mp hi
      rw [a.object, if_pos (hm i (List.mem_toFinset.mp hi')).1] at hi
      cases hi
  have hc : (fs.filterMap fun p => p.2.handle?).count x = freed.length := by
    rw [List.count_filterMap, List.countP_eq_length_filter, List.length_map]
  rw [holders, holders, a.pending, List.count_append, hc]
  omega

end Holders

end PrivateHeap

namespace SurfaceTarget

open PrivateHeap Exec

variable {target : SurfaceTarget} {S : AdapterHandleId → Prop} {value : SurfaceValue}

/-- The handles of a value are in a set once they have their binding. -/
def Covers (target : SurfaceTarget) (S : AdapterHandleId → Prop) (value : SurfaceValue) : Prop :=
  ∀ x ∈ value.handles, ∀ bindingId, target.adapterBindingId = some bindingId →
    S ⟨bindingId, x.1, x.2⟩

theorem adds_throw {α : Type} (e : EncodeError) : Moves (Adds S) (Exec.throw e : Encoding α) := by
  rintro h _ _ ⟨⟩
  exact refl h

theorem adds_alloc (w : String) {obj : HeapObject}
    (ho : ∀ handle, obj = .adapterHandle handle → S handle) :
    Moves (Adds S) (target.alloc w obj) := by
  intro h r h' hr handle hd
  obtain ⟨⟨h₁, rs⟩, ha, heq⟩ := Option.map_eq_some_iff.mp hr
  cases heq
  exact (alloc_denotes ha hd).imp_right (ho handle)

theorem adds_typeAt (e : ℕ) : Moves (Adds S) (target.typeAt e) := by
  unfold typeAt
  split
  · exact .pure _
  · exact adds_throw _

theorem adds_expectFit (s : SurfaceSchema) (value : SurfaceValue) :
    Moves (Adds S) (expectFit s value) := by
  unfold expectFit
  split
  · exact .pure _
  · exact adds_throw _

theorem adds_encodePlain (s : SurfaceSchema) (value : SurfaceValue) (ty : BytecodeType)
    (hS : target.Covers S value) : Moves (Adds S) (target.encodePlain s value ty) := by
  unfold encodePlain
  split
  all_goals first | exact .pure _ | exact adds_throw _ | skip
  · split
    · exact adds_alloc _ (fun _ h => by cases h)
    · exact adds_throw _
  · split
    · split
      · exact adds_throw _
      · next bindingId hb =>
        apply adds_alloc
        rintro handle ⟨⟩
        refine hS (_, _) ?_ bindingId hb
        exact List.mem_singleton_self _
    · exact adds_throw _

theorem adds_encodeEach {e : SurfaceValue → Encoding VmValue} {vs : List SurfaceValue}
    (hen : ∀ value ∈ vs, Moves (Adds S) (e value)) :
    Moves (Adds S) (encodeEach e vs) := by
  induction vs with
  | nil => exact .pure _
  | cons value vs ih =>
    apply Moves.bind (hen value List.mem_cons_self)
    intro el
    apply Moves.bind (ih fun v hv => hen v (List.mem_cons_of_mem _ hv))
    exact fun _ => .pure _

theorem Covers.of_mem {vs : List SurfaceValue} (h : target.Covers S (.list vs))
    (hm : value ∈ vs) : target.Covers S value := by
  intro x hx
  apply h
  exact SurfaceValue.mem_handlesEach.mpr ⟨value, hm, hx⟩

theorem Covers.of_findField {n : String} {fs : List (String × SurfaceValue)}
    (h : target.Covers S (.struct fs)) (hfn : findField n fs = some value) :
    target.Covers S value := by
  obtain ⟨f, hf, rfl⟩ := Option.map_eq_some_iff.mp hfn
  intro x hx
  apply h
  exact SurfaceValue.mem_handlesFields.mpr ⟨f, List.mem_of_find?_eq_some hf, hx⟩

theorem Covers.payload {v : String} (h : target.Covers S (.choice v (some value))) :
    target.Covers S value := by
  intro x hx
  apply h
  exact hx

theorem adds_encodeVariant_cons {m : EncodeError} {li i : ℕ}
    {v n : String} {p : Option SurfaceValue} {sc : Option SurfaceSchema}
    {vs : List (String × Option SurfaceSchema)}
    (hS : target.Covers S (.choice v p))
    (hs : ∀ s, sc = some s → ∀ value pt, target.Covers S value →
      Moves (Adds S) (target.encodeSurface s value pt))
    (hr : Moves (Adds S) (target.encodeVariant m li v p (i + 1) vs)) :
    Moves (Adds S) (target.encodeVariant m li v p i ((n, sc) :: vs)) := by
  rw [encodeVariant]
  split
  · split
    · exact adds_throw _
    · split
      · exact adds_throw _
      · split
        · exact .bind (.pure _) fun _ => adds_alloc _ nofun
        · exact .bind (hs _ rfl _ _ hS.payload) fun _ => adds_alloc _ nofun
        · exact .bind (adds_throw _) fun _ => adds_alloc _ nofun
  · exact hr

mutual

theorem adds_encodeSurface (s : SurfaceSchema) (value : SurfaceValue) (e : ℕ)
    (hS : target.Covers S value) :
    Moves (Adds S) (target.encodeSurface s value e) := by
  rw [encodeSurface.eq_def]
  apply Moves.bind (adds_expectFit s value)
  intro _
  apply Moves.bind (adds_typeAt e)
  intro ty
  cases s with
  | optional i =>
    dsimp only
    split
    · exact .pure _
    · exact adds_encodeSurface i _ _ hS
    · exact adds_throw _
  | list i =>
    dsimp only
    split
    · next values itemTy =>
      apply Moves.bind (adds_encodeEach fun value hvl =>
        adds_encodeSurface i value itemTy (hS.of_mem hvl))
      exact fun _ => adds_alloc _ nofun
    · exact adds_throw _
  | tuple im =>
    dsimp only
    split
    · split
      · apply Moves.bind (adds_encodeItems im _ _ fun value hvl => .of_mem (hS :) hvl)
        exact fun _ => adds_alloc _ nofun
      · exact adds_throw _
    · exact adds_throw _
  | struct n fs =>
    dsimp only
    split
    · split
      · exact adds_throw _
      · split
        · exact adds_throw _
        · apply Moves.bind (adds_encodeFields fs _ _ hS)
          exact fun _ => adds_alloc _ nofun
    · exact adds_throw _
  | choice n vs =>
    dsimp only
    split
    · exact adds_encodeVariant _ _ _ _ _ vs hS
    · exact adds_throw _
  | _ => exact adds_encodePlain _ _ _ hS

theorem adds_encodeItems (ss : List SurfaceSchema) (vs : List SurfaceValue)
    (i : List ℕ) (hS : ∀ value ∈ vs, target.Covers S value) :
    Moves (Adds S) (target.encodeItems ss vs i) := by
  cases ss with
  | nil =>
    exact .pure _
  | cons s ss =>
    rw [encodeItems.eq_def]
    split
    · next value vs itemTy i heq =>
      cases heq
      apply Moves.bind (adds_encodeSurface s value itemTy (hS value List.mem_cons_self))
      intro e
      apply Moves.bind (adds_encodeItems ss vs i fun v hv =>
        hS v (List.mem_cons_of_mem _ hv))
      exact fun _ => .pure _
    · exact .pure _

theorem adds_encodeFields (fs : List (String × SurfaceSchema))
    (vs : List (String × SurfaceValue)) (ls : List FieldLayout)
    (hS : target.Covers S (.struct vs)) :
    Moves (Adds S) (target.encodeFields fs vs ls) := by
  cases fs with
  | nil =>
    exact .pure _
  | cons f fs =>
    obtain ⟨n, s⟩ := f
    cases ls with
    | nil =>
      exact .pure _
    | cons l ls =>
      rw [encodeFields]
      split
      · exact adds_throw _
      · next value hf =>
        apply Moves.bind (adds_encodeSurface s value l.ty (hS.of_findField hf))
        intro e
        apply Moves.bind (adds_encodeFields fs vs ls hS)
        exact fun _ => .pure _

theorem adds_encodeVariant (m : EncodeError) (li : ℕ) (v : String)
    (p : Option SurfaceValue) (i : ℕ) (vs : List (String × Option SurfaceSchema))
    (hS : target.Covers S (.choice v p)) :
    Moves (Adds S) (target.encodeVariant m li v p i vs) := by
  cases vs with
  | nil =>
    exact adds_throw _
  | cons c vs =>
    obtain ⟨n, _ | s⟩ := c
    · exact adds_encodeVariant_cons hS nofun (adds_encodeVariant m li v p (i + 1) vs hS)
    · refine adds_encodeVariant_cons hS ?_ (adds_encodeVariant m li v p (i + 1) vs hS)
      rintro _ ⟨⟩ value pt
      exact adds_encodeSurface s value pt

end

end SurfaceTarget

end Galfus
