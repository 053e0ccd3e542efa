import Galfus.Heap.Reserve
import Galfus.Vm.CopyClosure

/-! # The quota of deep copies

`Copy` reserves the size of a placeholder for each object, and overwrites the
placeholders with what the copies need. The books stay exact if both have the same
size, or if the copy ends before it fills a placeholder.
-/

namespace Galfus.VirtualMachine

open Graph

variable {vm : VirtualMachine} {sz : TypeSizes} {k : ℕ} {h h' h₁ : PrivateHeap}
  {T T' : List (VmObjectRef × (HeapObject → Prop))} {P : HeapObject → Prop} {r c : VmObjectRef}
  {obj : HeapObject} {copied : CopyMap} {orig : VmObjectRef → HeapObject}
  {ords : ℕ → CollectOrder} {rs : List VmObjectRef}

/-- The copy needs as many bytes as its placeholder: it is a struct whose fields fill their buffer,
or has no elements. -/
def KeepsSize (vm : VirtualMachine) : HeapObject → Prop
  | .struct _ _ fields => vm.growth.capacity fields.data.length = fields.data.length
  | .array _ _ elements | .tuple elements => vm.growth.capacity elements.data.length = 0
  | .choice _ _ _ _ | .adapterHandle _ => True

instance (vm : VirtualMachine) : DecidablePred vm.KeepsSize := fun obj =>
  match obj with
  | .struct _ _ fields =>
    inferInstanceAs (Decidable (vm.growth.capacity fields.data.length = fields.data.length))
  | .array _ _ elements | .tuple elements =>
    inferInstanceAs (Decidable (vm.growth.capacity elements.data.length = 0))
  | .choice _ _ _ _ | .adapterHandle _ => inferInstanceAs (Decidable True)

def placeholderBytes (vm : VirtualMachine) (sz : TypeSizes) (obj : HeapObject) : ℕ :=
  match vm.copyPlaceholder obj with
  | .ok placeholder => placeholder.heapBytes sz
  | .error _ => 0

/-- The books are kept, and each reference in `T` means an object with its property, or none, while
at most `k` slots were reused since. -/
structure Copying (sz : TypeSizes) (k : ℕ) (T : List (VmObjectRef × (HeapObject → Prop)))
    (h : PrivateHeap) : Prop extends h.Accounted where
  sizes : h.sizes = sz
  tracks : ∀ p ∈ T, h.Tracks k p.1 p.2
  nodup : (T.map Prod.fst).Nodup

namespace Copying

theorem getObject (hc : Copying sz k T h) (hk : k ≤ u32Max) (hm : (r, P) ∈ T)
    (hg : h.getObject r = .ok obj) : P obj :=
  (hc.tracks _ hm).getObject hk hg

theorem alloc {o : CollectOrder} (hc : Copying sz k T h) (hk : k < u32Max) {n b : ℕ}
    (ha : h.Admits (n + 1) (b + obj.heapBytes sz)) (hP : P obj)
    (hr : h.alloc o obj = some (h', .ok c)) :
    Copying sz (k + 1) ((c, P) :: T) h' ∧ h'.Admits n b := by
  have hsz := hc.sizes
  subst hsz
  have hac : h'.Accounted := hc.toAccounted.alloc (ha.allocFits (Nat.le_add_left _ _)) hr
  refine ⟨⟨hac, ?_, ?_, ?_⟩, ha.alloc hc.toAccounted hr⟩ <;>
    obtain ⟨_, -, hrs, -⟩ | ⟨q, m, h₁, -, -, a, hpl⟩ := PrivateHeap.alloc_cases hr
  · cases hrs
  · obtain ⟨fs, a⟩ := a
    exact (PrivateHeap.place_rest hpl).2.1.trans a.sizes
  · cases hrs
  · intro p hp
    rcases List.mem_cons.mp hp with rfl | hp
    · exact (PrivateHeap.Tracks.placed hpl hP).mono (Nat.zero_le _)
    · exact ((PrivateHeap.Tracks.frees (h := h.book q m) (hc.tracks p hp) a).place hpl).1
  · cases hrs
  · rw [List.map_cons, List.nodup_cons]
    refine ⟨fun hin => ?_, hc.nodup⟩
    obtain ⟨p, hp, rfl⟩ := List.mem_map.mp hin
    exact ((PrivateHeap.Tracks.frees (h := h.book q m) (hc.tracks p hp) a).place hpl).2 hk rfl

theorem setObject (hc : Copying sz k T h) {o : HeapObject} (hm : (c, P) ∈ T) (hP : P obj)
    (hl : h.getObject c = .ok o) (hs : obj.heapBytes sz = o.heapBytes sz)
    (hr : h.setObject c obj = .ok h') : Copying sz k T h' := by
  have hsz := hc.sizes
  subst hsz
  refine ⟨hc.toAccounted.setObject hl hs hr, ?_, fun p hp => ?_, hc.nodup⟩
  · obtain ⟨s, -, rfl⟩ := PrivateHeap.setObject_eq_ok.mp hr
    rfl
  · refine (hc.tracks p hp).setObject hr fun hpc => ?_
    rwa [List.inj_on_of_nodup_map hc.nodup hp hm hpc]

theorem fillPlaceholder (hk : k ≤ u32Max) {B : ℕ} (hm : (c, fun o => o.heapBytes sz = B) ∈ T)
    (f : HeapObject → Option HeapObject) (e : String)
    (hf : ∀ ol n, f ol = some n → ol.heapBytes sz = B → n.heapBytes sz = B) :
    Exec.Triple (Copying sz k T) (Galfus.fillPlaceholder c f e)
      (fun _ => Copying sz k T) (Copying sz k T) := by
  refine .get_bind fun h hc => .lift_bind (fun _ hs => hs ▸ hc) fun ol hl => ?_
  cases hn : f ol with
  | none => exact (Exec.Triple.throw _).conseq_pre fun _ hs => hs ▸ hc
  | some n =>
    refine .lift_bind (fun _ hs => hs ▸ hc) fun h' hst => .modify fun _ _ => ?_
    have hB := hc.getObject hk hm hl
    have hB' := hf ol n hn hB
    exact hc.setObject hm hB' hl (hB'.trans hB.symm) hst

end Copying

theorem length_mapM_eq {α β ε : Type} {f : α → Except ε β} {xs : List α} {ys : List β}
    (hr : xs.mapM f = .ok ys) : ys.length = xs.length := by
  induction xs generalizing ys with
  | nil =>
    cases hr
    rfl
  | cons x xs ih =>
    rw [List.mapM_cons] at hr
    cases hx : f x with
    | error e => simp [hx, bind, Except.bind] at hr
    | ok y =>
      cases hxs : xs.mapM f with
      | error e => simp [hx, hxs, bind, Except.bind] at hr
      | ok zs =>
        simp only [hx, hxs, bind, Except.bind, pure, Except.pure, Except.ok.injEq] at hr
        rw [← hr, List.length_cons, List.length_cons, ih hxs]

theorem fillCopy_copying (hk : k ≤ u32Max) {p : HeapObject} (hgt : copied.get? r = some c)
    (hor : (r, (· = obj)) ∈ T) (hpl : vm.copyPlaceholder obj = .ok p)
    (hmm : (c, fun o => o.heapBytes sz = p.heapBytes sz) ∈ T) (hkp : vm.KeepsSize obj) :
    Exec.Triple (Copying sz k T) (vm.fillCopy copied r) (fun _ => Copying sz k T)
      (Copying sz k T) := by
  unfold fillCopy
  rw [hgt]
  refine .lift_bind (fun _ hs => hs) fun c' hc' => .get_bind fun h hc =>
    .lift_bind (fun _ hs => hs ▸ hc) fun o ho => Exec.Triple.conseq_pre ?_ fun _ hs => hs ▸ hc
  cases hc'
  obtain rfl : o = obj := hc.getObject (P := (· = obj)) hk hor ho
  cases o with
  | struct m l fs =>
    refine .lift_bind (fun _ hs => hs) fun ly hly =>
      .lift_bind (fun _ hs => hs) fun vs hvl => Copying.fillPlaceholder hk hmm _ _ ?_
    have hln : vs.length = fs.data.length := by simpa using length_mapM_eq hvl
    simp only [copyPlaceholder, hly, bind, Except.bind] at hpl
    split at hpl <;> cases hpl
    rintro (_ | _ | _ | _ | _) n hnw - <;> cases hnw
    simp [HeapObject.heapBytes, hln, show vm.growth.capacity fs.data.length = _ from hkp]
  | array m e es | tuple es =>
    refine .lift_bind (fun _ hs => hs) fun vs hvl => Copying.fillPlaceholder hk hmm _ _ ?_
    cases hpl
    rintro (_ | _ | _ | _ | _) n hnw - <;> cases hnw
    simp [HeapObject.heapBytes, length_mapM_eq hvl,
      show vm.growth.capacity es.data.length = 0 from hkp]
  | choice m l v py =>
    refine .lift_bind (fun _ hs => hs) fun vl _ => Copying.fillPlaceholder hk hmm _ _ ?_
    rintro (_ | _ | _ | _ | _) n hnw hl <;> cases hnw
    exact hl
  | adapterHandle hn => exact Exec.Triple.pure (Q := fun _ => Copying sz k T) PUnit.unit

theorem allocateCopyPlaceholders_cons {re : Except VmError CopyMap}
    (hrn : vm.allocateCopyPlaceholders ords (r :: rs) h = some (re, h')) :
    (∃ e, re = .error e ∧ h' = h) ∨
    ∃ obj pl h₁, h.getObject r = .ok obj ∧ vm.copyPlaceholder obj = .ok pl ∧
      ((∃ e, h.alloc (ords 0) pl = some (h', .error e) ∧ re = .error e) ∨
        ∃ c rt, h.alloc (ords 0) pl = some (h₁, .ok c) ∧
          vm.allocateCopyPlaceholders (fun n => ords (n + 1)) rs h₁ = some (rt, h') ∧
          re = rt.map ((r, c) :: ·)) := by
  simp only [allocateCopyPlaceholders, Exec.bind_apply, Exec.get_apply, Exec.lift_apply,
    Option.bind_some] at hrn
  cases hob : h.getObject r with
  | error e =>
    rw [hob] at hrn
    cases hrn
    exact .inl ⟨e, rfl, rfl⟩
  | ok obj =>
    simp only [hob] at hrn
    cases hpl : vm.copyPlaceholder obj with
    | error e =>
      rw [hpl] at hrn
      cases hrn
      exact .inl ⟨e, rfl, rfl⟩
    | ok pl =>
      simp only [hpl, PrivateHeap.allocM] at hrn
      obtain ⟨p, hmp, hrn⟩ := Option.bind_eq_some_iff.mp hrn
      obtain ⟨⟨h₁, r₁⟩, hal, rfl⟩ := Option.map_eq_some_iff.mp hmp
      refine .inr ⟨obj, pl, h₁, rfl, hpl, ?_⟩
      cases r₁ with
      | error e =>
        cases hrn
        exact .inl ⟨e, hal, rfl⟩
      | ok c =>
        obtain ⟨⟨rt, h₃⟩, hrs, hrn⟩ := Option.bind_eq_some_iff.mp hrn
        refine .inr ⟨c, rt, hal, ?_⟩
        cases rt with
        | error e | ok rt =>
          cases hrn
          exact ⟨hrs, rfl⟩

def Grants (vm : VirtualMachine) (q : ThreadQuota) (sz : TypeSizes)
    (orig : VmObjectRef → HeapObject) (rs : List VmObjectRef) : Prop :=
  q.heapObjects + rs.length ≤ q.maxHeapObjects ∧
    q.heapBytes + (rs.map fun r => vm.placeholderBytes sz (orig r)).sum ≤ q.maxHeapBytes

theorem Grants.cons (ha : h.Accounted) {b : ℕ} {q : ThreadQuota} (hf : h.Fitting b)
    (hr : h.quota.tryReserveHeap 1 b = .ok q) (hb : vm.placeholderBytes sz (orig r) = b)
    (hrs : rs ≠ [] → vm.Grants q sz orig rs) : vm.Grants h.quota sz orig (r :: rs) := by
  obtain ⟨hc, ho, hby⟩ := ha.reserve hf hr 0
  have hn : q.heapObjects ≤ usizeMax := hc.objects_le
  have hn' : q.heapBytes ≤ usizeMax := hc.bytes_le
  obtain ⟨hl, hl', hq⟩ := ThreadQuota.tryReserveHeap_eq_ok hr
  have hm : q.maxHeapObjects = h.quota.maxHeapObjects ∧
      q.maxHeapBytes = h.quota.maxHeapBytes := by rw [hq]; exact ⟨rfl, rfl⟩
  unfold usizeSaturatingAdd at hl hl'
  cases rs with
  | nil =>
    constructor
    · simp only [List.length_singleton]
      omega
    · simp only [List.map_singleton, List.sum_singleton]
      omega
  | cons r' rs =>
    obtain ⟨hob, hs⟩ := hrs (by simp)
    constructor
    · simp only [List.length_cons] at hob ⊢
      omega
    · simp only [List.map_cons, List.sum_cons] at hs ⊢
      omega

/-- The placeholders of `rs` are allocated and tracked with their sizes. -/
structure Placed (vm : VirtualMachine) (sz : TypeSizes) (orig : VmObjectRef → HeapObject)
    (rs : List VmObjectRef) (T T' : List (VmObjectRef × (HeapObject → Prop)))
    (copied : CopyMap) : Prop where
  subset : T ⊆ T'
  copy : ∀ r ∈ rs, ∃ c placeholder, copied.get? r = some c ∧
    vm.copyPlaceholder (orig r) = .ok placeholder ∧
    (c, fun o => o.heapBytes sz = placeholder.heapBytes sz) ∈ T'

theorem Placed.cons {pl : HeapObject}
    (hp : Placed vm sz orig rs ((c, fun o => o.heapBytes sz = pl.heapBytes sz) :: T) T'
      copied) (hr : vm.copyPlaceholder (orig r) = .ok pl) :
    Placed vm sz orig (r :: rs) T T' ((r, c) :: copied) := by
  refine ⟨fun p hm => hp.subset (List.mem_cons_of_mem _ hm), fun r' hr' => ?_⟩
  by_cases hrr : r' = r
  · subst hrr
    exact ⟨c, pl, by simp [CopyMap.get?], hr, hp.subset (by simp)⟩
  · obtain ⟨c', p', hg, hrs⟩ := hp.copy r' ((List.mem_cons.mp hr').resolve_left hrr)
    refine ⟨c', p', ?_, hrs⟩
    have hne : (r' == r) = false := by simpa using hrr
    simpa [CopyMap.get?, List.lookup_cons, hne] using hg

/-- What the allocation of all placeholders preserves, and what it leaves. -/
theorem allocateCopyPlaceholders_copying {re : Except VmError CopyMap}
    (hc : Copying sz k T h) (hor : ∀ r ∈ rs, (r, (· = orig r)) ∈ T)
    (hk : k + rs.length ≤ u32Max)
    (had : h.Admits rs.length (rs.map fun r => vm.placeholderBytes sz (orig r)).sum)
    (hrn : vm.allocateCopyPlaceholders ords rs h = some (re, h')) :
    h'.Accounted ∧ ∀ copied, re = .ok copied →
      (∃ T', Copying sz (k + rs.length) T' h' ∧ Placed vm sz orig rs T T' copied) ∧
      (h.Idle rs.length → rs ≠ [] → vm.Grants h.quota sz orig rs) := by
  induction rs generalizing k T h ords re with
  | nil =>
    cases hrn
    exact ⟨hc.toAccounted, fun _ _ => ⟨⟨T, hc, fun _ hp => hp, by simp⟩, by simp⟩⟩
  | cons r rs ih =>
    simp only [List.length_cons, List.map_cons, List.sum_cons] at hk had
    obtain ⟨e, rfl, rfl⟩ | ⟨obj, p, h₁, hob, hpl, hcs⟩ :=
      allocateCopyPlaceholders_cons hrn
    · exact ⟨hc.toAccounted, by simp⟩
    · have heq : obj = orig r := hc.getObject (P := (· = orig r)) (by omega) (hor r (by simp)) hob
      subst heq
      have hby : vm.placeholderBytes sz (orig r) = p.heapBytes sz := by
        simp [placeholderBytes, hpl]
      rw [hby, Nat.add_comm (HeapObject.heapBytes _ _)] at had
      have hsz := hc.sizes
      obtain ⟨e, hal, rfl⟩ | ⟨c, rt, hal, hre, rfl⟩ := hcs
      · refine ⟨hc.toAccounted.alloc (had.allocFits ?_) hal, by simp⟩
        rw [hsz]
        exact Nat.le_add_left _ _
      · obtain ⟨hc₁, had₁⟩ := hc.alloc (P := fun o => o.heapBytes sz = p.heapBytes sz)
          (by omega) had rfl hal
        obtain ⟨hac, hok⟩ := ih hc₁ (fun r' hr' => List.mem_cons_of_mem _ (hor r' (by simp [hr'])))
          (by omega) had₁ hre
        refine ⟨hac, fun copied hrs => ?_⟩
        cases rt with
        | error e => cases hrs
        | ok c' =>
          cases hrs
          obtain ⟨⟨T', hc', hp⟩, hgr⟩ := hok c' rfl
          refine ⟨⟨T', ?_, hp.cons hpl⟩, fun hid _ => ?_⟩
          · rw [List.length_cons, Nat.add_comm rs.length, ← Nat.add_assoc]
            exact hc'
          · obtain ⟨hrs, hid₁⟩ := hid.alloc hal
            rw [hsz] at hrs
            exact .cons hc.toAccounted (had.fitting.mono (Nat.le_add_left _ _)) hrs hby (hgr hid₁)

/-- The object that a reference means, or an empty tuple if it is dangling. -/
def original (h : PrivateHeap) (r : VmObjectRef) : HeapObject :=
  match h.getObject r with
  | .ok obj => obj
  | .error _ => .tuple .empty

theorem original_eq (hg : h.getObject r = .ok obj) : original h r = obj := by
  simp [original, hg]

/-- The reference is alive, and its object has a placeholder. -/
def HasPlaceholder (vm : VirtualMachine) (h : PrivateHeap) (r : VmObjectRef) : Prop :=
  ∃ obj placeholder, h.getObject r = .ok obj ∧ vm.copyPlaceholder obj = .ok placeholder

/-- The copy of `r`, whose strong closure is `rs`, does not run into a full slot table or an
overflow of the byte counter, and every copied object keeps its size unless the copy ends before it
fills a placeholder. -/
structure CopyFits (vm : VirtualMachine) (h : PrivateHeap) (rs : List VmObjectRef) : Prop where
  admits : h.Admits rs.length (rs.map fun r => vm.placeholderBytes h.sizes (original h r)).sum
  keeps : (∀ r ∈ rs, vm.KeepsSize (original h r)) ∨ (∃ r ∈ rs, ¬ vm.HasPlaceholder h r) ∨
    h.Idle rs.length ∧ ¬ vm.Grants h.quota h.sizes (original h) rs

def IsClosure (vm : VirtualMachine) (h : PrivateHeap) (r : VmObjectRef) (rs : List VmObjectRef) :
    Prop :=
  rs.Nodup ∧ ∀ x, x ∈ rs ↔ vm.StrongReach h r x

theorem IsClosure.eq_singleton (hc : vm.IsClosure h r rs) (hl : vm.copyTargets h r = []) :
    rs = [r] := by
  rw [← List.perm_singleton, List.perm_ext_iff_of_nodup hc.1 (List.nodup_singleton r)]
  intro x
  rw [hc.2, List.mem_singleton]
  constructor
  · intro hx
    rcases Relation.ReflTransGen.cases_head hx with rfl | ⟨y, hy, -⟩
    · rfl
    · simp [hl] at hy
  · rintro rfl
    exact .refl x

/-- The objects of `rs`, each one tracked as it is. -/
def originals (h : PrivateHeap) (rs : List VmObjectRef) :
    List (VmObjectRef × (HeapObject → Prop)) :=
  rs.map fun r => (r, (· = original h r))

theorem mem_originals (hr : r ∈ rs) : (r, (· = original h r)) ∈ originals h rs :=
  List.mem_map.mpr ⟨r, hr, rfl⟩

theorem copying_originals (ha : h.Accounted) (hnd : rs.Nodup)
    (hal : ∀ r ∈ rs, ∃ obj, h.getObject r = .ok obj) :
    Copying h.sizes 0 (originals h rs) h ∧ rs.length ≤ u32Max := by
  refine ⟨⟨ha, rfl, fun p hp => ?_, ?_⟩, ?_⟩
  · obtain ⟨r, hr, rfl⟩ := List.mem_map.mp hp
    obtain ⟨obj, ho⟩ := hal r hr
    obtain ⟨s, hs, hg, -⟩ := PrivateHeap.getObject_eq_ok.mp ho
    refine .of_getObject ?_ ho (original_eq ho).symm
    exact hg ▸ ha.generations s (List.mem_of_getElem? hs)
  · rw [originals, List.map_map]
    simpa [Function.comp_def] using hnd
  · have hsb : rs.toFinset ⊆ h.liveRefs := by
      intro r hr
      obtain ⟨obj, ho⟩ := hal r (List.mem_toFinset.mp hr)
      exact PrivateHeap.mem_liveRefs ho
    have hc := Finset.card_le_card hsb
    rw [List.toFinset_card_of_nodup hnd] at hc
    exact hc.trans (h.card_liveRefs_le.trans ha.length_le)

/-- After placeholders for all of `rs` are allocated, every object of it keeps its size. -/
theorem allocateCopyPlaceholders_fits (ha : h.Accounted) (hnd : rs.Nodup) (hne : rs ≠ [])
    (hal : ∀ r ∈ rs, ∃ obj, h.getObject r = .ok obj) (hf : vm.CopyFits h rs) :
    Exec.Triple (· = h) (vm.allocateCopyPlaceholders ords rs)
      (fun copied h' => ∃ T', Copying h.sizes rs.length T' h' ∧
        Placed vm h.sizes (original h) rs (originals h rs) T' copied ∧
        ∀ r ∈ rs, vm.KeepsSize (original h r))
      PrivateHeap.Accounted := by
  obtain ⟨hc, hl⟩ := copying_originals ha hnd hal
  rintro _ rfl re h' hr
  obtain ⟨hac, hok⟩ := allocateCopyPlaceholders_copying hc (fun _ => mem_originals) (by omega)
    hf.admits hr
  cases re with
  | error e => exact hac
  | ok copied =>
    obtain ⟨⟨T', hc', hp⟩, hg⟩ := hok copied rfl
    rw [Nat.zero_add] at hc'
    refine ⟨T', hc', hp, ?_⟩
    rcases hf.keeps with hk | ⟨x, hx, hn⟩ | ⟨hi, hno⟩
    · exact hk
    · obtain ⟨c, p, -, hpl, -⟩ := hp.copy x hx
      obtain ⟨obj, ho⟩ := hal x hx
      rw [original_eq ho] at hpl
      exact absurd ⟨obj, p, ho, hpl⟩ hn
    · exact absurd (hg hi hne) hno

theorem fillCopyPlaceholders_copying (hk : k ≤ u32Max) (ho : ∀ r ∈ rs, (r, (· = orig r)) ∈ T')
    (hp : Placed vm sz orig rs T T' copied) (hkp : ∀ r ∈ rs, vm.KeepsSize (orig r)) :
    Exec.Triple (Copying sz k T') (vm.fillCopyPlaceholders copied rs) (fun _ => Copying sz k T')
      (Copying sz k T') := by
  refine .forM rs fun r hr => ?_
  obtain ⟨c, p, hg, hpl, hm⟩ := hp.copy r hr
  exact fillCopy_copying hk hg (ho r hr) hpl hm (hkp r hr)

/-- A search that succeeds has found an enumeration of the strong closure. -/
theorem isClosure_drain (o : DrainOrder VmObjectRef) {cl : Finset VmObjectRef}
    (hr : vm.discoverStrongCopyClosure h r = some (.ok cl)) :
    vm.IsClosure h r (o.drain cl) ∧ ∀ x ∈ o.drain cl, ∃ obj, h.getObject x = .ok obj := by
  obtain ⟨hm, hc⟩ := mem_discoverStrongCopyClosure hr
  refine ⟨⟨o.nodup cl, fun x => (o.mem_drain cl x).trans (hm x)⟩, ?_⟩
  intro x hx
  obtain ⟨obj, _, ho, -⟩ := hc x ((o.mem_drain cl x).mp hx)
  exact ⟨obj, ho⟩

/-- A copy that fits keeps the books, whether or not it succeeds. -/
theorem deepCopyValue_accounted {o : DrainOrder VmObjectRef} {v : VmValue} (ha : h.Accounted)
    (hft : ∀ r rs, v = .object r → vm.IsClosure h r rs → vm.CopyFits h rs) :
    Exec.Triple (· = h) (vm.deepCopyValue o ords v) (fun _ => PrivateHeap.Accounted)
      PrivateHeap.Accounted := by
  cases hv : v.objectRef? with
  | none =>
    have hpr : vm.deepCopyValue o ords v = pure v := by
      cases v <;> first | rfl | cases hv
    rw [hpr]
    exact (Exec.Triple.pure (Q := fun _ => PrivateHeap.Accounted) v).conseq_pre fun _ hs => hs ▸ ha
  | some r =>
    rw [VmValue.objectRef?_eq_some] at hv
    subst hv
    refine .get_bind fun h₀ hh => .unwrap_bind fun f hfn =>
      .lift_bind (fun _ hs => hs ▸ hh ▸ ha) fun cl hcl => ?_
    subst hh hcl
    obtain ⟨hcl, hal⟩ := isClosure_drain o hfn
    have hr : r ∈ o.drain cl := (hcl.2 r).mpr (.refl r)
    have hfi := hft r _ rfl hcl
    refine (allocateCopyPlaceholders_fits ha hcl.1 (List.ne_nil_of_mem hr) hal hfi).bind
      fun copied => ?_
    rintro g ⟨T', hc, hp, hkp⟩
    have hfl := fillCopyPlaceholders_copying (copying_originals ha hcl.1 hal).2
      (fun x hx => hp.subset (mem_originals hx)) hp hkp
    refine ((hfl.conseq (fun _ hs => hs) (fun _ _ hs => hs) fun _ hs => hs.toAccounted).bind
      fun _ => ?_) g hc
    split
    · exact (Exec.Triple.pure (Q := fun _ => PrivateHeap.Accounted) _).conseq_pre
        fun _ hs => hs.toAccounted
    · exact (Exec.Triple.throw _).conseq_pre fun _ hs => hs.toAccounted

end Galfus.VirtualMachine
