import Galfus.Types.Translation
import Mathlib.Data.List.Destutter
import Mathlib.Data.List.Sort

/-! # Union types

A union is interned with the members of the unions among its members in their place, in order and
without repetitions. Unions that are made in this way are canonical.
-/

namespace Galfus

/-- The members of a union; another type stands for itself. -/
def unionMembers (types : List TypeKind) (member : ℕ) : List ℕ :=
  match types[member]? with
  | some (.union members) => members
  | _ => [member]

/-- `sort_by_key` and `dedup`, which drops what repeats the entry before it. -/
def normalizedMembers (types : List TypeKind) (members : List ℕ) : List ℕ :=
  ((members.flatMap (unionMembers types)).insertionSort (· ≤ ·)).destutter (· ≠ ·)

def internUnion (members : List ℕ) : Interning ℕ := fun types =>
  match normalizedMembers types members with
  | [only] => (only, types)
  | normalized => intern (.union normalized) types

/-- Tables whose unions come from `intern_union`, on types of the table. -/
inductive Interned : List TypeKind → Prop
  | empty : Interned []
  | intern {types : List TypeKind} {kind : TypeKind} : Interned types →
      (∀ us, kind ≠ .union us) → Interned (intern kind types).2
  | union {types : List TypeKind} {members : List ℕ} : Interned types → members ≠ [] →
      (∀ m ∈ members, m < types.length) → Interned (internUnion members types).2

/-- A type of the table that is not a union. -/
def Plain (types : List TypeKind) (x : ℕ) : Prop :=
  x < types.length ∧ ∀ us, types[x]? ≠ some (.union us)

/-- The types that are left when all unions among the members, and among theirs, are opened. -/
inductive Flat (types : List TypeKind) : List ℕ → ℕ → Prop
  | plain {members : List ℕ} {x : ℕ} : x ∈ members → (∀ us, types[x]? ≠ some (.union us)) →
      Flat types members x
  | nested {members us : List ℕ} {u x : ℕ} : u ∈ members → types[u]? = some (.union us) →
      Flat types us x → Flat types members x

variable {types ts' : List TypeKind} {members : List ℕ}

theorem getElem?_of_isPrefix (h : types <+: ts') {x : ℕ} (hx : x < types.length) :
    ts'[x]? = types[x]? := by
  rw [List.prefix_iff_getElem?.mp h x hx, List.getElem?_eq_getElem hx]

theorem Plain.mono {x : ℕ} (hx : Plain types x) (h : types <+: ts') : Plain ts' x :=
  ⟨hx.1.trans_le h.length_le, (getElem?_of_isPrefix h hx.1).symm ▸ hx.2⟩

theorem sortedLT_normalizedMembers : (normalizedMembers types members).SortedLT := by
  have hs := List.pairwise_insertionSort (· ≤ ·) (members.flatMap (unionMembers types))
  refine List.Pairwise.sortedLT ?_
  unfold normalizedMembers
  rw [hs.destutter_eq_dedup]
  exact (hs.sublist (List.dedup_sublist _)).imp₂ (fun _ _ => lt_of_le_of_ne) (List.nodup_dedup _)

theorem mem_normalizedMembers {x : ℕ} :
    x ∈ normalizedMembers types members ↔ ∃ m ∈ members, x ∈ unionMembers types m := by
  have hs := List.pairwise_insertionSort (· ≤ ·) (members.flatMap (unionMembers types))
  rw [normalizedMembers, hs.destutter_eq_dedup, List.mem_dedup, List.mem_insertionSort,
    List.mem_flatMap]

/-- Members in order and without repetitions, of which none is a union. -/
def Normal (types : List TypeKind) (us : List ℕ) : Prop :=
  us.SortedLT ∧ 2 ≤ us.length ∧ ∀ x ∈ us, Plain types x

/-- Kinds are stored once, and unions in normal form. -/
structure Canonical (types : List TypeKind) : Prop where
  nodup : types.Nodup
  unions : ∀ {i : ℕ} {us : List ℕ}, types[i]? = some (.union us) → Normal types us

theorem unionMembers_of_ne {x : ℕ} (h : ∀ us, types[x]? ≠ some (.union us)) :
    unionMembers types x = [x] := by
  unfold unionMembers
  split
  · next us hus => exact absurd hus (h us)
  · rfl

namespace Canonical

theorem flat_iff (h : Canonical types) {x : ℕ} :
    Flat types members x ↔ x ∈ normalizedMembers types members := by
  rw [mem_normalizedMembers]
  constructor
  · rintro (⟨hx, hne⟩ | ⟨hu, hus, hf⟩)
    · exact ⟨x, hx, by simp [unionMembers_of_ne hne]⟩
    · refine ⟨_, hu, ?_⟩
      rw [unionMembers, hus]
      cases hf with
      | plain hx => exact hx
      | nested hv hvs => exact absurd hvs (((h.unions hus).2.2 _ hv).2 _)
  · rintro ⟨m, hm, hx⟩
    unfold unionMembers at hx
    split at hx
    · next us hus => exact .nested hm hus (.plain hx ((h.unions hus).2.2 x hx).2)
    · next hne =>
      obtain rfl := List.mem_singleton.mp hx
      exact .plain hm hne

theorem plain_of_mem (h : Canonical types) (hlt : ∀ m ∈ members, m < types.length) {x : ℕ}
    (hx : x ∈ normalizedMembers types members) : Plain types x := by
  obtain ⟨m, hm, hx⟩ := mem_normalizedMembers.mp hx
  unfold unionMembers at hx
  split at hx
  · next us hus => exact (h.unions hus).2.2 x hx
  · next hne =>
    obtain rfl := List.mem_singleton.mp hx
    exact ⟨hlt x hm, hne⟩

theorem normalizedMembers_ne_nil (h : Canonical types) (hne : members ≠ []) :
    normalizedMembers types members ≠ [] := by
  obtain ⟨m, hm⟩ := List.exists_mem_of_ne_nil _ hne
  have hex : unionMembers types m ≠ [] := by
    unfold unionMembers
    split
    · next us hus => exact List.ne_nil_of_length_pos (Nat.zero_lt_two.trans_le (h.unions hus).2.1)
    · exact List.cons_ne_nil _ _
  obtain ⟨x, hx⟩ := List.exists_mem_of_ne_nil _ hex
  exact List.ne_nil_of_mem (mem_normalizedMembers.mpr ⟨m, hm, hx⟩)

theorem intern (h : Canonical types) {k : TypeKind}
    (hk : ∀ us, k = .union us → Normal types us) : Canonical (intern k types).2 := by
  have hg := (gives_intern k types).1
  unfold Galfus.intern at hg ⊢
  cases hid : types.idxOf? k with
  | some id => exact h
  | none =>
    rw [hid] at hg
    constructor
    · have hn := List.idxOf?_eq_none_iff.mp hid
      exact List.concat_eq_append ▸ h.nodup.concat hn
    · intro i us hi
      have hus : Normal types us := by
        rcases List.mem_append.mp (List.mem_of_getElem? hi) with hm | hm
        · obtain ⟨j, hj⟩ := List.getElem?_of_mem hm
          exact h.unions hj
        · exact hk us (List.mem_singleton.mp hm).symm
      exact ⟨hus.1, hus.2.1, fun x hx => (hus.2.2 x hx).mono hg⟩

/-- The union is in normal form, and has the members that are left of the given ones. -/
theorem internUnion (h : Canonical types) (hne : members ≠ [])
    (hlt : ∀ m ∈ members, m < types.length) :
    types <+: (internUnion members types).2 ∧ Canonical (internUnion members types).2 ∧
      unionMembers (internUnion members types).2 (internUnion members types).1 =
        normalizedMembers types members := by
  have hp {x : ℕ} := h.plain_of_mem hlt (x := x)
  unfold Galfus.internUnion
  split
  · next only heq =>
    rw [heq] at hp ⊢
    exact ⟨List.prefix_rfl, h, unionMembers_of_ne (hp List.mem_cons_self).2⟩
  · next ho =>
    obtain ⟨hg, hid⟩ := gives_intern (.union (normalizedMembers types members)) types
    refine ⟨hg, h.intern fun us hus => ?_, by rw [unionMembers, hid]⟩
    cases hus
    refine ⟨sortedLT_normalizedMembers, ?_, fun x => hp⟩
    have hnl := h.normalizedMembers_ne_nil hne
    rcases hn : normalizedMembers types members with _ | ⟨x, _ | ⟨y, r⟩⟩
    · exact absurd hn hnl
    · exact absurd hn (ho x)
    · simp

end Canonical

theorem Interned.canonical (h : Interned types) : Canonical types := by
  induction h with
  | empty => exact ⟨List.nodup_nil, fun hi => by simp at hi⟩
  | intern _ hk ih => exact ih.intern fun us hus => absurd hus (hk us)
  | union _ hne hlt ih => exact (ih.internUnion hne hlt).2.1

/-- Interning keeps kinds unique and old types as they are. A union depends only on the types that
are left when the unions among its members are opened. -/
theorem internUnion_canonical (h : Interned types) :
    (∀ (i j : ℕ) (kind : TypeKind), types[i]? = some kind → types[j]? = some kind → i = j) ∧
    (∀ (i : ℕ) (us : List ℕ), types[i]? = some (.union us) → Normal types us) ∧
    (∀ kind, types <+: (intern kind types).2) ∧
    ∀ members, members ≠ [] → (∀ m ∈ members, m < types.length) →
      types <+: (internUnion members types).2 ∧
      (∀ x, x ∈ unionMembers (internUnion members types).2 (internUnion members types).1 ↔
        Flat types members x) ∧
      (∀ members', (∀ x, Flat types members x ↔ Flat types members' x) →
        internUnion members types = internUnion members' types) ∧
      ∀ rest, internUnion ((internUnion members types).1 :: rest) (internUnion members types).2 =
        internUnion (members ++ rest) (internUnion members types).2 := by
  have hc := h.canonical
  have hsm {types : List TypeKind} {members members' : List ℕ}
      (hmm : ∀ x, x ∈ normalizedMembers types members ↔ x ∈ normalizedMembers types members') :
      internUnion members types = internUnion members' types := by
    unfold internUnion
    rw [sortedLT_normalizedMembers.eq_of_mem_iff sortedLT_normalizedMembers hmm]
  refine ⟨fun i j kind hi hj => ?_, fun i us hi => hc.unions hi,
    fun kind => (gives_intern kind types).1, fun members hne hlt => ?_⟩
  · obtain ⟨hlt, rfl⟩ := List.getElem?_eq_some_iff.mp hi
    exact (List.getElem?_inj hlt hc.nodup).mp (hi.trans hj.symm)
  · obtain ⟨hg, -, hms⟩ := hc.internUnion hne hlt
    refine ⟨hg, fun x => by rw [hms, hc.flat_iff],
      fun members' hf => hsm fun x => ?_, fun rest => hsm fun x => ?_⟩
    · rw [← hc.flat_iff, ← hc.flat_iff, hf]
    · have hold : ∀ m ∈ members, unionMembers (internUnion members types).2 m =
          unionMembers types m := fun m hm => by
        rw [unionMembers, getElem?_of_isPrefix hg (hlt m hm), unionMembers]
      simp only [mem_normalizedMembers, List.mem_cons, List.mem_append, or_and_right, exists_or,
        exists_eq_left, hms]
      refine or_congr_left (exists_congr fun m => and_congr_right fun hm => ?_)
      rw [hold m hm]

/-- Of a union with a union: one id, and one with the members of both. -/
theorem internUnion_canonical_nested :
    internUnion [3, 2] [.primitive .null, .primitive .bool, .error, .union [0, 1]] =
      internUnion [0, 1, 2] [.primitive .null, .primitive .bool, .error, .union [0, 1]] := by
  have h : Interned [.primitive .null, .primitive .bool, .error] :=
    @Interned.intern _ .error (@Interned.intern _ (.primitive .bool)
      (@Interned.intern _ (.primitive .null) .empty nofun) nofun) nofun
  exact ((internUnion_canonical h).2.2.2 [0, 1] (by decide) (by decide)).2.2.2 [2]

end Galfus
