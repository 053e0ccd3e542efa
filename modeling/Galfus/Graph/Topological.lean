import Galfus.Graph.Reach

/-! # Depth-first topological order

A depth-first search lists a node when it has finished all its successors. Nodes on the
current path are marked; a visit to one of them is an error, and shows a cycle.
-/

namespace Galfus.Graph

variable {ν ε : Type*} {l : List ν}

/-- The nodes finished, as a list and as a set, and the nodes on the current path. -/
structure Traversal (ν : Type*) where
  order : List ν
  visited : Finset ν
  visiting : Finset ν

def visitAll (visit : ν → Traversal ν → Option (Except ε (Traversal ν))) :
    List ν → Traversal ν → Option (Except ε (Traversal ν))
  | [], s => some (.ok s)
  | n :: ns, s =>
    match visit n s with
    | some (.ok s') => visitAll visit ns s'
    | r => r

/-- Visit a node, with fuel for the depth of the search. -/
def visit [DecidableEq ν] (next : ν → Option (Except ε (List ν))) (cycle : ν → ε) :
    ℕ → ν → Traversal ν → Option (Except ε (Traversal ν))
  | 0, _, _ => none
  | fuel + 1, n, s =>
    if n ∈ s.visited then some (.ok s)
    else if n ∈ s.visiting then some (.error (cycle n))
    else
      match next n with
      | none => none
      | some (.error e) => some (.error e)
      | some (.ok ns) =>
        match visitAll (visit next cycle fuel) ns { s with visiting := insert n s.visiting } with
        | some (.ok s') =>
          some (.ok ⟨s'.order ++ [n], insert n s'.visited, s'.visiting.erase n⟩)
        | r => r

variable (succ : ν → List ν)

def Leads : ν → ν → Prop := Relation.TransGen fun u w => w ∈ succ u

def Topological (l : List ν) : Prop :=
  ∀ l₁ a l₂, l = l₁ ++ a :: l₂ → ∀ b ∈ succ a, b ∈ l₁

variable {succ}

theorem Topological.snoc (h : Topological succ l) {n : ν} (hn : ∀ b ∈ succ n, b ∈ l) :
    Topological succ (l ++ [n]) := by
  intro l₁ a l₂ heq b hb
  rcases List.eq_nil_or_concat l₂ with rfl | ⟨l₂, z, rfl⟩
  · obtain ⟨rfl, hl⟩ := List.append_inj' heq rfl
    obtain rfl := List.singleton_inj.mp hl
    exact hn b hb
  · rw [List.concat_eq_append, ← List.cons_append, ← List.append_assoc] at heq
    obtain ⟨rfl, -⟩ := List.append_inj' heq rfl
    exact h l₁ a l₂ rfl b hb

theorem Topological.closed (h : Topological succ l) : Closed succ {x | x ∈ l} := by
  intro a ha b hb
  obtain ⟨l₁, l₂, rfl⟩ := List.append_of_mem ha
  exact List.mem_append_left _ (h l₁ a l₂ rfl b hb)

theorem Topological.left {l' : List ν} (h : Topological succ (l ++ l')) : Topological succ l := by
  rintro l₁ a l₂ rfl b hb
  exact h l₁ a (l₂ ++ l') (by simp) b hb

/-- No node of a topological order without duplicates is on a cycle. -/
theorem Topological.not_leads (h : Topological succ l) (hl : l.Nodup) {a : ν} (ha : a ∈ l) :
    ¬Leads succ a a := by
  intro hc
  obtain ⟨l₁, l₂, rfl⟩ := List.append_of_mem ha
  have hlf : Closed succ {x | x ∈ l₁} := h.left.closed
  obtain ⟨b, hb, hba⟩ := Relation.TransGen.head'_iff.mp hc
  have hm : a ∈ l₁ := hlf.mem_of_reaches (h l₁ a l₂ rfl b hb) hba
  exact (List.nodup_append.mp hl).2.2 a hm a List.mem_cons_self rfl

theorem Topological.last (h : Topological succ l) (hl : l.Nodup) {a : ν} (ha : a ∈ l)
    (hr : ∀ x ∈ l, Reaches succ a x) : ∃ l', l = l' ++ [a] := by
  obtain ⟨l₁, l₂, rfl⟩ := List.append_of_mem ha
  cases l₂ with
  | nil => exact ⟨l₁, rfl⟩
  | cons b l₂ =>
    have hs : l₁ ++ a :: b :: l₂ = (l₁ ++ [a]) ++ b :: l₂ := by simp
    rw [hs] at h hl
    have hb : b ∈ l₁ ++ [a] :=
      h.left.closed.mem_of_reaches (by simp) (hr b (by simp))
    exact absurd rfl ((List.nodup_append.mp hl).2.2 b hb b List.mem_cons_self)

/-- The finished nodes are in topological order, and none of them is on the path. -/
structure Traversal.Good (succ : ν → List ν) (s : Traversal ν) : Prop where
  visited : ∀ x, x ∈ s.visited ↔ x ∈ s.order
  nodup : s.order.Nodup
  topological : Topological succ s.order
  path : ∀ x ∈ s.visiting, x ∉ s.visited

/-- What visiting the nodes `ns` without an error has done. -/
structure Visits (succ : ν → List ν) (ns : List ν) (s s' : Traversal ν) : Prop where
  good : s'.Good succ
  visiting : s'.visiting = s.visiting
  order : ∃ new, s'.order = s.order ++ new ∧ ∀ x ∈ new, ∃ n ∈ ns, Reaches succ n x
  finished : ∀ n ∈ ns, n ∈ s'.order

variable {s : Traversal ν}

theorem Visits.nil (hs : s.Good succ) : Visits succ [] s s :=
  ⟨hs, rfl, ⟨[], by simp⟩, by simp⟩

theorem Visits.cons {n : ν} {ns : List ν} {s' s'' : Traversal ν} (h : Visits succ [n] s s')
    (h' : Visits succ ns s' s'') : Visits succ (n :: ns) s s'' := by
  obtain ⟨nw, hn, hr⟩ := h.order
  obtain ⟨n', hn', hr'⟩ := h'.order
  constructor
  · exact h'.good
  · exact h'.visiting.trans h.visiting
  · refine ⟨nw ++ n', by rw [hn', hn, List.append_assoc], fun x hx => ?_⟩
    rcases List.mem_append.mp hx with hx | hx
    · obtain ⟨m, hm, hmx⟩ := hr x hx
      obtain rfl := List.mem_singleton.mp hm
      exact ⟨m, List.mem_cons_self, hmx⟩
    · obtain ⟨m, hm, hmx⟩ := hr' x hx
      exact ⟨m, List.mem_cons_of_mem _ hm, hmx⟩
  · refine List.forall_mem_cons.mpr ⟨?_, h'.finished⟩
    rw [hn']
    exact List.mem_append_left _ (h.finished n List.mem_cons_self)

/-- The visit shows a cycle that can be reached from `ns`. -/
def ShowsCycle (succ : ν → List ν) (cycle : ν → ε) (ns : List ν) (e : ε) : Prop :=
  ∃ n ∈ ns, ∃ m, Reaches succ n m ∧ Leads succ m m ∧ e = cycle m

def Outcome (succ : ν → List ν) (cycle : ν → ε) (ns : List ν) (s : Traversal ν) :
    Except ε (Traversal ν) → Prop
  | .ok s' => Visits succ ns s s'
  | .error e => ShowsCycle succ cycle ns e

variable {next : ν → Option (Except ε (List ν))} {c : ν → ε} {ns : Finset ν}

theorem visitAll_spec {vs : ν → Traversal ν → Option (Except ε (Traversal ν))}
    {v : Finset ν} {ns : List ν}
    (hvs : ∀ n ∈ ns, ∀ s : Traversal ν, s.Good succ → s.visiting = v →
      ∃ r, vs n s = some r ∧ Outcome succ c [n] s r) (hs : s.Good succ)
    (hv : s.visiting = v) :
    ∃ r, visitAll vs ns s = some r ∧ Outcome succ c ns s r := by
  induction ns generalizing s with
  | nil => exact ⟨.ok s, rfl, .nil hs⟩
  | cons n ns ih =>
    obtain ⟨r, hr, ho⟩ := hvs n List.mem_cons_self s hs hv
    unfold visitAll
    cases r with
    | error e =>
      obtain ⟨m, hm, hc⟩ := ho
      rw [hr]
      exact ⟨.error e, rfl, m, List.mem_cons.mpr (.inl (List.mem_singleton.mp hm)), hc⟩
    | ok s' =>
      rw [hr]
      have hs' : Visits succ [n] s s' := ho
      obtain ⟨r, hr, ho⟩ := ih (fun m hm => hvs m (List.mem_cons_of_mem _ hm)) hs'.good
        (hs'.visiting.trans hv)
      refine ⟨r, hr, ?_⟩
      cases r with
      | error e =>
        obtain ⟨m, hm, hc⟩ := ho
        exact ⟨m, List.mem_cons_of_mem _ hm, hc⟩
      | ok s'' => exact hs'.cons ho

variable [DecidableEq ν]

theorem Visits.finish {n : ν} {s' : Traversal ν} (hn : n ∉ s.visited) (hpt : n ∉ s.visiting)
    (h : Visits succ (succ n) { s with visiting := insert n s.visiting } s') :
    Visits succ [n] s ⟨s'.order ++ [n], insert n s'.visited, s'.visiting.erase n⟩ := by
  obtain ⟨nw, hnw, hrc⟩ := h.order
  have hvs : s'.visiting.erase n = s.visiting := by
    rw [h.visiting, Finset.erase_insert hpt]
  have hnt : n ∉ s'.visited := h.good.path n (by rw [h.visiting]; exact Finset.mem_insert_self _ _)
  constructor
  · constructor
    · simp [h.good.visited, or_comm]
    · refine List.nodup_append.mpr ⟨h.good.nodup, List.nodup_singleton n, ?_⟩
      rintro a ha _ hb rfl
      obtain rfl := List.mem_singleton.mp hb
      exact hnt ((h.good.visited a).mpr ha)
    · exact h.good.topological.snoc h.finished
    · intro x hx hmm
      obtain ⟨hne, hx⟩ := Finset.mem_erase.mp hx
      rcases Finset.mem_insert.mp hmm with rfl | hmm
      · exact hne rfl
      · exact h.good.path x hx hmm
  · exact hvs
  · refine ⟨nw ++ [n], by simp [hnw], fun x hx => ⟨n, List.mem_singleton_self n, ?_⟩⟩
    rcases List.mem_append.mp hx with hx | hx
    · obtain ⟨m, hm, hmx⟩ := hrc x hx
      exact .head hm hmx
    · obtain rfl := List.mem_singleton.mp hx
      exact .refl x
  · intro m hm
    rw [List.mem_singleton.mp hm]
    exact List.mem_append_right _ (List.mem_singleton_self n)

/-- The visit of a node ends. It finishes the node, or shows a cycle. -/
theorem visit_spec (hnx : ∀ n ∈ ns, next n = some (.ok (succ n)))
    (hnd : ∀ n ∈ ns, ∀ m ∈ succ n, m ∈ ns) {f : ℕ} {n : ν} (hn : n ∈ ns)
    (hs : s.Good succ) (hpt : ∀ x ∈ s.visiting, Leads succ x n)
    (hfl : (ns \ s.visiting).card < f) :
    ∃ r, visit next c f n s = some r ∧ Outcome succ c [n] s r := by
  induction f generalizing n s with
  | zero => omega
  | succ f ih =>
    unfold visit
    split
    · next hvi =>
      refine ⟨.ok s, rfl, hs, rfl, ⟨[], by simp⟩, fun m hm => ?_⟩
      rw [List.mem_singleton.mp hm]
      exact (hs.visited n).mp hvi
    next hvi =>
    split
    · next hvs =>
      exact ⟨_, rfl, n, List.mem_singleton_self n, n, .refl n, hpt n hvs, rfl⟩
    next hvs =>
    have hgd : Traversal.Good succ { s with visiting := insert n s.visiting } := by
      refine ⟨hs.visited, hs.nodup, hs.topological, fun x hx => ?_⟩
      rcases Finset.mem_insert.mp hx with rfl | hx
      · exact hvi
      · exact hs.path x hx
    have hls : (ns \ insert n s.visiting).card < (ns \ s.visiting).card := by
      refine Finset.card_lt_card (Finset.ssubset_iff_of_subset ?_ |>.mpr ⟨n, ?_, ?_⟩)
      · exact Finset.sdiff_subset_sdiff subset_rfl (Finset.subset_insert _ _)
      · exact Finset.mem_sdiff.mpr ⟨hn, hvs⟩
      · simp
    have hsc : ∀ m ∈ succ n, ∀ s' : Traversal ν, s'.Good succ → s'.visiting = insert n s.visiting →
        ∃ r, visit next c f m s' = some r ∧ Outcome succ c [m] s' r := by
      intro m hm s' hs' hvs'
      refine ih (hnd n hn m hm) hs' (fun x hx => ?_) (by rw [hvs']; omega)
      rw [hvs'] at hx
      rcases Finset.mem_insert.mp hx with rfl | hx
      · exact .single hm
      · exact .tail (hpt x hx) hm
    obtain ⟨r, hr, hot⟩ := visitAll_spec hsc hgd rfl
    rw [hnx n hn]
    dsimp only
    rw [hr]
    cases r with
    | error e =>
      obtain ⟨m, hm, k, hmk, hcy⟩ := hot
      exact ⟨_, rfl, n, List.mem_singleton_self n, k, .head hm hmk, hcy⟩
    | ok s' => exact ⟨_, rfl, .finish hvi hvs hot⟩

/-- A search from one node gives the nodes that it reaches in topological order, none of them on a
cycle, or it shows a cycle that the node reaches. -/
theorem visit_start (c : ν → ε) (hnx : ∀ n ∈ ns, next n = some (.ok (succ n)))
    (hnd : ∀ n ∈ ns, ∀ m ∈ succ n, m ∈ ns) {f : ℕ} {n : ν} (hn : n ∈ ns)
    (hfl : ns.card < f) :
    (∃ s, visit next c f n ⟨[], ∅, ∅⟩ = some (.ok s) ∧ s.order.Nodup ∧
        (∃ l, s.order = l ++ [n]) ∧ (∀ x, x ∈ s.order ↔ Reaches succ n x) ∧
        Topological succ s.order ∧ ¬∃ m, Reaches succ n m ∧ Leads succ m m) ∨
      ∃ m, visit next c f n ⟨[], ∅, ∅⟩ = some (.error (c m)) ∧ Reaches succ n m ∧
        Leads succ m m := by
  have hgd : Traversal.Good succ ⟨[], ∅, ∅⟩ :=
    ⟨by simp, List.nodup_nil, fun l₁ a l₂ h => by simp at h, by simp⟩
  obtain ⟨r, hr, hot⟩ : ∃ r, visit next c f n ⟨[], ∅, ∅⟩ = some r ∧
      Outcome succ c [n] ⟨[], ∅, ∅⟩ r :=
    visit_spec hnx hnd hn hgd (by simp) (by simpa)
  cases r with
  | error e =>
    obtain ⟨k, hk, m, hm, hcy, rfl⟩ := hot
    obtain rfl := List.mem_singleton.mp hk
    exact .inr ⟨m, hr, hm, hcy⟩
  | ok s =>
    have hs : Visits succ [n] ⟨[], ∅, ∅⟩ s := hot
    obtain ⟨nw, hnw, hrc⟩ := hs.order
    have hmm : ∀ x, x ∈ s.order ↔ Reaches succ n x := by
      refine fun x => ⟨fun hx => ?_, hs.good.topological.closed.mem_of_reaches ?_⟩
      · rw [hnw, List.nil_append] at hx
        obtain ⟨k, hk, hkx⟩ := hrc x hx
        rwa [List.mem_singleton.mp hk] at hkx
      · exact hs.finished n (List.mem_singleton_self n)
    refine .inl ⟨s, hr, hs.good.nodup, ?_, hmm, hs.good.topological, ?_⟩
    · exact hs.good.topological.last hs.good.nodup (hs.finished n (List.mem_singleton_self n))
        fun x hx => (hmm x).mp hx
    · rintro ⟨m, hm, hcy⟩
      exact hs.good.topological.not_leads hs.good.nodup ((hmm m).mpr hm) hcy

end Galfus.Graph
