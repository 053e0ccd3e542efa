import Galfus.Table.Basic
import Mathlib.Algebra.Group.Action.Defs
import Mathlib.Algebra.Order.BigOperators.Group.Finset

/-! # Must-analysis with a worklist

Each node of a flow graph has a set of facts that hold on entry to it. A node that is
pending is taken from the front of the queue, and what holds after it flows into its
targets: a target keeps the facts that all its sources agree on and becomes pending again
when it loses one. The loop ends, and its facts are closed under the flow.
-/

namespace Galfus.Dataflow

variable {ν φ : Type} [DecidableEq ν]

/-- The facts found so far on entry to each node, and the nodes to visit next. -/
structure Progress (ν φ : Type) where
  facts : Table ν (Finset φ)
  pending : List ν

namespace Progress

/-- The target has facts, and all of them are in `out`. -/
def Below (p : Progress ν φ) (target : ν) (out : Finset φ) : Prop :=
  ∃ facts, p.facts.lookup target = some facts ∧ facts ⊆ out

/-- `q` has lost facts of `p`, and the nodes that lost some are pending in it. -/
structure Refines (p q : Progress ν φ) : Prop where
  below : ∀ {t out}, p.Below t out → q.Below t out
  pending : ∀ {n}, n ∈ p.pending → n ∈ q.pending
  same : ∀ n, n ∈ q.pending ∨ q.facts.lookup n = p.facts.lookup n

theorem Refines.refl (p : Progress ν φ) : p.Refines p :=
  ⟨id, id, fun _ => .inr rfl⟩

theorem Refines.trans {p q r : Progress ν φ} (h : p.Refines q) (h' : q.Refines r) :
    p.Refines r := by
  constructor
  · exact fun hb => h'.below (h.below hb)
  · exact fun hn => h'.pending (h.pending hn)
  · intro n
    rcases h'.same n with hn | hn
    · exact .inl hn
    · rcases h.same n with hm | hm
      · exact .inl (h'.pending hm)
      · exact .inr (hn.trans hm)

theorem refines_set {p : Progress ν φ} {t : ν} {nw : Finset φ}
    (hnw : ∀ o, p.facts.lookup t = some o → nw ⊆ o) :
    p.Refines ⟨p.facts.insert t nw, p.pending ++ [t]⟩ := by
  constructor
  · rintro t' out ⟨o, hl, hs⟩
    by_cases h : t' = t
    · subst h
      exact ⟨nw, AList.lookup_insert _, (hnw _ hl).trans hs⟩
    · exact ⟨o, by rw [Table.lookup_insert_eq, if_neg h, hl], hs⟩
  · intro n hn
    exact List.mem_append_left _ hn
  · intro n
    by_cases h : n = t
    · exact .inl (by simp [h])
    · exact .inr (by rw [Table.lookup_insert_eq, if_neg h])

variable [DecidableEq φ]

section

variable (out : Finset φ) (p : Progress ν φ)

/-- Let `out` flow into a target. -/
def flow (target : ν) : Progress ν φ :=
  match p.facts.lookup target with
  | some previous =>
    if previous ∩ out = previous then p
    else ⟨p.facts.insert target (previous ∩ out), p.pending ++ [target]⟩
  | none => ⟨p.facts.insert target out, p.pending ++ [target]⟩

theorem refines_flow (t : ν) : p.Refines (p.flow out t) := by
  unfold flow
  split
  · next old hold =>
    split
    · exact .refl p
    · refine refines_set fun o' ho' => ?_
      rw [Option.some.inj (ho'.symm.trans hold)]
      exact Finset.inter_subset_left
  · next hold =>
    refine refines_set fun o' ho' => ?_
    rw [hold] at ho'
    cases ho'

theorem below_flow (t : ν) : (p.flow out t).Below t out := by
  unfold flow
  split
  · next old hold =>
    split
    · next h => exact ⟨old, hold, Finset.inter_eq_left.mp h⟩
    · exact ⟨old ∩ out, AList.lookup_insert _, Finset.inter_subset_right⟩
  · exact ⟨out, AList.lookup_insert _, subset_rfl⟩

theorem refines_flows (ts : List ν) : p.Refines (ts.foldl (flow out) p) := by
  induction ts generalizing p with
  | nil => exact .refl p
  | cons t ts ih => exact (refines_flow out p t).trans (ih _)

theorem below_flows {ts : List ν} {t : ν} (ht : t ∈ ts) : (ts.foldl (flow out) p).Below t out := by
  induction ts generalizing p with
  | nil => cases ht
  | cons t' ts ih =>
    rcases List.mem_cons.mp ht with rfl | ht
    · exact (refines_flows out _ ts).below (below_flow out p t)
    · exact ih _ ht

end

end Progress

section Solve

variable [DecidableEq φ] (targets : ν → List ν) (transfer : ν → Finset φ → Finset φ)

/-- Visit pending nodes until there is none; a pending node without facts is an error. -/
def solve : ℕ → Progress ν φ → Option (Table ν (Finset φ))
  | 0, _ => none
  | fuel + 1, p =>
    match p.pending with
    | [] => some p.facts
    | n :: rest =>
      match p.facts.lookup n with
      | none => none
      | some facts =>
        solve fuel ((targets n).foldl (Progress.flow (transfer n facts)) ⟨p.facts, rest⟩)

/-- What holds after a node that is not pending has flowed into its targets. -/
def Settled (p : Progress ν φ) : Prop :=
  ∀ n, n ∈ p.pending ∨ ∀ facts, p.facts.lookup n = some facts →
    ∀ t ∈ targets n, p.Below t (transfer n facts)

variable {targets transfer}

theorem Settled.round {p : Progress ν φ} {n : ν} {r : List ν} {facts : Finset φ}
    (hp : Settled targets transfer p) (hpn : p.pending = n :: r)
    (hf : p.facts.lookup n = some facts) :
    Settled targets transfer
      ((targets n).foldl (Progress.flow (transfer n facts)) ⟨p.facts, r⟩) := by
  have hR := Progress.refines_flows (transfer n facts) ⟨p.facts, r⟩ (targets n)
  intro m
  rcases hR.same m with hm | hm
  · exact .inl hm
  by_cases hmm : m ∈ r
  · exact .inl (hR.pending hmm)
  refine .inr fun G hG t ht => ?_
  rw [hm] at hG
  by_cases hmn : m = n
  · subst hmn
    obtain rfl := Option.some.inj (hf.symm.trans hG)
    exact Progress.below_flows _ _ ht
  · rcases hp m with hin | hs
    · rw [hpn, List.mem_cons] at hin
      exact absurd hin (by simp [hmn, hmm])
    · exact hR.below (hs G hG t ht)

/-- At the end of the loop the facts are closed under the flow, and those of a node only get
fewer. -/
theorem solve_spec {fuel : ℕ} {p : Progress ν φ} {r : Table ν (Finset φ)}
    (hp : Settled targets transfer p) (h : solve targets transfer fuel p = some r) :
    (∀ t out, p.Below t out → ∃ facts, r.lookup t = some facts ∧ facts ⊆ out) ∧
      ∀ n facts, r.lookup n = some facts → ∀ t ∈ targets n,
        ∃ fs', r.lookup t = some fs' ∧ fs' ⊆ transfer n facts := by
  induction fuel generalizing p with
  | zero => cases h
  | succ fuel ih =>
    unfold solve at h
    split at h
    · next hpn =>
      obtain rfl := Option.some.inj h
      refine ⟨fun t out hb => hb, fun n facts hn t ht => ?_⟩
      rcases hp n with hin | hs
      · rw [hpn] at hin
        cases hin
      · exact hs facts hn t ht
    · next n rest hpn =>
      split at h
      · cases h
      · next facts hf =>
        obtain ⟨hbl, hc⟩ := ih (hp.round hpn hf) h
        refine ⟨fun t out hb => hbl t out ?_, hc⟩
        exact (Progress.refines_flows _ ⟨p.facts, rest⟩ _).below hb

theorem solve_start {fuel : ℕ} {e : ν} {s : Finset φ} {r : Table ν (Finset φ)}
    (h : solve targets transfer fuel ⟨(∅ : Table ν (Finset φ)).insert e s, [e]⟩ = some r) :
    (∃ facts, r.lookup e = some facts ∧ facts ⊆ s) ∧
      ∀ n facts, r.lookup n = some facts → ∀ t ∈ targets n,
        ∃ fs', r.lookup t = some fs' ∧ fs' ⊆ transfer n facts := by
  have hs : Settled targets transfer ⟨(∅ : Table ν (Finset φ)).insert e s, [e]⟩ := by
    intro n
    by_cases hn : n = e
    · exact .inl (by simp [hn])
    · refine .inr fun facts hf => ?_
      rw [Table.lookup_insert_eq, if_neg hn] at hf
      cases hf
  have hsp := solve_spec hs h
  exact ⟨hsp.1 e s ⟨s, AList.lookup_insert _, subset_rfl⟩, hsp.2⟩

end Solve

section Measure

variable (nodes : Finset ν) (domain : Finset φ) {p : Progress ν φ} {out : Finset φ}

/-- How many facts a node can still lose, where a first visit counts as one more. -/
def weight : Option (Finset φ) → ℕ
  | none => domain.card + 1
  | some facts => facts.card

def remaining (p : Progress ν φ) : ℕ :=
  ∑ n ∈ nodes, weight domain (p.facts.lookup n) + p.pending.length

/-- Only known nodes are pending, and facts are in the domain. -/
structure Bounded (p : Progress ν φ) : Prop where
  visited : ∀ n ∈ p.pending, ∃ facts, p.facts.lookup n = some facts
  facts : ∀ n facts, p.facts.lookup n = some facts → facts ⊆ domain

variable {nodes domain}

theorem Bounded.set (hp : Bounded domain p) {t : ν} {nw : Finset φ} (hnw : nw ⊆ domain) :
    Bounded domain ⟨p.facts.insert t nw, p.pending ++ [t]⟩ := by
  constructor
  · intro n hn
    by_cases h : n = t
    · exact ⟨nw, by rw [h, AList.lookup_insert]⟩
    · obtain ⟨facts, hf⟩ := hp.visited n (by simpa [h] using hn)
      exact ⟨facts, by rw [Table.lookup_insert_eq, if_neg h, hf]⟩
  · intro n facts hn
    rw [Table.lookup_insert_eq] at hn
    split at hn
    · rwa [← Option.some.inj hn]
    · exact hp.facts n facts hn

theorem remaining_set {t : ν} {nw : Finset φ} (ht : t ∈ nodes)
    (hlt : nw.card < weight domain (p.facts.lookup t)) :
    remaining nodes domain ⟨p.facts.insert t nw, p.pending ++ [t]⟩ ≤ remaining nodes domain p := by
  have hs : ∑ n ∈ nodes, weight domain ((p.facts.insert t nw).lookup n) <
      ∑ n ∈ nodes, weight domain (p.facts.lookup n) := by
    refine Finset.sum_lt_sum (fun n _ => ?_) ⟨t, ht, ?_⟩
    · by_cases h : n = t
      · subst h
        rw [AList.lookup_insert]
        exact hlt.le
      · rw [Table.lookup_insert_eq, if_neg h]
    · rw [AList.lookup_insert]
      exact hlt
  simp only [remaining, List.length_append, List.length_singleton]
  omega

variable [DecidableEq φ]

theorem Bounded.flow (hp : Bounded domain p) (ho : out ⊆ domain) (t : ν) :
    Bounded domain (p.flow out t) := by
  unfold Progress.flow
  split
  · split
    · exact hp
    · exact hp.set (Finset.inter_subset_right.trans ho)
  · exact hp.set ho

theorem remaining_flow (ho : out ⊆ domain) {t : ν} (ht : t ∈ nodes) :
    remaining nodes domain (p.flow out t) ≤ remaining nodes domain p := by
  unfold Progress.flow
  split
  · next old hold =>
    split
    · exact le_rfl
    · next hne =>
      refine remaining_set ht ?_
      rw [hold]
      exact Finset.card_lt_card (Finset.inter_subset_left.ssubset_of_ne hne)
  · next hold =>
    refine remaining_set ht ?_
    rw [hold]
    exact Nat.lt_succ_of_le (Finset.card_le_card ho)

theorem bounded_flows (hp : Bounded domain p) (ho : out ⊆ domain) (ts : List ν) :
    Bounded domain (ts.foldl (Progress.flow out) p) := by
  induction ts generalizing p with
  | nil => exact hp
  | cons t ts ih => exact ih (hp.flow ho t)

theorem remaining_flows (ho : out ⊆ domain) {ts : List ν} (hts : ∀ t ∈ ts, t ∈ nodes) :
    remaining nodes domain (ts.foldl (Progress.flow out) p) ≤ remaining nodes domain p := by
  induction ts generalizing p with
  | nil => exact le_rfl
  | cons t ts ih =>
    calc remaining nodes domain (ts.foldl (.flow out) (p.flow out t))
        ≤ remaining nodes domain (p.flow out t) :=
          ih fun t' ht' => hts t' (List.mem_cons_of_mem _ ht')
      _ ≤ remaining nodes domain p := remaining_flow ho (hts t List.mem_cons_self)

variable {targets : ν → List ν} {transfer : ν → Finset φ → Finset φ}

section

variable (hg : ∀ n, ∀ t ∈ targets n, t ∈ nodes)
  (ht : ∀ n facts, facts ⊆ domain → transfer n facts ⊆ domain) {f : ℕ}
include hg ht

theorem solve_isSome (hp : Bounded domain p) (hfl : remaining nodes domain p < f) :
    (solve targets transfer f p).isSome := by
  induction f generalizing p with
  | zero => omega
  | succ f ih =>
    unfold solve
    split
    · rfl
    · next n rest hpn =>
      obtain ⟨facts, hf⟩ := hp.visited n (by rw [hpn]; exact List.mem_cons_self)
      have ho := ht n facts (hp.facts n facts hf)
      have hr : Bounded domain ⟨p.facts, rest⟩ :=
        ⟨fun m hm => hp.visited m (by rw [hpn]; exact List.mem_cons_of_mem _ hm), hp.facts⟩
      have hl : remaining nodes domain ⟨p.facts, rest⟩ < remaining nodes domain p := by
        simp only [remaining, hpn, List.length_cons]
        omega
      simp only [hf]
      refine ih (bounded_flows hr ho _) ?_
      exact lt_of_le_of_lt (remaining_flows ho (hg n)) (by omega)

theorem solve_start_isSome {e : ν} {s : Finset φ} (hs : s ⊆ domain) (hf :
    nodes.card * (domain.card + 1) + 1 < f) :
    (solve targets transfer f ⟨(∅ : Table ν (Finset φ)).insert e s, [e]⟩).isSome := by
  have hw (facts : Option (Finset φ)) (h : ∀ F, facts = some F → F ⊆ domain) :
      weight domain facts ≤ domain.card + 1 := by
    cases facts with
    | none => exact le_rfl
    | some F => exact Nat.le_succ_of_le (Finset.card_le_card (h F rfl))
  have hb : Bounded domain ⟨(∅ : Table ν (Finset φ)).insert e s, [e]⟩ := by
    refine .set (p := ⟨∅, []⟩) ⟨fun n hn => ?_, fun n facts hn => ?_⟩ hs
    · cases hn
    · cases hn
  refine solve_isSome hg ht hb (lt_of_le_of_lt ?_ hf)
  have hsm := Finset.sum_le_card_nsmul nodes
    (fun n => weight domain (((∅ : Table ν (Finset φ)).insert e s).lookup n))
    (domain.card + 1) fun n _ => hw _ (hb.facts n)
  rw [smul_eq_mul] at hsm
  simpa only [remaining, List.length_singleton] using Nat.add_le_add_right hsm 1

end

end Measure

section Paths

variable {ν φ : Type} (targets : ν → List ν) (transfer : ν → Finset φ → Finset φ)

/-- The facts left at the end of a path from the node `e`, which starts with `s`. -/
inductive Flows (e : ν) (s : Finset φ) : ν → Finset φ → Prop
  | start : Flows e s e s
  | edge {n t : ν} {facts : Finset φ} (h : Flows e s n facts) (ht : t ∈ targets n) :
      Flows e s t (transfer n facts)

/-- Whether a fact is left depends on that fact alone. -/
def Pointwise (f : Finset φ → Finset φ) : Prop :=
  ∀ a b x, (x ∈ a → x ∈ b) → x ∈ f a → x ∈ f b

theorem Pointwise.foldl {ι : Type} {f : Finset φ → ι → Finset φ}
    (h : ∀ i, Pointwise (f · i)) (l : List ι) : Pointwise (l.foldl f) := by
  induction l with
  | nil => exact fun _ _ _ hx => hx
  | cons i l ih => exact fun a b x hx => ih _ _ x (h i a b x hx)

variable {targets transfer} [DecidableEq ν] [DecidableEq φ]

section

variable {I : ν → Finset φ → Prop} (hi : ∀ n a b, I n a → I n b → I n (a ∩ b)) {p : Progress ν φ}
  (hp : ∀ n facts, p.facts.lookup n = some facts → I n facts)
include hi hp

theorem Progress.flow_induction {o : Finset φ} {t : ν} (ho : I t o) :
    ∀ n facts, (p.flow o t).facts.lookup n = some facts → I n facts := by
  have hs {w : Finset φ} (hw : I t w) (n : ν) (facts : Finset φ)
      (hn : (p.facts.insert t w).lookup n = some facts) : I n facts := by
    rw [Table.lookup_insert_eq] at hn
    split at hn
    · next heq => exact heq ▸ Option.some.inj hn ▸ hw
    · exact hp n facts hn
  unfold flow
  split
  · next b hb =>
    split
    · exact hp
    · exact hs (hi t b o (hp t b hb) ho)
  · exact hs ho

/-- What is kept along edges and where paths meet holds of all facts that are found. -/
theorem solve_induction (he : ∀ n, ∀ t ∈ targets n, ∀ facts, I n facts → I t (transfer n facts))
    {f : ℕ} {r : Table ν (Finset φ)} (h : solve targets transfer f p = some r) :
    ∀ n facts, r.lookup n = some facts → I n facts := by
  induction f generalizing p with
  | zero => cases h
  | succ f ih =>
    unfold solve at h
    split at h
    · cases h
      exact hp
    · next n l _ =>
      split at h
      · cases h
      · next facts hn =>
        have ho := fun t ht => he n t ht facts (hp n facts hn)
        refine ih ?_ h
        exact List.foldlRecOn (motive := fun q : Progress ν φ =>
          ∀ n facts, q.facts.lookup n = some facts → I n facts) _ _ hp
            fun q hq t ht => Progress.flow_induction hi hq (ho t ht)

end

/-- The facts found are those that are left on all paths. -/
structure MeetsPaths (targets : ν → List ν) (transfer : ν → Finset φ → Finset φ) (e : ν)
    (s : Finset φ) (r : Table ν (Finset φ)) : Prop where
  reached : ∀ n o, Flows targets transfer e s n o → (r.lookup n).isSome = true
  mem_iff : ∀ n facts, r.lookup n = some facts →
    ∀ x, x ∈ facts ↔ ∀ o, Flows targets transfer e s n o → x ∈ o

theorem solve_meetsPaths (hp : ∀ n, Pointwise (transfer n)) {f : ℕ} {e : ν} {s : Finset φ}
    {r : Table ν (Finset φ)}
    (h : solve targets transfer f ⟨(∅ : Table ν (Finset φ)).insert e s, [e]⟩ = some r) :
    MeetsPaths targets transfer e s r := by
  have hs {n : ν} {o : Finset φ} (ho : Flows targets transfer e s n o) :
      ∃ a, r.lookup n = some a ∧ a ⊆ o := by
    induction ho with
    | start => exact (solve_start h).1
    | edge _ ht ih =>
      obtain ⟨a, hl, ha⟩ := ih
      obtain ⟨b, hb, hba⟩ := (solve_start h).2 _ a hl _ ht
      exact ⟨b, hb, hba.trans fun x => hp _ a _ x (@ha x)⟩
  refine ⟨fun n o ho => ?_, fun n facts hf x => ⟨fun hx o ho => ?_, fun hx => ?_⟩⟩
  · obtain ⟨a, ha, -⟩ := hs ho
    exact Option.isSome_of_eq_some ha
  · obtain ⟨a, ha, hao⟩ := hs ho
    exact hao (Option.some.inj (hf.symm.trans ha) ▸ hx)
  · -- some path keeps no more of the fact than what is found
    have hc : ∃ o, Flows targets transfer e s n o ∧ (x ∈ o → x ∈ facts) := by
      refine solve_induction (I := fun n a => ∃ o, Flows targets transfer e s n o ∧
        (x ∈ o → x ∈ a)) ?_ ?_ ?_ h n facts hf
      · rintro n a b ⟨o, ho, hoa⟩ ⟨o', ho', hob⟩
        by_cases ha : x ∈ a
        · exact ⟨o', ho', fun hx => Finset.mem_inter.mpr ⟨ha, hob hx⟩⟩
        · exact ⟨o, ho, fun hx => absurd (hoa hx) ha⟩
      · intro n a hn
        rw [Table.lookup_insert_eq] at hn
        split at hn
        · next heq => exact ⟨s, heq ▸ .start, fun hx => Option.some.inj hn ▸ hx⟩
        · cases hn
      · rintro n t ht a ⟨o, ho, hoa⟩
        exact ⟨_, ho.edge ht, hp n o a x hoa⟩
    obtain ⟨o, ho, hxo⟩ := hc
    exact hxo (hx o ho)

end Paths

end Galfus.Dataflow
