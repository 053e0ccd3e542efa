import Mathlib.Data.BitVec
import Mathlib.Data.Fintype.Card
import Mathlib.Tactic.Abel

/-! # Register windows

The register allocator records which registers stand at a fixed distance from each other, in a
union-find structure whose links carry offsets. Finding a root compresses the path to it.
-/

namespace Galfus

open Function

/-- The vectors have one entry for each of `n` registers. -/
structure WeightedUnionFind (n : ℕ) where
  parent : Fin n → Fin n
  offsetToParent : Fin n → BitVec 32

namespace WeightedUnionFind

variable {n : ℕ}

def new (n : ℕ) : WeightedUnionFind n :=
  ⟨id, fun _ => 0⟩

/-- `find`, with at most `fuel` calls open at once. -/
def findWithin (u : WeightedUnionFind n) :
    ℕ → Fin n → Option ((Fin n × BitVec 32) × WeightedUnionFind n)
  | 0, _ => none
  | fuel + 1, node =>
    if u.parent node = node then some ((node, 0), u)
    else do
      let ((root, parentOffset), u) ← u.findWithin fuel (u.parent node)
      let offset := u.offsetToParent node + parentOffset
      some ((root, offset), ⟨update u.parent node root, update u.offsetToParent node offset⟩)

def find (u : WeightedUnionFind n) (node : Fin n) :
    Option ((Fin n × BitVec 32) × WeightedUnionFind n) :=
  u.findWithin n node

/-- A call `union(left, right, distance)`. -/
structure Call (n : ℕ) where
  left : Fin n
  right : Fin n
  distance : BitVec 32

def union (u : WeightedUnionFind n) (c : Call n) : Option (Bool × WeightedUnionFind n) := do
  let ((leftRoot, leftOffset), u) ← u.find c.left
  let ((rightRoot, rightOffset), u) ← u.find c.right
  if leftRoot = rightRoot then some (rightOffset == leftOffset + c.distance, u)
  else
    some (true, ⟨update u.parent rightRoot leftRoot,
      update u.offsetToParent rightRoot (leftOffset + c.distance - rightOffset)⟩)

/-- A fresh structure after calls of `union` that all returned true, and calls of `find`. -/
inductive Recorded : List (Call n) → WeightedUnionFind n → Prop
  | new : Recorded [] (new n)
  | union {calls : List (Call n)} {u u' : WeightedUnionFind n} {c : Call n} :
      Recorded calls u → u.union c = some (true, u') → Recorded (c :: calls) u'
  | find {calls : List (Call n)} {u u' : WeightedUnionFind n} {node : Fin n}
      {r : Fin n × BitVec 32} : Recorded calls u → u.find node = some (r, u') → Recorded calls u'

/-- The calls connect `a` to `b` by a chain whose distances have the sum `D`. -/
inductive Chain (calls : List (Call n)) : Fin n → Fin n → ℤ → Prop
  | nil (a : Fin n) : Chain calls a a 0
  | call {c : Call n} : c ∈ calls → Chain calls c.left c.right c.distance.toInt
  | back {a b : Fin n} {D : ℤ} : Chain calls a b D → Chain calls b a (-D)
  | append {a b c : Fin n} {D E : ℤ} :
      Chain calls a b D → Chain calls b c E → Chain calls a c (D + E)

theorem Chain.mono {calls cs' : List (Call n)} (hs : calls ⊆ cs') {a b : Fin n} {D : ℤ}
    (h : Chain calls a b D) : Chain cs' a b D := by
  induction h with
  | nil a => exact .nil a
  | call hc => exact .call (hs hc)
  | back _ ih => exact ih.back
  | append _ _ ih ih' => exact ih.append ih'

/-- The root of each node, its offset from there, and a bound on the length of its path. -/
structure Layout (n : ℕ) where
  root : Fin n → Fin n
  offset : Fin n → BitVec 32
  depth : Fin n → ℕ
  root_root : ∀ i, root (root i) = root i
  offset_root : ∀ i, offset (root i) = 0
  depth_root : ∀ i, depth (root i) = 0
  depth_le : ∀ i, depth i ≤ (Finset.univ.filter fun j => root j ≠ j).card

namespace Layout

variable (L : Layout n)

theorem depth_lt (i : Fin n) : L.depth i < n := by
  have hlt := Finset.card_lt_univ_of_notMem (x := L.root i)
    (s := Finset.univ.filter fun j => L.root j ≠ j) (by simp [L.root_root])
  rw [Fintype.card_fin] at hlt
  exact (L.depth_le i).trans_lt hlt

/-- A call is met: its nodes have one root and stand at its distance. -/
def Meets (c : Call n) : Prop :=
  L.root c.left = L.root c.right ∧ L.offset c.right = L.offset c.left + c.distance

/-- The root of `right` becomes an inner node, below the root of `left`. -/
def join (c : Call n) (hne : L.root c.left ≠ L.root c.right) : Layout n where
  root i := if L.root i = L.root c.right then L.root c.left else L.root i
  offset i :=
    if L.root i = L.root c.right then L.offset i + (L.offset c.left + c.distance - L.offset c.right)
    else L.offset i
  depth i := if L.root i = L.root c.right then L.depth i + 1 else L.depth i
  root_root i := by grind [L.root_root]
  offset_root i := by grind [L.root_root, L.offset_root]
  depth_root i := by grind [L.root_root, L.depth_root]
  depth_le i := by
    have hroot := L.root_root c.right
    have hinner : (Finset.univ.filter fun j =>
        (if L.root j = L.root c.right then L.root c.left else L.root j) ≠ j) =
          insert (L.root c.right) (Finset.univ.filter fun j => L.root j ≠ j) := by
      ext j
      grind [L.root_root]
    have hle := L.depth_le i
    rw [hinner, Finset.card_insert_of_notMem (by simp [hroot])]
    split <;> omega

end Layout

/-- The structure stores the layout. -/
structure Stores (u : WeightedUnionFind n) (L : Layout n) : Prop where
  top : ∀ i, u.parent i = i ↔ L.root i = i
  step : ∀ i, u.parent i ≠ i → L.root (u.parent i) = L.root i ∧
    L.offset i = u.offsetToParent i + L.offset (u.parent i) ∧ L.depth (u.parent i) < L.depth i

namespace Stores

variable {u : WeightedUnionFind n} {L : Layout n}

/-- A node may point to its root at once. -/
theorem compress (h : u.Stores L) {i : Fin n} (hi : u.parent i ≠ i) :
    Stores ⟨update u.parent i (L.root i), update u.offsetToParent i (L.offset i)⟩ L := by
  have hd := (h.step i hi).2.2
  constructor
  · intro j
    rcases eq_or_ne j i with rfl | hne
    · simp only [update_self]
    · simp only [update_of_ne hne, h.top]
  · intro j hj
    rcases eq_or_ne j i with rfl | hne
    · simp only [update_self, L.root_root, L.offset_root, L.depth_root]
      exact ⟨trivial, (add_zero _).symm, by omega⟩
    · simp only [update_of_ne hne] at hj ⊢
      exact h.step j hj

theorem findWithin (h : u.Stores L) {f : ℕ} {i : Fin n} (hfl : L.depth i < f) :
    ∃ u', u.findWithin f i = some ((L.root i, L.offset i), u') ∧ u'.Stores L ∧
      ∀ j, L.depth i < L.depth j →
        u'.parent j = u.parent j ∧ u'.offsetToParent j = u.offsetToParent j := by
  induction f generalizing i with
  | zero => omega
  | succ f ih =>
    unfold WeightedUnionFind.findWithin
    by_cases hi : u.parent i = i
    · have hr := (h.top i).mp hi
      rw [if_pos hi, ← L.offset_root i, hr]
      exact ⟨u, rfl, h, fun _ _ => ⟨rfl, rfl⟩⟩
    · obtain ⟨hr, ho, hlt⟩ := h.step i hi
      obtain ⟨u₁, hfn, h₁, hf⟩ := ih (i := u.parent i) (by omega)
      obtain ⟨hp, hl⟩ := hf i hlt
      rw [if_neg hi, hfn]
      simp only [Option.bind_eq_bind, Option.bind_some, hl, ← ho, hr]
      refine ⟨_, rfl, h₁.compress (hp ▸ hi), fun j hj => ?_⟩
      have hne : j ≠ i := by
        rintro rfl
        omega
      simp only [update_of_ne hne]
      exact hf j (by omega)

theorem find (h : u.Stores L) (i : Fin n) :
    ∃ u', u.find i = some ((L.root i, L.offset i), u') ∧ u'.Stores L := by
  obtain ⟨u', hf, h', -⟩ := h.findWithin (L.depth_lt i)
  exact ⟨u', hf, h'⟩

theorem join {c : Call n} (h : u.Stores L) (hne : L.root c.left ≠ L.root c.right) :
    Stores ⟨update u.parent (L.root c.right) (L.root c.left),
      update u.offsetToParent (L.root c.right) (L.offset c.left + c.distance - L.offset c.right)⟩
      (L.join c hne) := by
  constructor
  · intro i
    have hi := h.top i
    simp only [Layout.join, update_apply]
    grind [L.root_root]
  · intro i hi
    simp only [update_apply] at hi ⊢
    split at hi
    · next heq =>
      simp only [Layout.join, heq, L.root_root, L.offset_root, L.depth_root, if_pos, if_neg hne]
      exact ⟨trivial, add_comm .., Nat.one_pos⟩
    · next hne' =>
      obtain ⟨hr, ho, hd⟩ := h.step i hi
      simp only [Layout.join, hr, if_neg hne']
      split
      · exact ⟨trivial, by rw [ho, add_assoc], by omega⟩
      · exact ⟨trivial, ho, hd⟩

end Stores

/-- The layout meets all calls, and has one root only for what they connect. -/
structure Solves (L : Layout n) (calls : List (Call n)) : Prop where
  meets : ∀ c ∈ calls, L.Meets c
  linked : ∀ i, ∃ D, Chain calls (L.root i) i D

namespace Solves

variable {L : Layout n} {calls : List (Call n)}

theorem of_chain (h : Solves L calls) {a b : Fin n} {D : ℤ} (hab : Chain calls a b D) :
    L.root a = L.root b ∧ L.offset b - L.offset a = BitVec.ofInt 32 D := by
  induction hab with
  | nil a => exact ⟨rfl, sub_self _⟩
  | call hc =>
    obtain ⟨hr, ho⟩ := h.meets _ hc
    refine ⟨hr, ?_⟩
    rw [ho, add_sub_cancel_left, BitVec.ofInt_toInt]
  | back _ ih =>
    refine ⟨ih.1.symm, ?_⟩
    rw [BitVec.ofInt_neg, ← ih.2, neg_sub]
  | append _ _ ih ih' =>
    refine ⟨ih.1.trans ih'.1, ?_⟩
    rw [BitVec.ofInt_add, ← ih.2, ← ih'.2, sub_add_sub_cancel']

theorem root_eq_iff (h : Solves L calls) {a b : Fin n} :
    L.root a = L.root b ↔ ∃ D, Chain calls a b D := by
  constructor
  · intro heq
    obtain ⟨D, hD⟩ := h.linked a
    obtain ⟨E, hE⟩ := h.linked b
    exact ⟨_, hD.back.append (heq ▸ hE)⟩
  · rintro ⟨D, hD⟩
    exact (h.of_chain hD).1

theorem cons {c : Call n} (h : Solves L calls) (hc : L.Meets c) : Solves L (c :: calls) :=
  ⟨List.forall_mem_cons.mpr ⟨hc, h.meets⟩,
    fun i => (h.linked i).imp fun _ => Chain.mono (List.subset_cons_self ..)⟩

theorem join {c : Call n} (h : Solves L calls) (hne : L.root c.left ≠ L.root c.right) :
    Solves (L.join c hne) (c :: calls) := by
  constructor
  · refine List.forall_mem_cons.mpr ⟨?_, fun d hd => ?_⟩
    · simp only [Layout.Meets, Layout.join, if_neg hne, if_pos, add_sub_cancel]
      exact ⟨trivial, trivial⟩
    · obtain ⟨hd, ho⟩ := h.meets d hd
      simp only [Layout.Meets, Layout.join, hd, ho]
      split
      · exact ⟨trivial, by abel⟩
      · exact ⟨trivial, rfl⟩
  · intro i
    have hold {a b : Fin n} (hab : L.root a = L.root b) : ∃ D, Chain (c :: calls) a b D :=
      (h.root_eq_iff.mp hab).imp fun _ => Chain.mono (List.subset_cons_self ..)
    simp only [Layout.join]
    split
    · next hi =>
      obtain ⟨D, hD⟩ := hold (L.root_root c.left)
      obtain ⟨E, hE⟩ := hold hi.symm
      exact ⟨_, hD.append ((Chain.call List.mem_cons_self).append hE)⟩
    · exact hold (L.root_root i)

end Solves

section Runs

variable {calls : List (Call n)} {u : WeightedUnionFind n} {L : Layout n}

/-- A call of `union` answers whether it is met, or joins two trees. -/
theorem union_of_stores (h : u.Stores L) (c : Call n) : ∃ ok u', u.union c = some (ok, u') ∧
      if heq : L.root c.left = L.root c.right then (ok = true ↔ L.Meets c) ∧ u'.Stores L
      else ok = true ∧ u'.Stores (L.join c heq) := by
  obtain ⟨u₁, hf, h₁⟩ := h.find c.left
  obtain ⟨u₂, hf', h₂⟩ := h₁.find c.right
  unfold union
  rw [hf]
  simp only [Option.bind_eq_bind, Option.bind_some, hf']
  split
  · next heq => exact ⟨_, _, rfl, by simp [Layout.Meets, heq], h₂⟩
  · next hne => exact ⟨_, _, rfl, rfl, h₂.join hne⟩

theorem Recorded.stores (h : Recorded calls u) : ∃ L : Layout n, u.Stores L ∧ Solves L calls := by
  induction h with
  | new =>
    refine ⟨⟨id, fun _ => 0, fun _ => 0, ?_, ?_, ?_, ?_⟩, ⟨?_, fun i hi => absurd rfl hi⟩, ?_, ?_⟩
    · exact fun _ => rfl
    · exact fun _ => rfl
    · exact fun _ => rfl
    · exact fun _ => Nat.zero_le _
    · exact fun _ => Iff.rfl
    · exact fun _ hc => absurd hc List.not_mem_nil
    · exact fun i => ⟨0, .nil i⟩
  | @union _ u u' c _ hun ih =>
    obtain ⟨L, hs, hL⟩ := ih
    obtain ⟨ok, u₁, hu, hcs⟩ := union_of_stores hs c
    cases hu.symm.trans hun
    split at hcs
    · exact ⟨L, hcs.2, hL.cons (hcs.1.mp rfl)⟩
    · next hne => exact ⟨L.join c hne, hcs.2, hL.join hne⟩
  | find _ hf ih =>
    obtain ⟨L, hs, hL⟩ := ih
    obtain ⟨u', hu, hs'⟩ := hs.find _
    cases hu.symm.trans hf
    exact ⟨L, hs', hL⟩

/-- Nodes have one root just if the recorded calls connect them, and their offsets differ by the
sum of the distances on any chain between them. A call is refused just if such a sum is not its
distance. All sums are in the arithmetic of the offsets. -/
theorem constraints_exact (h : Recorded calls u) :
    (∀ a b, ∃ r r' u₁ u₂, u.find a = some (r, u₁) ∧ u₁.find b = some (r', u₂) ∧
      (u.find b).map Prod.fst = some r' ∧ (r.1 = r'.1 ↔ ∃ D, Chain calls a b D) ∧
        ∀ D, Chain calls a b D → r'.2 - r.2 = BitVec.ofInt 32 D) ∧
    ∀ c, ∃ ok u', u.union c = some (ok, u') ∧
      (ok = false ↔ ∃ D, Chain calls c.left c.right D ∧ BitVec.ofInt 32 D ≠ c.distance) := by
  obtain ⟨L, hs, hL⟩ := h.stores
  constructor
  · intro a b
    obtain ⟨u₁, ha, hs₁⟩ := hs.find a
    obtain ⟨u₂, hb, -⟩ := hs₁.find b
    obtain ⟨_, hb', -⟩ := hs.find b
    refine ⟨_, _, u₁, u₂, ha, hb, ?_, hL.root_eq_iff, fun D hD => (hL.of_chain hD).2⟩
    rw [hb', Option.map_some]
  · intro c
    obtain ⟨ok, u', hun, hcs⟩ := union_of_stores hs c
    refine ⟨ok, u', hun, ?_⟩
    -- a chain between the nodes says what the answer is
    have hok {D : ℤ} (hD : Chain calls c.left c.right D) :
        ok = true ↔ BitVec.ofInt 32 D = c.distance := by
      obtain ⟨hrt, hof⟩ := hL.of_chain hD
      rw [dif_pos hrt] at hcs
      rw [hcs.1, ← hof, sub_eq_iff_eq_add', Layout.Meets, and_iff_right hrt]
    constructor
    · rintro rfl
      have hrt : L.root c.left = L.root c.right := by
        by_contra hne
        rw [dif_neg hne] at hcs
        exact Bool.false_ne_true hcs.1
      obtain ⟨D, hD⟩ := hL.root_eq_iff.mp hrt
      exact ⟨D, hD, fun heq => Bool.false_ne_true ((hok hD).mpr heq)⟩
    · rintro ⟨D, hD, hne⟩
      rw [← Bool.not_eq_true, hok hD]
      exact hne

end Runs

/-- Two windows that share a register, each with its registers at distance one. -/
def windows : List (Call 4) :=
  [⟨1, 2, 1⟩, ⟨0, 1, 1⟩]

theorem constraints_exact_windows : ∃ u : WeightedUnionFind 4, Recorded windows u ∧
    (∃ r r' u₁ u₂, u.find 0 = some (r, u₁) ∧ u₁.find 2 = some (r', u₂) ∧ r.1 = r'.1 ∧
      r'.2 - r.2 = 2) ∧
    (∃ u', u.union ⟨0, 2, 1⟩ = some (false, u')) ∧ ∃ u', u.union ⟨0, 3, 1⟩ = some (true, u') := by
  have h : Recorded windows _ := .union (.union .new rfl) rfl
  have hD : Chain windows 0 2 (1 + 1) :=
    .append (.call (c := ⟨0, 1, 1⟩) (by simp [windows]))
      (.call (c := ⟨1, 2, 1⟩) (by simp [windows]))
  obtain ⟨hf, hu⟩ := constraints_exact h
  obtain ⟨r, r', u₁, u₂, h₁, h₂, -, hr, ho⟩ := hf 0 2
  obtain ⟨ok, u', hun, hok⟩ := hu ⟨0, 2, 1⟩
  have hfalse : ok = false := hok.mpr ⟨_, hD, by decide⟩
  subst hfalse
  exact ⟨_, h, ⟨r, r', u₁, u₂, h₁, h₂, hr.mpr ⟨_, hD⟩, ho _ hD⟩, ⟨u', hun⟩, _, rfl⟩

end WeightedUnionFind

end Galfus
