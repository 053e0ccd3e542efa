import Mathlib.Tactic.Common

/-! # Binary expressions

Operands that binary operators join are parsed by climbing precedences: a call reads an operand
and then, as long as the next operator binds tightly enough, that operator and its right side.
-/

namespace Galfus.Parser

inductive BinaryAssociativity where
  | left | right
  deriving DecidableEq

inductive BinaryOperatorKind where
  | add | subtract | multiply | divide | remainder | power
  | shiftLeft | shiftRight | bitwiseAnd | bitwiseOr | bitwiseXor
  | equal | notEqual | less | lessEqual | greater | greaterEqual
  | logicalAnd | logicalOr | nullFallback
  deriving DecidableEq

namespace BinaryOperatorKind

def precedence : BinaryOperatorKind → ℕ
  | power => 80
  | multiply | divide | remainder => 70
  | add | subtract => 60
  | shiftLeft | shiftRight => 55
  | bitwiseAnd => 54
  | bitwiseXor => 53
  | bitwiseOr => 52
  | less | lessEqual | greater | greaterEqual => 50
  | equal | notEqual => 45
  | logicalAnd => 30
  | logicalOr => 20
  | nullFallback => 10

def associativity : BinaryOperatorKind → BinaryAssociativity
  | power | nullFallback => .right
  | _ => .left

theorem associativity_eq (o : BinaryOperatorKind) :
    o.associativity = if o.precedence = 80 ∨ o.precedence = 10 then .right else .left := by
  cases o <;> rfl

end BinaryOperatorKind

/-- The kinds of tokens that matter between operands. -/
inductive Token (α : Type) where
  | newline | dot | colonColon | leftBracket
  | operator (o : BinaryOperatorKind)
  | other (a : α)

inductive Tree (ω : Type) where
  | operand (x : ω)
  | binary (left : Tree ω) (o : BinaryOperatorKind) (right : Tree ω)

variable {α ω : Type}

/-- `can_continue_expression_after_newline`. -/
def Token.continues : Token α → Bool
  | dot | colonColon | leftBracket => true
  | operator o => o ∉ [.shiftLeft, .shiftRight, .bitwiseAnd, .bitwiseOr, .bitwiseXor]
  | newline | other _ => false

def skipNewlines : List (Token α) → List (Token α)
  | .newline :: ts => skipNewlines ts
  | ts => ts

/-- `skip_soft_newlines_before_expression_continuation`. -/
def skipSoftNewlines (ts : List (Token α)) : List (Token α) :=
  if (skipNewlines ts).head?.any Token.continues then skipNewlines ts else ts

section Parse

variable (parseUnary : List (Token α) → Option (ω × List (Token α)))

/-- `parse_binary_expression`, given its loop. -/
def parseWith (loop : ℕ → Tree ω → List (Token α) → Option (Tree ω × List (Token α)))
    (minPrecedence : ℕ) (ts : List (Token α)) : Option (Tree ω × List (Token α)) := do
  let (x, ts) ← parseUnary ts
  loop minPrecedence (.operand x) ts

/-- The loop of `parse_binary_expression`, with at most `fuel` rounds and calls inside. -/
def parseOperators : ℕ → ℕ → Tree ω → List (Token α) → Option (Tree ω × List (Token α))
  | 0, _, _, _ => none
  | fuel + 1, minPrecedence, left, ts =>
    match skipSoftNewlines ts with
    | .operator o :: rest =>
      if o.precedence < minPrecedence then some (left, .operator o :: rest)
      else do
        let nextMinPrecedence := match o.associativity with
          | .left => o.precedence + 1
          | .right => o.precedence
        let (right, ts) ←
          parseWith parseUnary (parseOperators fuel) nextMinPrecedence (skipNewlines rest)
        parseOperators fuel minPrecedence (.binary left o right) ts
    | ts => some (left, ts)

def parseBinaryExpression (fuel minPrecedence : ℕ) (ts : List (Token α)) :
    Option (Tree ω × List (Token α)) :=
  parseWith parseUnary (parseOperators parseUnary fuel) minPrecedence ts

/-- After an operand come these operators with their right operands, and then `stop`. -/
inductive Joined : List (Token α) → List (BinaryOperatorKind × ω) → List (Token α) → Prop
  | stop {ts : List (Token α)} :
      (∀ o, (skipSoftNewlines ts).head? ≠ some (.operator o)) → Joined ts [] (skipSoftNewlines ts)
  | operator {ts rest ts' stop : List (Token α)} {o : BinaryOperatorKind} {x : ω}
      {ops : List (BinaryOperatorKind × ω)} : skipSoftNewlines ts = .operator o :: rest →
      parseUnary (skipNewlines rest) = some (x, ts') → Joined ts' ops stop →
      Joined ts ((o, x) :: ops) stop

end Parse

namespace Tree

def first : Tree ω → ω
  | operand x => x
  | binary left _ _ => left.first

/-- The operators in order, each with the operand after it. -/
def operators : Tree ω → List (BinaryOperatorKind × ω)
  | operand _ => []
  | binary left o right => left.operators ++ (o, right.first) :: right.operators

def root? : Tree ω → Option BinaryOperatorKind
  | operand _ => none
  | binary _ o _ => some o

end Tree

/-- What an operator on this side has to bind at least: as tightly on the side to which the
operator associates, and more tightly on the other. -/
def BinaryOperatorKind.least (o : BinaryOperatorKind) (side : BinaryAssociativity) : ℕ :=
  if o.associativity = side then o.precedence else o.precedence + 1

/-- No operator has a child that binds more loosely, and among equals the tree leans to the side
to which they associate. -/
def Tree.Grouped : Tree ω → Prop
  | operand _ => True
  | binary left o right => left.Grouped ∧ right.Grouped ∧
    (∀ p ∈ left.root?, o.least .left ≤ p.precedence) ∧
    ∀ p ∈ right.root?, o.least .right ≤ p.precedence

section Spec

variable {parseUnary : List (Token α) → Option (ω × List (Token α))} {ts stop : List (Token α)}
  {ops : List (BinaryOperatorKind × ω)}

theorem skipSoftNewlines_idem (ts : List (Token α)) :
    skipSoftNewlines (skipSoftNewlines ts) = skipSoftNewlines ts := by
  have hs : skipNewlines (skipNewlines ts) = skipNewlines ts := by
    induction ts using skipNewlines.induct with
    | case1 ts ih => exact ih
    | case2 ts h => rw [skipNewlines.eq_2 ts h, skipNewlines.eq_2 ts h]
  unfold skipSoftNewlines
  split
  · rw [hs, ite_self]
  · rfl

theorem Joined.skip (h : Joined parseUnary ts ops stop) :
    Joined parseUnary (skipSoftNewlines ts) ops stop := by
  have hi := skipSoftNewlines_idem ts
  cases h with
  | stop hne =>
    have hs : Joined parseUnary _ [] _ := .stop (hi.symm ▸ hne)
    rwa [hi] at hs
  | operator ho hx hop => exact .operator (hi.trans ho) hx hop

theorem least_right (o : BinaryOperatorKind) : (match o.associativity with
      | .left => o.precedence + 1
      | .right => o.precedence) = o.least .right := by
  unfold BinaryOperatorKind.least
  cases o.associativity <;> rfl

theorem least_left_le {o q : BinaryOperatorKind} (h : q.precedence < o.least .right) :
    q.least .left ≤ o.precedence := by
  unfold BinaryOperatorKind.least at h ⊢
  rw [BinaryOperatorKind.associativity_eq] at h ⊢
  grind

/-- A tree for the first of the operators, all of which bind at least as tightly as `m`, up to one
that does not. -/
structure Parsed (parseUnary : List (Token α) → Option (ω × List (Token α))) (stop : List (Token α))
    (m : ℕ) (x : ω) (ops : List (BinaryOperatorKind × ω)) (t : Tree ω) (ts : List (Token α))
    (rest : List (BinaryOperatorKind × ω)) : Prop where
  joined : Joined parseUnary ts rest stop
  skipped : skipSoftNewlines ts = ts
  first : t.first = x
  operators : t.operators ++ rest = ops
  grouped : t.Grouped
  root : ∀ p ∈ t.root?, m ≤ p.precedence
  next : ∀ p ∈ rest.head?, p.1.precedence < m

theorem parseOperators_spec {f m : ℕ} {t : Tree ω} (hop : Joined parseUnary ts ops stop)
    (hfl : ops.length < f) (hgr : t.Grouped) (hrt : ∀ p ∈ t.root?, m ≤ p.precedence)
    (hnx : ∀ o ∈ ops.head?, ∀ p ∈ t.root?, o.1.least .left ≤ p.precedence) :
    ∃ t' ts' rs, parseOperators parseUnary f m t ts = some (t', ts') ∧
      Parsed parseUnary stop m t.first (t.operators ++ ops) t' ts' rs := by
  induction f generalizing m t ts ops with
  | zero => omega
  | succ f ih =>
    have hst (hhd : ∀ p ∈ ops.head?, p.1.precedence < m) :
        Parsed parseUnary stop m t.first (t.operators ++ ops) t (skipSoftNewlines ts) ops :=
      ⟨hop.skip, skipSoftNewlines_idem ts, rfl, rfl, hgr, hrt, hhd⟩
    unfold parseOperators
    cases hop with
    | stop hne =>
      refine ⟨t, _, [], ?_, hst (by simp)⟩
      split
      · next o rs heq => exact absurd (by rw [heq]; rfl) (hne o)
      · rfl
    | @operator _ rs ts' _ o x ops ho hx hop =>
      rw [ho]
      dsimp only
      split
      · next hlt => exact ⟨t, _, _, rfl, ho ▸ hst (by simpa using hlt)⟩
      · next hge =>
        rw [List.length_cons] at hfl
        -- the right side, up to an operator that does not belong to it
        obtain ⟨r, ts₁, o₁, hr, hp⟩ := ih (m := o.least .right) (t := .operand x) hop
          (by omega) trivial nofun nofun
        have hln := congrArg List.length hp.operators
        simp only [Tree.operators, List.nil_append, List.length_append] at hln
        obtain ⟨t', ts₂, o₂, ht', hp'⟩ := ih (m := m) (t := .binary t o r) hp.joined
          (by omega) ⟨hgr, hp.grouped, hnx _ rfl, hp.root⟩ (by simpa [Tree.root?] using hge)
          fun q hq p hp' => Option.some.inj hp' ▸ least_left_le (hp.next q hq)
        refine ⟨t', ts₂, o₂, ?_, { hp' with operators := ?_ }⟩
        · rw [least_right, parseWith, hx]
          simp only [Option.bind_eq_bind, Option.bind_some, hr, ht']
        · rw [hp'.operators, Tree.operators, hp.first, List.append_assoc, List.cons_append,
            hp.operators]
          rfl

end Spec

namespace Tree

variable {l r l' r' : Tree ω} {o o' : BinaryOperatorKind}

theorem Grouped.le {t : Tree ω} {m : ℕ} (h : t.Grouped) (hrt : ∀ p ∈ t.root?, m ≤ p.precedence) :
    ∀ p ∈ t.operators, m ≤ p.1.precedence := by
  induction t generalizing m with
  | operand x => exact nofun
  | binary l o r ihl ihr =>
    obtain ⟨hl, hr, hlf, hrg⟩ := h
    have ho : m ≤ o.precedence := hrt o rfl
    have hle (s : BinaryAssociativity) : m ≤ o.least s := by
      unfold BinaryOperatorKind.least
      split <;> omega
    intro p hp
    rcases List.mem_append.mp hp with hp | hp
    · exact ihl hl (fun q hq => Nat.le_trans (hle .left) (hlf q hq)) p hp
    · rcases List.mem_cons.mp hp with rfl | hp
      · exact ho
      · exact ihr hr (fun q hq => Nat.le_trans (hle .right) (hrg q hq)) p hp

/-- The operator at the root of one tree is not on the left of the root of another one, if that
one is on the right of the first. -/
theorem Grouped.not_crossing {x y : ω} {ps qs rs : List (BinaryOperatorKind × ω)}
    (h : (binary l o r).Grouped) (h' : (binary l' o' r').Grouped)
    (hl : l'.operators = ps ++ (o, x) :: qs) (hr : r.operators = qs ++ (o', y) :: rs) : False := by
  have hle := h'.1.le h'.2.2.1 (o, x) (hl ▸ List.mem_append_right _ List.mem_cons_self)
  have hle' := h.2.1.le h.2.2.2 (o', y) (hr ▸ List.mem_append_right _ List.mem_cons_self)
  unfold BinaryOperatorKind.least at hle hle'
  rw [BinaryOperatorKind.associativity_eq] at hle hle'
  grind

theorem Grouped.unique {t t' : Tree ω} (h : t.Grouped) (h' : t'.Grouped)
    (hf : t.first = t'.first) (ho : t.operators = t'.operators) : t = t' := by
  induction t generalizing t' with
  | operand x =>
    cases t' with
    | operand y => exact congrArg operand hf
    | binary l' o' r' => simp [operators] at ho
  | binary l o r ihl ihr =>
    cases t' with
    | operand y => simp [operators] at ho
    | binary l' o' r' =>
      have hs (hl : l.operators = l'.operators)
          (hr : (o, r.first) :: r.operators = (o', r'.first) :: r'.operators) :
          binary l o r = binary l' o' r' := by
        obtain ⟨hrt, hr'⟩ := List.cons.inj hr
        obtain ⟨rfl, hf'⟩ := Prod.mk.inj hrt
        rw [ihl h.1 h'.1 hf hl, ihr h.2.1 h'.2.1 hf' hr']
      rcases List.append_eq_append_iff.mp ho with ⟨_ | ⟨p, ps⟩, hl, hr⟩ | ⟨_ | ⟨p, ps⟩, hl, hr⟩
      · exact hs (by rw [hl, List.append_nil]) hr
      · obtain ⟨rfl, hr'⟩ := List.cons.inj hr
        exact (h.not_crossing h' hl hr').elim
      · exact hs (by rw [hl, List.append_nil]) hr.symm
      · obtain ⟨rfl, hr'⟩ := List.cons.inj hr
        exact (h'.not_crossing h hl hr').elim

end Tree

/-- Operands that operators join are parsed to their end, and the tree is the only one that is
grouped as the operators bind. -/
theorem parseBinaryExpression_unique
    {parseUnary : List (Token α) → Option (ω × List (Token α))} {ts rest stop : List (Token α)}
    {x : ω} {ops : List (BinaryOperatorKind × ω)} {fuel : ℕ} (hx : parseUnary ts = some (x, rest))
    (hop : Joined parseUnary rest ops stop) (hfl : ops.length < fuel) :
    ∃ t, parseBinaryExpression parseUnary fuel 0 ts = some (t, stop) ∧ t.first = x ∧
      t.operators = ops ∧ t.Grouped ∧
      ∀ t', t'.first = x → t'.operators = ops → t'.Grouped → t' = t := by
  obtain ⟨t, ts', rs', hrn, hp⟩ := parseOperators_spec (m := 0) (t := .operand x) hop hfl
    trivial nofun nofun
  have hrs : rs' = [] := by
    rcases rs' with _ | ⟨p, _⟩
    · rfl
    · exact absurd (hp.next p rfl) (Nat.not_lt_zero _)
  subst hrs
  have hst : ts' = stop := by
    have hjn := hp.joined
    cases hjn with
    | stop => exact hp.skipped.symm
  have hal : t.operators = ops := by simpa [Tree.operators] using hp.operators
  refine ⟨t, ?_, hp.first, hal, hp.grouped, fun t' hfr hop' hgr => ?_⟩
  · rw [parseBinaryExpression, parseWith, hx]
    exact hst ▸ hrn
  · exact hgr.unique hp.grouped (hfr.trans hp.first.symm) (hop'.trans hal.symm)

/-- One token is an operand. -/
def parseName : List (Token String) → Option (String × List (Token String))
  | .other name :: ts => some (name, ts)
  | _ => none

def sumTokens : List (Token String) :=
  [.other "a", .operator .add, .newline, .other "b", .operator .multiply, .other "c"]

theorem parseBinaryExpression_unique_sum :
    ∃ t, parseBinaryExpression parseName 3 0 sumTokens = some (t, []) ∧
      t.operators = [(.add, "b"), (.multiply, "c")] ∧ t.Grouped := by
  have hc : Joined parseName [] [] [] := .stop nofun
  have hb : Joined parseName (sumTokens.drop 4) [(.multiply, "c")] [] := .operator rfl rfl hc
  have ha : Joined parseName sumTokens.tail [(.add, "b"), (.multiply, "c")] [] :=
    .operator rfl rfl hb
  have hx : parseName sumTokens = some ("a", sumTokens.tail) := rfl
  obtain ⟨t, hr, -, ho, hg, -⟩ :=
    parseBinaryExpression_unique hx ha (show 2 < 3 by decide)
  exact ⟨t, hr, ho, hg⟩

end Galfus.Parser
