import Mathlib.Tactic.Common

/-! # String literals

The lexer ends a string at the first quote, and the escapes are read only when the literal is
lowered. Lowering takes the delimiters of quoted strings off, but not those of a backtick string.
-/

namespace Galfus.Compile.Strings

inductive Quote
  | double
  | single

def Quote.char : Quote → Char
  | double => '\x22'
  | single => '\x27'

def backtick : Char := '\x60'

/-- The text of a token, what comes after it, and whether the token is complete. -/
structure Lexed where
  text : List Char
  rest : List Char
  terminated : Bool
  deriving DecidableEq

def Lexed.bump (ch : Char) (t : Lexed) : Lexed := { t with text := ch :: t.text }

def lexString (quote : Char) : List Char → Lexed
  | [] => ⟨[], [], false⟩
  | ch :: rest =>
    if ch = quote then ⟨[ch], rest, true⟩
    else if ch = '\n' ∨ ch = '\r' then ⟨[], ch :: rest, false⟩
    else (lexString quote rest).bump ch

def lexMultilineString : List Char → Lexed
  | [] => ⟨[], [], false⟩
  | ch :: rest =>
    if ch = backtick then ⟨[ch], rest, true⟩ else (lexMultilineString rest).bump ch

/-- The token at the start of a text, if it is a string. -/
def lexToken : List Char → Option Lexed
  | [] => none
  | ch :: rest =>
    if ch = Quote.double.char ∨ ch = Quote.single.char then some ((lexString ch rest).bump ch)
    else if ch = backtick then some ((lexMultilineString rest).bump ch)
    else none

def unescapeChar (ch : Char) : List Char :=
  if ch = 'n' then ['\n']
  else if ch = 't' then ['\t']
  else if ch = 'r' then ['\r']
  else if ch = Quote.double.char ∨ ch = Quote.single.char ∨ ch = '\\' then [ch]
  else ['\\', ch]

def unescapeString : List Char → List Char
  | [] => []
  | [ch] => [ch]
  | ch :: next :: rest =>
    if ch = '\\' then unescapeChar next ++ unescapeString rest
    else ch :: unescapeString (next :: rest)

/-- It panics on a single quote. -/
def lowerPrimitiveLiteral (text : List Char) : Option (List Char) :=
  let isQuoted (quote : Quote) := text.head? = some quote.char ∧ text.getLast? = some quote.char
  if isQuoted .double ∨ isQuoted .single then
    if text.length = 1 then none else some (unescapeString text.tail.dropLast)
  else some (unescapeString text)

variable (quote : Quote) (s rest : List Char)

def escapeChar (ch : Char) : List Char :=
  if ch = '\\' ∨ ch = quote.char then ['\\', ch]
  else if ch = '\n' then ['\\', 'n']
  else if ch = '\t' then ['\\', 't']
  else if ch = '\r' then ['\\', 'r']
  else [ch]

def literal : List Char := quote.char :: s.flatMap (escapeChar quote) ++ [quote.char]

variable {quote s rest}

theorem lexString_append {b : List Char} {quote : Char} (hq : quote ∉ b)
    (hb : '\n' ∉ b ∧ '\r' ∉ b) :
    lexString quote (b ++ quote :: rest) = ⟨b ++ [quote], rest, true⟩ := by
  induction b with
  | nil => simp [lexString]
  | cons ch b ih => simp_all [lexString, Lexed.bump, eq_comm]

theorem notMem_of_lexString {b t : List Char} {quote : Char}
    (h : (lexString quote t).text = b ++ [quote]) : quote ∉ b := by
  induction t generalizing b with
  | nil => simp [lexString] at h
  | cons ch t ih =>
    unfold lexString at h
    split at h
    · cases b <;> simp_all
    · split at h
      · simp at h
      · cases b with
        | nil => simp
        | cons ch' b =>
          obtain ⟨rfl, h⟩ := List.cons.inj h
          simp_all [eq_comm]

theorem lexMultilineString_append {b : List Char} (h : backtick ∉ b) :
    lexMultilineString (b ++ backtick :: rest) = ⟨b ++ [backtick], rest, true⟩ := by
  induction b with
  | nil => simp [lexMultilineString]
  | cons ch b ih => simp_all [lexMultilineString, Lexed.bump, eq_comm]

theorem mem_escape_iff : quote.char ∈ s.flatMap (escapeChar quote) ↔ quote.char ∈ s := by
  induction s with
  | nil => simp
  | cons ch s ih =>
    rw [List.flatMap_cons, List.mem_append, ih, List.mem_cons]
    refine or_congr_left ?_
    unfold escapeChar
    cases quote <;> grind [Quote.char]

theorem break_notMem_escape (quote : Quote) (s : List Char) :
    '\n' ∉ s.flatMap (escapeChar quote) ∧ '\r' ∉ s.flatMap (escapeChar quote) := by
  induction s with
  | nil => simp
  | cons ch s ih =>
    unfold escapeChar
    cases quote <;> grind [Quote.char]

theorem unescapeString_cons {ch : Char} (h : ch ≠ '\\') :
    unescapeString (ch :: s) = ch :: unescapeString s := by
  cases s with
  | nil => simp [unescapeString]
  | cons next s => simp [unescapeString, h]

theorem unescapeString_escapeChar (quote : Quote) (ch : Char) (t : List Char) :
    unescapeString (escapeChar quote ch ++ t) = ch :: unescapeString t := by
  unfold escapeChar
  split
  · next h =>
    have : unescapeChar ch = [ch] := by
      rcases h with rfl | rfl <;> cases quote <;> decide
    simp [unescapeString, this]
  · next h =>
    split_ifs with hn ht hr
    · simp [unescapeString, unescapeChar, hn]
    · simp [unescapeString, unescapeChar, ht]
    · simp [unescapeString, unescapeChar, hr]
    · exact unescapeString_cons fun heq => h (.inl heq)

theorem unescapeString_escape (quote : Quote) (s : List Char) :
    unescapeString (s.flatMap (escapeChar quote)) = s := by
  induction s with
  | nil => rfl
  | cons ch s ih => rw [List.flatMap_cons, unescapeString_escapeChar, ih]

theorem lowerPrimitiveLiteral_literal (quote : Quote) (s : List Char) :
    lowerPrimitiveLiteral (literal quote s) = some s := by
  have hq : (literal quote s).head? = some quote.char ∧
      (literal quote s).getLast? = some quote.char := ⟨rfl, List.getLast?_concat⟩
  unfold lowerPrimitiveLiteral
  rw [if_pos, if_neg]
  · simp [literal, unescapeString_escape]
  · simp [literal]
  · cases quote
    · exact .inl hq
    · exact .inr hq

/-- The literal of a text denotes it just if the text has no delimiting quote, and a backtick string
never denotes the text between its delimiters. -/
theorem string_literals_iff (quote : Quote) (s t rest : List Char) (ht : backtick ∉ t) :
    ((lexToken (literal quote s ++ rest) = some ⟨literal quote s, rest, true⟩ ∧
        lowerPrimitiveLiteral (literal quote s) = some s) ↔ quote.char ∉ s) ∧
    lexToken (backtick :: t ++ backtick :: rest) = some ⟨backtick :: t ++ [backtick], rest, true⟩ ∧
    lowerPrimitiveLiteral (backtick :: t ++ [backtick]) ≠ some t := by
  have hlx : lexToken (literal quote s ++ rest) =
      some ((lexString quote.char (s.flatMap (escapeChar quote) ++ quote.char :: rest)).bump
        quote.char) := by
    cases quote <;> simp [literal, lexToken]
  refine ⟨?_, ?_, ?_⟩
  · rw [and_iff_left (lowerPrimitiveLiteral_literal quote s), hlx, ← mem_escape_iff]
    constructor
    · intro h
      have htx := congrArg Lexed.text (Option.some.inj h)
      exact notMem_of_lexString (List.cons.inj htx).2
    · intro h
      rw [lexString_append h (break_notMem_escape quote s)]
      rfl
  · have hbd : lexMultilineString (t ++ backtick :: rest) = _ := lexMultilineString_append ht
    rw [List.cons_append, lexToken, hbd]
    rfl
  · have hlw : lowerPrimitiveLiteral (backtick :: t ++ [backtick]) =
        some (backtick :: unescapeString (t ++ [backtick])) := by
      rw [lowerPrimitiveLiteral, if_neg, List.cons_append, unescapeString_cons (by decide)]
      rintro (⟨h, -⟩ | ⟨h, -⟩) <;> exact absurd (Option.some.inj h) (by decide)
    rw [hlw]
    intro h
    rw [← Option.some.inj h] at ht
    exact ht (.head _)

theorem string_literals_apostrophe :
    lexToken ("\x22it's\x22".toList) = some ⟨"\x22it's\x22".toList, [], true⟩ ∧
      lowerPrimitiveLiteral "\x22it's\x22".toList = some "it's".toList :=
  (string_literals_iff .double "it's".toList [] [] (by simp)).1.mpr (by decide)

/-- The literal of a text with a quote ends at that quote, and a backtick string keeps its
delimiters. -/
theorem string_literals_misread : lexToken (literal .double "a\x22b".toList) =
      some ⟨"\x22a\\\x22".toList, "b\x22".toList, true⟩ ∧
    lowerPrimitiveLiteral "\x60a\x60".toList = some "\x60a\x60".toList := by
  decide

end Galfus.Compile.Strings
