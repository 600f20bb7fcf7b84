/-
**String literals on their way to SQL.**

A string of a user is rendered three times:  Discover writes it as a double-quoted KQL string with
backslashes, the Cypher translator as a single-quoted KQL string with its quotes doubled, and the
KQL translator as an SQL string with its quotes doubled.
-/

import Pensieve.KqlLexer
import Pensieve.SqlText

namespace StringLiterals

open List
open KqlLexer SqlText

/-! ### The renderers -/

def escapeChar (c : Char) : List Char :=
  if c = '"' then ['\\', '"'] else if c = '\\' then ['\\', '\\'] else [c]

def escapeStr (s : List Char) : List Char := '"' :: (s.flatMap escapeChar ++ ['"'])

inductive CypherToken where
  | str (s : List Char)
  | num (lit : List Char)
  | other

def quote (s : List Char) : List Char := '\'' :: (doubled '\'' s ++ ['\''])

def parseLiteral : Option CypherToken → Option (List Char)
  | some (.str s) => some (quote s)
  | some (.num n) => some n
  | _ => none

def sqlLiteral (s : List Char) : List Char := quote s

/-! ### What survives -/

/-- **One SQL string**: wherever the text stands, with no quote right behind it, it is the one string
`s`. -/
def ReadAs (text s : List Char) : Prop :=
  ∀ before ts rest, SqlText.lexer.Stands before ts → NoQuote '\'' rest →
    SqlText.lexer.tokenize (before ++ text ++ rest) = (SqlText.lexer.tokenize rest).map fun us => ts ++ .str s :: us

section Survival

variable {F : Type} (parseFloat : List Char → Option F)

/-- **A string survives** all three renderings. -/
def Survives (s : List Char) : Prop :=
  LexedAs parseFloat (escapeStr s) (.str s) ∧
    (∃ text, parseLiteral (some (.str s)) = some text ∧ LexedAs parseFloat text (.str s)) ∧
    ReadAs (sqlLiteral s) s

theorem doubleQuoted_escape (s rest : List Char) :
    doubleQuoted (s.flatMap escapeChar ++ '"' :: rest) = .ok (s, rest) := by
  induction s with
  | nil =>
    rw [flatMap_nil, nil_append, doubleQuoted.eq_def]
    simp
  | cons c s ih =>
    rw [flatMap_cons, append_assoc]
    by_cases hq : c = '"'
    · subst hq
      simp [escapeChar, doubleQuoted, unescape, ih, Except.map]
    · by_cases hb : c = '\\'
      · subst hb
        simp [escapeChar, doubleQuoted, unescape, ih, Except.map]
      · rw [escapeChar, if_neg hq, if_neg hb, singleton_append, doubleQuoted.eq_def]
        simp [hq, hb, ih, Except.map]

theorem lexedAs_escapeStr (s : List Char) : LexedAs parseFloat (escapeStr s) (.str s) := by
  refine lexedAs_of_stands (Scanner.standsBefore_of_next fun rest _ => ?_)
  rw [append_assoc]
  change lexString (doubleQuoted (s.flatMap escapeChar ++ '"' :: rest)) = _
  rw [doubleQuoted_escape]
  rfl

theorem readAs_sqlLiteral (s : List Char) : ReadAs (sqlLiteral s) s := by
  intro before ts rest hbefore hrest
  have hboth := hbefore.append (stands_string s) fun _ _ => trivial
  simpa [sqlLiteral, quote] using hboth rest hrest

/-! ### Cypher -/

variable {s : List Char}

theorem doubled_of_notMem {q : Char} (h : q ∉ s) : doubled q s = s := by
  induction s with
  | nil => rfl
  | cons c s ih =>
    obtain ⟨hc, hs⟩ := ne_and_not_mem_of_not_mem_cons h
    rw [doubled, flatMap_cons, if_neg (Ne.symm hc)]
    exact congrArg (c :: ·) (ih hs)

theorem singleQuoted_run {u rest : List Char} (h : '\'' ∉ u) : singleQuoted (u ++ '\'' :: rest) = .ok (u, rest) := by
  induction u with
  | nil => simp [singleQuoted]
  | cons c u ih =>
    obtain ⟨hc, hu⟩ := ne_and_not_mem_of_not_mem_cons h
    rw [cons_append, singleQuoted, if_neg (Ne.symm hc), ih hu]
    rfl

theorem lexedAs_quoted (h : '\'' ∉ s) : LexedAs parseFloat (quote s) (.str s) := by
  refine lexedAs_of_stands (Scanner.standsBefore_of_next fun rest _ => ?_)
  rw [doubled_of_notMem h, append_assoc]
  change lexString (singleQuoted (s ++ '\'' :: rest)) = _
  rw [singleQuoted_run h]
  rfl

theorem tokenize_quoted_ne (h : '\'' ∈ s) : tokenize parseFloat (quote s) ≠ .ok [.str s] := by
  obtain ⟨u, v, hs, hu⟩ := eq_append_cons_of_mem h
  have hquote : quote s = '\'' :: (u ++ '\'' :: ('\'' :: doubled '\'' v ++ ['\''])) := by
    rw [quote, hs, doubled, flatMap_append, ← doubled, doubled_of_notMem hu]
    simp [doubled]
  have hnext : (KqlLexer.lexer parseFloat).next '\'' (u ++ '\'' :: ('\'' :: doubled '\'' v ++ ['\'']))
      = .token (.str u) ('\'' :: doubled '\'' v ++ ['\'']) := by
    change lexString (singleQuoted _) = _
    rw [singleQuoted_run hu]
    rfl
  rw [hquote, tokenize, Scanner.tokenize_token hnext]
  intro hok
  obtain ⟨us, -, hcons⟩ := map_eq_ok hok
  have hus : u = s := by
    have hhead := (List.cons.inj hcons).1
    exact Token.str.inj hhead
  rw [hs] at hus
  have hlen := congrArg List.length hus
  simp at hlen

theorem not_survives_of_quote (h : '\'' ∈ s) : ¬ Survives parseFloat s := by
  rintro ⟨-, ⟨text, htext, hlexed⟩, -⟩
  cases htext
  exact tokenize_quoted_ne parseFloat h hlexed.tokenize_eq

/-- **The strings that survive** are those without a single quote. -/
theorem survives_iff (s : List Char) : Survives parseFloat s ↔ '\'' ∉ s := by
  constructor
  · intro hs hquote
    exact not_survives_of_quote parseFloat hquote hs
  · intro hquote
    exact ⟨lexedAs_escapeStr parseFloat s, ⟨quote s, rfl, lexedAs_quoted parseFloat hquote⟩, readAs_sqlLiteral s⟩

end Survival

/-- The string of one single quote becomes two strings. -/
theorem not_survives_quote : ¬ Survives (fun _ => none : List Char → Option ℕ) ['\''] :=
  not_survives_of_quote _ (by decide)

end StringLiterals
