/-
**The KQL lexer.**

`tokenize` reads a text from left to right, one token after another; a text is the list of its
characters.  Strings stand in double quotes, where a backslash takes the next character as it is
(`n`, `t` and `r` aside), or in single quotes, where nothing is special and the next single quote
ends the string.

Main results:

* `KqlLexer.next_length` — every step makes the text shorter;
* `KqlLexer.lexedAs_of_stands` — a text that is scanned as one token whatever follows it.
-/

import Pensieve.Scanner

namespace KqlLexer

open List

inductive Token (F : Type) where
  | ident (name : List Char)
  | int (n : ℕ)
  | float (f : F)
  | str (s : List Char)
  | duration (lit : List Char)
  | pipe | comma | lparen | rparen | lbracket | rbracket | dot | dotDot
  | eq | ne | lt | le | gt | ge
  | plus | minus | star | slash | percent | assign | colon | arrow | rightArrow
  deriving DecidableEq

inductive LexError where
  | message (text : String)
  /-- `unexpected character` -/
  | unexpected (c : Char)
  deriving DecidableEq

/-! ### Characters -/

def isWhitespace (c : Char) : Bool :=
  (9 ≤ c.toNat && c.toNat ≤ 13) || c.toNat = 0x20 || c.toNat = 0x85 || c.toNat = 0xA0 ||
    c.toNat = 0x1680 || (0x2000 ≤ c.toNat && c.toNat ≤ 0x200A) || c.toNat = 0x2028 ||
    c.toNat = 0x2029 || c.toNat = 0x202F || c.toNat = 0x205F || c.toNat = 0x3000

/-- `chars.peek()` is a character that passes the test. -/
def peek (test : Char → Bool) : List Char → Bool
  | [] => false
  | c :: _ => test c

def peek2 (tag cs : List Char) : Bool := tag.isPrefixOf cs

/-! ### Strings -/

def unescape (c : Char) : Char :=
  if c = 'n' then '\n' else if c = 't' then '\t' else if c = 'r' then '\r' else c

def doubleQuoted : List Char → Except LexError (List Char × List Char)
  | [] => .error (.message "unterminated double-quoted string")
  | c :: cs =>
    if c = '"' then .ok ([], cs)
    else if c = '\\' then
      match cs with
      | [] => .error (.message "dangling backslash")
      | d :: rest => (doubleQuoted rest).map fun q => (unescape d :: q.1, q.2)
    else (doubleQuoted cs).map fun q => (c :: q.1, q.2)

def singleQuoted : List Char → Except LexError (List Char × List Char)
  | [] => .error (.message "unterminated single-quoted string")
  | c :: cs =>
    if c = '\'' then .ok ([], cs) else (singleQuoted cs).map fun q => (c :: q.1, q.2)

/-! ### Numbers and words -/

def number : List Char → List Char × Bool × List Char
  | [] => ([], false, [])
  | d :: cs =>
    if d.isDigit then
      let q := number cs
      (d :: q.1, q.2)
    else if d = '.' && peek Char.isDigit cs then
      let q := number cs
      ('.' :: q.1, true, q.2.2)
    else ([], false, d :: cs)

/-- `lit.parse()`. -/
def digitsValue (lit : List Char) : ℕ := Nat.ofDigitChars 10 lit 0

def durationSuffix : List Char → Option (Char × List Char)
  | [] => none
  | c :: cs =>
    if (c = 's' || c = 'm' || c = 'h' || c = 'd') &&
        !peek (fun d => d.isAlphanum || d = '_') cs then
      some (c, cs)
    else none

def word : List Char → List Char × List Char
  | [] => ([], [])
  | c :: cs =>
    if c.isAlphanum || c = '_' then
      let q := word cs
      (c :: q.1, q.2)
    else if c = '-' && peek Char.isAlpha cs then
      let q := word cs
      ('-' :: q.1, q.2)
    else ([], c :: cs)

section Lexer

variable {F : Type} (parseFloat : List Char → Option F)

def lexString (r : Except LexError (List Char × List Char)) : Lexed Char (Token F) LexError :=
  match r with
  | .ok (s, rest) => .token (.str s) rest
  | .error e => .fail e

def lexNumber (cs : List Char) : Lexed Char (Token F) LexError :=
  match number cs with
  | (lit, isFloat, rest) =>
    match durationSuffix rest with
    | some (suffix, rest') => .token (.duration (lit ++ [suffix])) rest'
    | none =>
      if isFloat then
        match parseFloat lit with
        | some f => .token (.float f) rest
        | none => .fail (.message "bad float: invalid float literal")
      else if digitsValue lit < 2 ^ 63 then .token (.int (digitsValue lit)) rest
      else .fail (.message "bad int: number too large to fit in target type")

/-- What stands at the start of `c :: cs`. -/
def next (c : Char) (cs : List Char) : Lexed Char (Token F) LexError :=
  if isWhitespace c then .skip cs
  else if c = '/' && peek (· = '/') cs then .skip ((cs.dropWhile (· ≠ '\n')).drop 1)
  else match c with
    | '|' => .token .pipe cs
    | ',' => .token .comma cs
    | '(' => .token .lparen cs
    | ')' => .token .rparen cs
    | '[' => .token .lbracket cs
    | ']' => .token .rbracket cs
    | '.' => if peek (· = '.') cs then .token .dotDot (cs.drop 1) else .token .dot cs
    | '+' => .token .plus cs
    | ':' => .token .colon cs
    | '-' =>
      if peek2 ['-', '>'] cs then .token .arrow (cs.drop 2)
      else if peek (· = '>') cs then .token .rightArrow (cs.drop 1)
      else .token .minus cs
    | '*' => .token .star cs
    | '%' => .token .percent cs
    | '/' => .token .slash cs
    | '=' => if peek (· = '=') cs then .token .eq (cs.drop 1) else .token .assign cs
    | '!' =>
      if peek (· = '=') cs then .token .ne (cs.drop 1)
      else .fail (.message "expected '=' after '!'")
    | '<' => if peek (· = '=') cs then .token .le (cs.drop 1) else .token .lt cs
    | '>' => if peek (· = '=') cs then .token .ge (cs.drop 1) else .token .gt cs
    | '"' => lexString (doubleQuoted cs)
    | '\'' => lexString (singleQuoted cs)
    | _ =>
      if c.isDigit then lexNumber parseFloat (c :: cs)
      else if c.isAlpha || c = '_' then .token (.ident (word (c :: cs)).1) (word (c :: cs)).2
      else .fail (.unexpected c)

/-! ### Every step makes the text shorter -/

theorem map_eq_ok {ε α β : Type} {f : α → β} {x : Except ε α} {b : β} (h : x.map f = .ok b) :
    ∃ a, x = .ok a ∧ f a = b := by
  cases x with
  | error e => cases h
  | ok a =>
    cases h
    exact ⟨a, rfl, rfl⟩

variable {cs rest : List Char}

theorem doubleQuoted_length {s : List Char} (h : doubleQuoted cs = .ok (s, rest)) : rest.length < cs.length := by
  fun_induction doubleQuoted cs generalizing s with
  | case1 => cases h
  | case2 cs =>
    cases h
    simp
  | case3 => cases h
  | case4 hc d cs ih | case5 c cs hc hb ih =>
    obtain ⟨q, hq, hs⟩ := map_eq_ok h
    cases hs
    have := ih hq
    simp only [length_cons]
    omega

theorem singleQuoted_length {s : List Char} (h : singleQuoted cs = .ok (s, rest)) : rest.length < cs.length := by
  fun_induction singleQuoted cs generalizing s with
  | case1 => cases h
  | case2 cs =>
    cases h
    simp
  | case3 c cs hc ih =>
    obtain ⟨q, hq, hs⟩ := map_eq_ok h
    cases hs
    have := ih hq
    simp only [length_cons]
    omega

theorem number_length (cs : List Char) : (number cs).2.2.length ≤ cs.length := by
  fun_induction number cs with
  | case1 => simp
  | case2 d cs hd q ih | case3 d cs hd hp q ih => exact ih.trans (by simp)
  | case4 => simp

theorem word_length (cs : List Char) : (word cs).2.length ≤ cs.length := by
  fun_induction word cs with
  | case1 => simp
  | case2 c cs hc q ih | case3 c cs hc hd q ih => exact ih.trans (by simp)
  | case4 => simp

theorem durationSuffix_length {c : Char}
    (h : durationSuffix cs = some (c, rest)) : rest.length ≤ cs.length := by
  cases cs with
  | nil => cases h
  | cons d cs =>
    rw [durationSuffix] at h
    split at h
    · cases h
      simp
    · cases h

theorem lexString_length {r : Except LexError (List Char × List Char)}
    (hr : ∀ s rest', r = .ok (s, rest') → rest'.length < cs.length)
    (h : (lexString (F := F) r).rest = some rest) : rest.length ≤ cs.length := by
  unfold lexString at h
  split at h
  · rename_i s rest'
    cases h
    exact (hr s rest rfl).le
  · cases h

theorem lexNumber_length {c : Char} (hc : c.isDigit = true)
    (h : (lexNumber parseFloat (c :: cs)).rest = some rest) : rest.length ≤ cs.length := by
  have hnum : (number (c :: cs)).2.2.length ≤ cs.length := by
    rw [number, if_pos hc]
    exact number_length cs
  unfold lexNumber at h
  split at h
  rename_i lit isFloat r hr
  rw [hr] at hnum
  split at h
  · rename_i suffix rest' hsuffix
    cases h
    exact (durationSuffix_length hsuffix).trans hnum
  · split at h
    · split at h
      · cases h
        exact hnum
      · cases h
    · split at h
      · cases h
        exact hnum
      · cases h

theorem next_length {c : Char} (h : (next parseFloat c cs).rest = some rest) : rest.length ≤ cs.length := by
  have hcomment : ((cs.dropWhile (· ≠ '\n')).drop 1).length ≤ cs.length := by
    rw [length_drop]
    exact (Nat.sub_le _ _).trans (dropWhile_sublist _).length_le
  unfold next at h
  split at h
  · cases h
    exact le_rfl
  · split at h
    · cases h
      exact hcomment
    · split at h
      -- the symbols
      case h_18 => exact lexString_length (fun s rest' => doubleQuoted_length) h
      case h_19 => exact lexString_length (fun s rest' => singleQuoted_length) h
      case h_20 =>
        split at h
        · rename_i hc
          exact lexNumber_length parseFloat hc h
        · split at h
          · cases h
            rename_i hc
            -- a letter is no dash
            have hword : c.isAlphanum || c = '_' := by
              simp only [Bool.or_eq_true] at hc ⊢
              exact hc.imp_left fun ha => by simp [Char.isAlphanum, ha]
            rw [word, if_pos hword]
            exact word_length cs
          · cases h
      all_goals (repeat' split at h) <;> cases h <;> simp

def lexer : Scanner Char (Token F) LexError where
  next := next parseFloat
  shrinks := next_length parseFloat

def tokenize (src : List Char) : Except LexError (List (Token F)) := (lexer parseFloat).tokenize src

/-! ### Literals -/

/-- **One string**: wherever the text stands between other texts, it is lexed as the one token `t`. -/
def LexedAs (text : List Char) (t : Token F) : Prop :=
  ∀ before ts rest, (lexer parseFloat).Stands before ts → tokenize parseFloat (before ++ text ++ rest) =
      (tokenize parseFloat rest).map fun us => ts ++ t :: us

variable {parseFloat}

theorem lexedAs_of_stands {text : List Char} {t : Token F}
    (h : (lexer parseFloat).Stands text [t]) : LexedAs parseFloat text t := by
  intro before ts rest hbefore
  have hboth := hbefore.append h fun _ _ => trivial
  simpa [tokenize] using hboth rest trivial

theorem LexedAs.tokenize_eq {text : List Char} {t : Token F} (h : LexedAs parseFloat text t) :
    tokenize parseFloat text = .ok [t] := by
  have hempty := h [] [] [] Scanner.standsBefore_nil
  rw [nil_append, append_nil] at hempty
  rw [hempty, tokenize, Scanner.tokenize_nil]
  rfl

end Lexer

end KqlLexer
