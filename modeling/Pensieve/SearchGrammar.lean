/-
**The two scanners of the search bar.**

The server reads a search string character by character; the client reads it code unit by code unit.
Both split it at blanks outside quotes, drop the quotes, and make a clause of every token.
-/

import Mathlib.Data.List.TakeWhile
import Mathlib.Tactic

namespace Discover

open List

abbrev Text := List Char

abbrev CodeUnit := ℕ

variable {S T : Type}

/-! ### Clauses -/

inductive CmpOp
  | gt
  | ge
  | lt
  | le
  deriving DecidableEq

inductive Clause (S : Type)
  | substring (value : S)
  | eq (field value : S)
  | neq (field value : S)
  | cmp (field : S) (op : CmpOp) (value : S)
  | exists_ (field : S)
  deriving DecidableEq

def Clause.map (f : S → T) : Clause S → Clause T
  | .substring value => .substring (f value)
  | .eq field value => .eq (f field) (f value)
  | .neq field value => .neq (f field) (f value)
  | .cmp field op value => .cmp (f field) op (f value)
  | .exists_ field => .exists_ (f field)

inductive GrammarError
  | unterminatedQuote
  | danglingNegation
  | negatedSubstring
  deriving DecidableEq

def GrammarError.text : GrammarError → String
  | .unterminatedQuote => "unterminated quoted string"
  | .danglingNegation => "dangling '-' with no following token"
  | .negatedSubstring => "negation requires a field — substrings cannot be negated"

/-! ### The scanner of the server -/

/-- Read a token; `white` says what ends it.  The third argument is what has been read of a quoted
string. -/
def readToken (white : Char → Bool) (buf : Text) : Option Text → Text → Except GrammarError (Text × Text)
  | none, [] => .ok (buf, [])
  | none, c :: cs =>
    if white c then .ok (buf, c :: cs)
    else if c = '"' then readToken white buf (some []) cs
    else readToken white (buf ++ [c]) none cs
  | some _, [] => .error .unterminatedQuote
  | some quoted, c :: cs =>
    if c = '"' then readToken white (buf ++ quoted) none cs
    else readToken white buf (some (quoted ++ [c])) cs

def splitField (token : Text) : Option (Text × Text) :=
  match token.span (· ≠ ':') with
  | (f, _ :: v) => if f.isEmpty then none else some (f, v)
  | (_, []) => none

def tokenToClause (token : Text) (negated : Bool) : Except GrammarError (Clause Text) :=
  match splitField token with
  | some (field, value) =>
    match value with
    | ['*'] => .ok (.exists_ field)
    | '>' :: '=' :: rest => .ok (.cmp field .ge rest)
    | '<' :: '=' :: rest => .ok (.cmp field .le rest)
    | '>' :: rest => .ok (.cmp field .gt rest)
    | '<' :: rest => .ok (.cmp field .lt rest)
    | _ => .ok (if negated then .neq field value else .eq field value)
  | none => if negated then .error .negatedSubstring else .ok (.substring token)

variable {cs token : Text}

theorem readToken_length {white : Char → Bool} {buf rest : Text} {quoted : Option Text}
    (h : readToken white buf quoted cs = .ok (token, rest)) : rest.length ≤ cs.length := by
  induction cs generalizing buf quoted with
  | nil =>
    cases quoted with
    | none =>
      cases h
      exact le_rfl
    | some q => cases h
  | cons c cs ih =>
    cases quoted with
    | none =>
      rw [readToken] at h
      split_ifs at h
      · cases h
        exact le_rfl
      · exact (ih h).trans (Nat.le_succ _)
      · exact (ih h).trans (Nat.le_succ _)
    | some q =>
      rw [readToken] at h
      split_ifs at h
      · exact (ih h).trans (Nat.le_succ _)
      · exact (ih h).trans (Nat.le_succ _)

variable {c : Char}

theorem readToken_lt {white : Char → Bool} {rest : Text} (hc : ¬white c = true)
    (h : readToken white [] none (if c = '-' then cs else c :: cs) = .ok (token, rest)) :
    rest.length < (c :: cs).length := by
  split_ifs at h
  · exact Nat.lt_succ_of_le (readToken_length h)
  · rw [readToken, if_neg hc] at h
    split_ifs at h
    · exact Nat.lt_succ_of_le (readToken_length h)
    · exact Nat.lt_succ_of_le (readToken_length h)

/-- **Parse a search string.** -/
def parseWith (white : Char → Bool) : Text → Except GrammarError (List (Clause Text))
  | [] => .ok []
  | c :: cs =>
    if _hc : white c then parseWith white cs
    else
      match _hread : readToken white [] none (if c = '-' then cs else c :: cs) with
      | .error e => .error e
      | .ok (token, rest) =>
        if token.isEmpty then if c = '-' then .error .danglingNegation else parseWith white rest
        else
          match tokenToClause token (c = '-') with
          | .error e => .error e
          | .ok clause => (parseWith white rest).map (clause :: ·)
termination_by cs => cs.length
decreasing_by
  · exact Nat.lt_succ_self _
  · exact readToken_lt _hc _hread
  · exact readToken_lt _hc _hread

/-- The Unicode property `White_Space`. -/
def isWhitespace (c : Char) : Bool :=
  let u := c.toNat
  9 ≤ u && u ≤ 13 || u == 32 || u == 0x85 || u == 0xA0 || u == 0x1680 || 0x2000 ≤ u && u ≤ 0x200A ||
    u == 0x2028 || u == 0x2029 || u == 0x202F || u == 0x205F || u == 0x3000

def parse : Text → Except GrammarError (List (Clause Text)) := parseWith isWhitespace

/-! ### The scanner of the client -/

def utf16 (c : Char) : List CodeUnit :=
  if c.toNat < 0x10000 then [c.toNat]
  else [0xD800 + (c.toNat - 0x10000) / 0x400, 0xDC00 + (c.toNat - 0x10000) % 0x400]

def encode (text : Text) : List CodeUnit := text.flatMap utf16

/-- The regular expression `\s`. -/
def isSpace (u : ℕ) : Bool :=
  9 ≤ u && u ≤ 13 || u == 32 || u == 0xA0 || u == 0x1680 || 0x2000 ≤ u && u ≤ 0x200A ||
    u == 0x2028 || u == 0x2029 || u == 0x202F || u == 0x205F || u == 0x3000 || u == 0xFEFF

abbrev Pill := Clause (List CodeUnit)

def readRaw (raw : List CodeUnit) : Bool → List CodeUnit → Except String (List CodeUnit × List CodeUnit)
  | false, [] => .ok (raw, [])
  | false, u :: us =>
    if isSpace u then .ok (raw, u :: us)
    else if u = '"'.toNat then readRaw raw true us
    else readRaw (raw ++ [u]) false us
  | true, [] => .error "unterminated quoted string"
  | true, u :: us => if u = '"'.toNat then readRaw raw false us else readRaw (raw ++ [u]) true us

def tokenToPill (token : List CodeUnit) (negated : Bool) : Except String Pill :=
  match token.findIdx? (· = ':'.toNat) with
  | none | some 0 =>
    if negated then .error "negation requires a field — substrings cannot be negated"
    else .ok (.substring token)
  | some c =>
    let field := token.take c
    let value := token.drop (c + 1)
    if value = ['*'.toNat] then .ok (.exists_ field)
    else if ['>'.toNat, '='.toNat].isPrefixOf value then .ok (.cmp field .ge (value.drop 2))
    else if ['<'.toNat, '='.toNat].isPrefixOf value then .ok (.cmp field .le (value.drop 2))
    else if ['>'.toNat].isPrefixOf value then .ok (.cmp field .gt (value.drop 1))
    else if ['<'.toNat].isPrefixOf value then .ok (.cmp field .lt (value.drop 1))
    else .ok (if negated then .neq field value else .eq field value)

variable {us : List CodeUnit}

theorem readRaw_length {raw token rest : List CodeUnit} {quoted : Bool}
    (h : readRaw raw quoted us = .ok (token, rest)) : rest.length ≤ us.length := by
  induction us generalizing raw quoted with
  | nil =>
    cases quoted with
    | false =>
      cases h
      exact le_rfl
    | true => cases h
  | cons u us ih =>
    cases quoted with
    | false =>
      rw [readRaw] at h
      split_ifs at h
      · cases h
        exact le_rfl
      · exact (ih h).trans (Nat.le_succ _)
      · exact (ih h).trans (Nat.le_succ _)
    | true =>
      rw [readRaw] at h
      split_ifs at h
      · exact (ih h).trans (Nat.le_succ _)
      · exact (ih h).trans (Nat.le_succ _)

variable {input : List CodeUnit}

theorem readRaw_lt {token rest : List CodeUnit} {u : CodeUnit}
    (hskip : input.dropWhile isSpace = u :: us)
    (h : readRaw [] false (if u = '-'.toNat then us else u :: us) = .ok (token, rest)) :
    rest.length < input.length := by
  have hle := (dropWhile_sublist isSpace (l := input)).length_le
  have hu : ¬isSpace u = true := by
    have hhead := head?_dropWhile_not isSpace input
    rw [hskip] at hhead
    simpa using hhead
  rw [hskip, length_cons] at hle
  refine lt_of_lt_of_le (Nat.lt_succ_of_le ?_) hle
  split_ifs at h
  · exact readRaw_length h
  · rw [readRaw, if_neg hu] at h
    split_ifs at h
    · exact readRaw_length h
    · exact readRaw_length h

/-- **Parse a search string**, in the client. -/
def parseSearch (input : List CodeUnit) : Except String (List Pill) :=
  match _hskip : input.dropWhile isSpace with
  | [] => .ok []
  | u :: us =>
    match _hread : readRaw [] false (if u = '-'.toNat then us else u :: us) with
    | .error e => .error e
    | .ok (raw, rest) =>
      if raw.isEmpty then
        if u = '-'.toNat then .error "dangling '-' with no following token" else parseSearch rest
      else
        match tokenToPill raw (u = '-'.toNat) with
        | .error e => .error e
        | .ok pill => (parseSearch rest).map (pill :: ·)
termination_by input.length
decreasing_by
  · exact readRaw_lt _hskip _hread
  · exact readRaw_lt _hskip _hread

theorem parseWith_white {white : Char → Bool} (hc : white c = true) :
    parseWith white (c :: cs) = parseWith white cs := by
  rw [parseWith, dif_pos hc]

theorem parseWith_token {white : Char → Bool} (hc : ¬white c = true) : parseWith white (c :: cs) =
      match readToken white [] none (if c = '-' then cs else c :: cs) with
      | .error e => .error e
      | .ok (token, rest) =>
        if token.isEmpty then if c = '-' then .error .danglingNegation else parseWith white rest
        else
          match tokenToClause token (c = '-') with
          | .error e => .error e
          | .ok clause => (parseWith white rest).map (clause :: ·) := by
  rw [parseWith, dif_neg hc]
  split <;> rename_i heq <;> rw [heq]

/-! ### Words -/

variable {white white' : Char → Bool}

/-- **A word of a text**, with its quotes, and what is behind it; the first argument says whether a quote is
open. -/
def word (white : Char → Bool) : Bool → Text → Text × Text
  | _, [] => ([], [])
  | false, c :: cs =>
    if white c then ([], c :: cs)
    else (c :: (word white (c = '"') cs).1, (word white (c = '"') cs).2)
  | true, c :: cs => (c :: (word white (c ≠ '"') cs).1, (word white (c ≠ '"') cs).2)

theorem word_length (quoted : Bool) (cs : Text) : (word white quoted cs).2.length ≤ cs.length := by
  induction cs generalizing quoted with
  | nil => cases quoted <;> exact le_rfl
  | cons c cs ih =>
    cases quoted with
    | false =>
      rw [word]
      split_ifs
      · exact le_rfl
      · exact (ih _).trans (Nat.le_succ _)
    | true => exact (ih _).trans (Nat.le_succ _)

def words (white : Char → Bool) : Text → List Text
  | [] => []
  | c :: cs =>
    if white c then words white cs
    else (c :: (word white (c = '"') cs).1) :: words white (word white (c = '"') cs).2
termination_by cs => cs.length
decreasing_by
  · exact Nat.lt_succ_self _
  · exact Nat.lt_succ_of_le (word_length _ _)

def stripQuotes (w : Text) : Text := w.filter (· ≠ '"')

def Balanced (w : Text) : Prop := Even (w.count '"')

instance (w : Text) : Decidable (Balanced w) := inferInstanceAs (Decidable (Even _))

def negated (w : Text) : Bool := w.head? = some '-'

def body (w : Text) : Text := stripQuotes (if negated w then w.tail else w)

def evalWord (w : Text) : Except GrammarError (Option (Clause Text)) :=
  if ¬Balanced w then .error .unterminatedQuote
  else if (body w).isEmpty then if negated w then .error .danglingNegation else .ok none
  else (tokenToClause (body w) (negated w)).map some

def evalWords : List Text → Except GrammarError (List (Clause Text))
  | [] => .ok []
  | w :: ws =>
    match evalWord w with
    | .error e => .error e
    | .ok none => evalWords ws
    | .ok (some clause) => (evalWords ws).map (clause :: ·)

theorem readToken_eq (buf cs : Text) (quoted : Option Text) : readToken white buf quoted cs =
      if Even ((word white quoted.isSome cs).1.count '"') ↔ quoted = none then
        .ok (buf ++ (quoted.getD [] ++ stripQuotes (word white quoted.isSome cs).1), (word white quoted.isSome cs).2)
      else .error .unterminatedQuote := by
  induction cs generalizing buf quoted with
  | nil =>
    cases quoted with
    | none => simp [readToken, word, stripQuotes]
    | some q => simp [readToken, word]
  | cons c cs ih =>
    cases quoted with
    | none =>
      rw [readToken, Option.isSome_none, word]
      by_cases hc : white c = true
      · simp [hc, stripQuotes]
      · rw [if_neg hc, if_neg hc]
        by_cases hquote : c = '"'
        · rw [if_pos hquote, ih]
          simp [hquote, stripQuotes, Nat.even_add_one]
        · rw [if_neg hquote, ih]
          simp [hquote, stripQuotes]
    | some q =>
      rw [readToken, Option.isSome_some, word]
      by_cases hquote : c = '"'
      · rw [if_pos hquote, ih]
        simp [hquote, stripQuotes, Nat.even_add_one]
      · rw [if_neg hquote, ih]
        simp [hquote, stripQuotes]

theorem readToken_word (hc : ¬white c = true) : readToken white [] none (if c = '-' then cs else c :: cs) =
      if Balanced (c :: (word white (c = '"') cs).1) then
        .ok (body (c :: (word white (c = '"') cs).1), (word white (c = '"') cs).2)
      else .error .unterminatedQuote := by
  rw [readToken_eq]
  by_cases hminus : c = '-'
  · subst hminus
    simp [Balanced, body, negated]
  · simp [hminus, word, hc, Balanced, body, negated]

theorem parse_eq_evalWords (s : Text) : parseWith white s = evalWords (words white s) := by
  induction hn : s.length using Nat.strong_induction_on generalizing s with
  | _ n ih =>
    cases s with
    | nil =>
      rw [parseWith, words]
      rfl
    | cons c cs =>
      subst hn
      by_cases hc : white c = true
      · rw [parseWith_white hc, words, if_pos hc]
        exact ih cs.length (Nat.lt_succ_self _) cs rfl
      · have hrest := ih (word white (c = '"') cs).2.length
          (Nat.lt_succ_of_le (word_length _ _)) _ rfl
        have hneg : negated (c :: (word white (c = '"') cs).1) = decide (c = '-') := by
          simp [negated]
        rw [parseWith_token hc, readToken_word hc, words, if_neg hc, evalWords, evalWord, hneg, ← hrest]
        by_cases hbal : Balanced (c :: (word white (c = '"') cs).1)
        · rw [if_pos hbal, if_neg (not_not.2 hbal)]
          simp only [decide_eq_true_eq]
          split_ifs with hempty hminus
          · rfl
          · rfl
          · cases tokenToClause (body (c :: (word white (c = '"') cs).1)) (decide (c = '-')) <;> rfl
        · rw [if_neg hbal, if_pos hbal]

/-! ### When a text is refused -/

def HasField (token : Text) : Prop := (splitField token).isSome = true

def Malformed (w : Text) : Prop := ¬Balanced w ∨ negated w = true ∧ ¬HasField (body w)

/-- **A text is refused** for one of its words. -/
def Refused (white : Char → Bool) (s : Text) : Prop := ∃ w ∈ words white s, Malformed w

theorem tokenToClause_eq_error {neg : Bool} {e : GrammarError} :
    tokenToClause token neg = .error e ↔ ¬HasField token ∧ neg = true ∧ e = .negatedSubstring := by
  rw [tokenToClause, HasField]
  cases hsplit : splitField token with
  | some p =>
    obtain ⟨field, value⟩ := p
    simp only [Option.isSome_some, not_true_eq_false, false_and, iff_false]
    split <;> nofun
  | none =>
    simp only [Option.isSome_none, Bool.false_eq_true, not_false_eq_true, true_and]
    cases neg with
    | false => exact ⟨nofun, nofun⟩
    | true => exact ⟨fun h => ⟨rfl, (Except.error.inj h).symm⟩, fun h => congrArg _ h.2.symm⟩

theorem not_hasField_nil : ¬HasField [] := nofun

theorem evalWord_error_iff {w : Text} : (∃ e, evalWord w = .error e) ↔ Malformed w := by
  rw [evalWord, Malformed]
  by_cases hbal : Balanced w
  · rw [if_neg (not_not.2 hbal)]
    cases hbody : body w with
    | nil =>
      rw [isEmpty_nil, if_pos rfl]
      cases negated w with
      | false => exact ⟨nofun, fun h => h.elim (fun hopen => absurd hbal hopen) nofun⟩
      | true => exact ⟨fun _ => .inr ⟨rfl, not_hasField_nil⟩, fun _ => ⟨_, rfl⟩⟩
    | cons c cs =>
      rw [isEmpty_cons, if_neg nofun]
      cases htoken : tokenToClause (c :: cs) (negated w) with
      | error e =>
        obtain ⟨hfield, hneg, -⟩ := tokenToClause_eq_error.1 htoken
        exact ⟨fun _ => .inr ⟨hneg, hfield⟩, fun _ => ⟨e, rfl⟩⟩
      | ok clause =>
        refine ⟨nofun, ?_⟩
        rintro (h | ⟨hneg, hfield⟩)
        · exact absurd hbal h
        · rw [tokenToClause_eq_error.2 ⟨hfield, hneg, rfl⟩] at htoken
          cases htoken
  · rw [if_pos hbal]
    exact ⟨fun _ => .inl hbal, fun _ => ⟨_, rfl⟩⟩

theorem evalWords_error_iff {ws : List Text} : (∃ e, evalWords ws = .error e) ↔ ∃ w ∈ ws, Malformed w := by
  induction ws with
  | nil => exact ⟨nofun, nofun⟩
  | cons w ws ih =>
    rw [exists_mem_cons_iff, ← ih, ← evalWord_error_iff, evalWords]
    cases hw : evalWord w with
    | error e => exact ⟨fun _ => .inl ⟨e, rfl⟩, fun _ => ⟨e, rfl⟩⟩
    | ok clause =>
      cases clause with
      | none => exact ⟨.inr, fun h => h.resolve_left nofun⟩
      | some clause =>
        cases hws : evalWords ws with
        | error e => exact ⟨fun _ => .inr ⟨e, rfl⟩, fun _ => ⟨e, rfl⟩⟩
        | ok cs => exact ⟨nofun, fun h => h.elim nofun nofun⟩

variable {s : Text}

theorem parseWith_error_iff : (∃ e, parseWith white s = .error e) ↔ Refused white s := by
  rw [parse_eq_evalWords]
  exact evalWords_error_iff

/-! ### Blanks -/

/-- The characters outside quotes, and the quotes that open; the first argument says whether a quote is
open. -/
def unquoted : Bool → Text → Text
  | _, [] => []
  | false, c :: cs => c :: unquoted (c = '"') cs
  | true, c :: cs => unquoted (c ≠ '"') cs

theorem word_congr {quoted : Bool} (h : ∀ c ∈ unquoted quoted cs, white c = white' c) :
    word white quoted cs = word white' quoted cs ∧
      ∀ c ∈ unquoted false (word white quoted cs).2, white c = white' c := by
  induction cs generalizing quoted with
  | nil => cases quoted <;> exact ⟨rfl, nofun⟩
  | cons c cs ih =>
    cases quoted with
    | false =>
      rw [word, word, ← h c mem_cons_self]
      split_ifs with hc
      · exact ⟨rfl, h⟩
      · obtain ⟨heq, hrest⟩ := ih fun d hd => h d (mem_cons_of_mem _ hd)
        exact ⟨by rw [heq], hrest⟩
    | true =>
      obtain ⟨heq, hrest⟩ := ih h
      rw [word, word]
      exact ⟨by rw [heq], hrest⟩

theorem words_congr (hquote : white '"' = false) (h : ∀ c ∈ unquoted false s, white c = white' c) :
    words white s = words white' s := by
  induction hn : s.length using Nat.strong_induction_on generalizing s with
  | _ n ih =>
    cases s with
    | nil => rw [words, words]
    | cons c cs =>
      subst hn
      have hcs := fun d (hd : d ∈ unquoted (c = '"') cs) => h d (mem_cons_of_mem _ hd)
      rw [words, words, ← h c mem_cons_self]
      split_ifs with hc
      · have hne : decide (c = '"') = false := decide_eq_false fun heq => by
          rw [heq, hquote] at hc
          cases hc
        rw [hne] at hcs
        exact ih cs.length (Nat.lt_succ_self _) hcs rfl
      · obtain ⟨heq, hrest⟩ := word_congr hcs
        rw [← heq, ih _ (Nat.lt_succ_of_le (word_length _ _)) hrest rfl]

/-! ### Counting a character -/

def Clause.chars : Clause (List S) → List S
  | .substring value => value
  | .eq field value | .neq field value | .cmp field _ value => field ++ value
  | .exists_ field => field

def Ordinary (a : Char) : Prop := a ∉ ['"', '-', ':', '*', '>', '<', '=']

instance (a : Char) : Decidable (Ordinary a) := inferInstanceAs (Decidable (_ ∉ _))

theorem splitField_eq {field value : Text} (h : splitField token = some (field, value)) :
    token = field ++ ':' :: value ∧ ':' ∉ field ∧ field ≠ [] := by
  rw [splitField, span_eq_takeWhile_dropWhile] at h
  cases hdrop : token.dropWhile (· ≠ ':') with
  | nil =>
    rw [hdrop] at h
    cases h
  | cons c cs =>
    rw [hdrop] at h
    simp only at h
    split_ifs at h with hempty
    cases h
    have hc : c = ':' := by
      have hhead := head?_dropWhile_not (· ≠ ':') token
      rw [hdrop] at hhead
      simpa using hhead
    refine ⟨?_, fun hmem => ?_, fun hnil => hempty (List.isEmpty_iff.2 hnil)⟩
    · have happend := takeWhile_append_dropWhile (p := (· ≠ ':')) (l := token)
      rw [hdrop, hc] at happend
      exact happend.symm
    · simpa using mem_takeWhile_imp hmem

section Counting

variable {a : Char} (ha : Ordinary a)

include ha

theorem count_tokenToClause {token : Text} {neg : Bool} {clause : Clause Text}
    (h : tokenToClause token neg = .ok clause) : clause.chars.count a = token.count a := by
  simp only [Ordinary, mem_cons, not_mem_nil, or_false, not_or] at ha
  obtain ⟨hquote, hminus, hcolon, hstar, hgt, hlt, heq⟩ := ha
  rw [tokenToClause] at h
  cases hsplit : splitField token with
  | none =>
    rw [hsplit] at h
    cases neg with
    | false =>
      cases h
      rfl
    | true => cases h
  | some p =>
    obtain ⟨field, value⟩ := p
    obtain ⟨htoken, -, -⟩ := splitField_eq hsplit
    rw [hsplit] at h
    simp only at h
    rw [htoken, count_append, count_cons_of_ne (Ne.symm hcolon)]
    split at h
    · cases h
      simp [Clause.chars, count_cons_of_ne (Ne.symm hstar)]
    · cases h
      simp [Clause.chars, count_cons_of_ne (Ne.symm hgt), count_cons_of_ne (Ne.symm heq)]
    · cases h
      simp [Clause.chars, count_cons_of_ne (Ne.symm hlt), count_cons_of_ne (Ne.symm heq)]
    · cases h
      simp [Clause.chars, count_cons_of_ne (Ne.symm hgt)]
    · cases h
      simp [Clause.chars, count_cons_of_ne (Ne.symm hlt)]
    · cases neg with
      | false | true =>
        cases h
        exact count_append

theorem count_body (w : Text) : (body w).count a = w.count a := by
  simp only [Ordinary, mem_cons, not_mem_nil, or_false, not_or] at ha
  have hstrip : ∀ t : Text, (stripQuotes t).count a = t.count a := fun t =>
    count_filter (decide_eq_true ha.1)
  rw [body, hstrip]
  split_ifs with hneg
  · cases w with
    | nil => rfl
    | cons c cs =>
      have hc : c = '-' := by simpa [negated] using hneg
      rw [hc, tail_cons, count_cons_of_ne (Ne.symm ha.2.1)]
  · rfl

theorem count_evalWord {w : Text} {o : Option (Clause Text)} (h : evalWord w = .ok o) :
    (o.elim [] Clause.chars).count a = w.count a := by
  rw [evalWord] at h
  split_ifs at h with hbal hempty hneg
  · cases h
    rw [← count_body ha w, List.isEmpty_iff.1 hempty]
    rfl
  · cases htoken : tokenToClause (body w) (negated w) with
    | error e =>
      rw [htoken] at h
      cases h
    | ok clause =>
      rw [htoken] at h
      cases h
      exact (count_tokenToClause ha htoken).trans (count_body ha w)

theorem count_evalWords {ws : List Text} {cs : List (Clause Text)} (h : evalWords ws = .ok cs) :
    (cs.flatMap Clause.chars).count a = ws.flatten.count a := by
  induction ws generalizing cs with
  | nil =>
    cases h
    rfl
  | cons w ws ih =>
    rw [evalWords] at h
    rw [flatten_cons, count_append]
    cases hw : evalWord w with
    | error e =>
      rw [hw] at h
      cases h
    | ok o =>
      rw [hw] at h
      have hcount := count_evalWord ha hw
      cases o with
      | none =>
        rw [ih h, ← hcount]
        exact (Nat.zero_add _).symm
      | some clause =>
        obtain ⟨cs', hcs', rfl⟩ : ∃ cs', evalWords ws = .ok cs' ∧ cs = clause :: cs' := by
          cases hws : evalWords ws with
          | error e =>
            rw [hws] at h
            cases h
          | ok cs' =>
            rw [hws] at h
            cases h
            exact ⟨cs', rfl, rfl⟩
        rw [flatMap_cons, count_append, ih hcs', ← hcount]
        rfl

end Counting

theorem word_append (quoted : Bool) (cs : Text) : (word white quoted cs).1 ++ (word white quoted cs).2 = cs := by
  induction cs generalizing quoted with
  | nil => cases quoted <;> rfl
  | cons c cs ih =>
    cases quoted with
    | false =>
      rw [word]
      split_ifs
      · rfl
      · exact congrArg (c :: ·) (ih _)
    | true => exact congrArg (c :: ·) (ih _)

theorem count_unquoted_word {a : Char} (ha : white a = true) (quoted : Bool) (cs : Text) :
    (unquoted quoted cs).count a = (unquoted false (word white quoted cs).2).count a := by
  induction cs generalizing quoted with
  | nil => cases quoted <;> rfl
  | cons c cs ih =>
    cases quoted with
    | false =>
      rw [word]
      split_ifs with hc
      · rfl
      · have hne : c ≠ a := fun heq => hc (heq ▸ ha)
        rw [unquoted, count_cons_of_ne hne]
        exact ih _
    | true => exact ih _

theorem count_words (hquote : white '"' = false) (a : Char) (s : Text) :
    (words white s).flatten.count a + (if white a then (unquoted false s).count a else 0) = s.count a := by
  induction hn : s.length using Nat.strong_induction_on generalizing s with
  | _ n ih =>
    cases s with
    | nil =>
      rw [words]
      split_ifs <;> rfl
    | cons c cs =>
      subst hn
      rw [words]
      by_cases hc : white c = true
      · have hih := ih cs.length (Nat.lt_succ_self _) cs rfl
        have hne : decide (c = '"') = false := decide_eq_false fun heq => by
          rw [heq, hquote] at hc
          cases hc
        rw [if_pos hc, unquoted, hne]
        by_cases hca : c = a
        · subst hca
          rw [if_pos hc] at hih ⊢
          rw [count_cons_self, count_cons_self, ← hih]
          exact (Nat.add_assoc _ _ 1).symm
        · rw [count_cons_of_ne hca, count_cons_of_ne hca]
          exact hih
      · have hih := ih (word white (c = '"') cs).2.length (Nat.lt_succ_of_le (word_length _ _)) _ rfl
        have hsplit := congrArg (List.count a) (@word_append white (c = '"') cs)
        rw [count_append] at hsplit
        rw [if_neg hc, flatten_cons, count_append]
        by_cases ha : white a = true
        · have hca : c ≠ a := fun heq => hc (heq ▸ ha)
          rw [if_pos ha] at hih ⊢
          rw [unquoted, count_cons_of_ne hca, count_cons_of_ne hca, count_cons_of_ne hca, count_unquoted_word ha]
          omega
        · rw [if_neg ha] at hih ⊢
          rw [count_cons, count_cons]
          omega

/-! ### Code units -/

def jsSpace (c : Char) : Bool := isSpace c.toNat

theorem utf16_cases (c : Char) : utf16 c = [c.toNat] ∨
    ∃ hi lo : ℕ, utf16 c = [hi, lo] ∧ 0xD800 ≤ hi ∧ hi < 0xE000 ∧ 0xD800 ≤ lo ∧ lo < 0xE000 ∧ 0x10000 ≤ c.toNat := by
  rw [utf16]
  split_ifs with h
  · exact .inl rfl
  · have hlt : c.toNat < 0x110000 := by
      rcases c.valid with hvalid | ⟨-, hvalid⟩
      · exact hvalid.trans (by decide)
      · exact hvalid
    refine .inr ⟨_, _, rfl, ?_, ?_, ?_, ?_, ?_⟩ <;> omega

@[simp] theorem encode_nil : encode [] = [] := rfl

@[simp] theorem encode_cons (c : Char) (s : Text) : encode (c :: s) = utf16 c ++ encode s := rfl

@[simp] theorem encode_append (s t : Text) : encode (s ++ t) = encode s ++ encode t := flatMap_append

theorem isSpace_surrogate {u : ℕ} (h : 0xD800 ≤ u) (h' : u < 0xE000) : isSpace u = false := by
  simp only [isSpace, Bool.or_eq_false_iff, Bool.and_eq_false_imp, decide_eq_true_eq,
    decide_eq_false_iff_not, beq_eq_false_iff_ne]
  omega

theorem jsSpace_of_le (h : 0x10000 ≤ c.toNat) : jsSpace c = false := by
  simp only [jsSpace, isSpace, Bool.or_eq_false_iff, Bool.and_eq_false_imp, decide_eq_true_eq,
    decide_eq_false_iff_not, beq_eq_false_iff_ne]
  omega

theorem encode_eq_cons {a : Char} (ha : a.toNat < 0x80)
    (h : encode s = a.toNat :: us) : ∃ t, s = a :: t ∧ encode t = us := by
  cases s with
  | nil => cases h
  | cons c s =>
    rw [encode_cons] at h
    rcases utf16_cases c with hc | ⟨hi, lo, hc, hhi, -⟩
    · rw [hc] at h
      obtain ⟨hca, hus⟩ := cons_eq_cons.1 h
      exact ⟨s, by rw [Char.toNat_inj.1 hca], hus⟩
    · rw [hc] at h
      have hca : hi = a.toNat := (cons_eq_cons.1 h).1
      omega

def sent {A B : Type} (f : A → B) : Except GrammarError A → Except String B
  | .ok x => .ok (f x)
  | .error e => .error e.text

theorem readRaw_encode (buf s : Text) (quoted : Option Text) :
    readRaw (encode (buf ++ quoted.getD [])) quoted.isSome (encode s) =
      sent (fun p => (encode p.1, encode p.2)) (readToken jsSpace buf quoted s) := by
  induction s generalizing buf quoted with
  | nil =>
    cases quoted with
    | none => simp [readRaw, readToken, sent]
    | some q => simp [readRaw, readToken, sent, GrammarError.text]
  | cons c s ih =>
    have hquote : c.toNat = '"'.toNat ↔ c = '"' := Char.toNat_inj
    cases quoted with
    | none =>
      have hih := ih (buf ++ [c]) none
      have hih' := ih buf (some [])
      rw [Option.isSome_none, Option.getD_none, append_nil] at hih ⊢
      rw [Option.isSome_some, Option.getD_some, append_nil] at hih'
      rw [readToken, encode_cons]
      rcases utf16_cases c with hc | ⟨hi, lo, hc, hhi, hhi', hlo, hlo', hle⟩
      · rw [hc, singleton_append, readRaw]
        simp only [hquote]
        rw [jsSpace]
        split_ifs with hspace hq
        · rw [sent, encode_cons, hc]
          rfl
        · exact hih'
        · rw [encode_append, encode_cons, encode_nil, hc] at hih
          exact hih
      · have hne : ¬c = '"' := fun heq => by
          rw [heq] at hle
          exact absurd hle (by decide)
        rw [hc, cons_append, readRaw, isSpace_surrogate hhi hhi', if_neg nofun, if_neg (by
          change ¬hi = 34
          omega), cons_append, readRaw, isSpace_surrogate hlo hlo', if_neg nofun, if_neg (by
          change ¬lo = 34
          omega), jsSpace_of_le hle, if_neg nofun, if_neg hne, ← hih]
        simp [hc]
    | some q =>
      have hih := ih buf (some (q ++ [c]))
      have hih' := ih (buf ++ q) none
      rw [Option.isSome_none, Option.getD_none, append_nil] at hih'
      rw [Option.isSome_some, Option.getD_some] at hih ⊢
      rw [readToken, encode_cons]
      rcases utf16_cases c with hc | ⟨hi, lo, hc, hhi, hhi', hlo, hlo', hle⟩
      · rw [hc, singleton_append, readRaw]
        simp only [hquote]
        split_ifs with hq
        · exact hih'
        · rw [← hih]
          simp [hc]
      · have hne : ¬c = '"' := fun heq => by
          rw [heq] at hle
          exact absurd hle (by decide)
        rw [hc, cons_append, readRaw, if_neg (by
          change ¬hi = 34
          omega), cons_append, readRaw, if_neg (by
          change ¬lo = 34
          omega), if_neg hne, ← hih]
        simp [hc]

theorem not_mem_encode {a : Char} (ha : a.toNat < 0x80) (h : a ∉ s) : a.toNat ∉ encode s := by
  induction s with
  | nil => exact not_mem_nil
  | cons c s ih =>
    obtain ⟨hc, hs⟩ := not_or.1 fun hor => h (mem_cons.2 hor)
    rw [encode_cons, mem_append]
    rintro (hmem | hmem)
    · rcases utf16_cases c with hcase | ⟨hi, lo, hcase, hhi, -, hlo, -⟩
      · rw [hcase] at hmem
        exact hc (Char.toNat_inj.1 (mem_singleton.1 hmem))
      · rw [hcase, mem_cons, mem_singleton] at hmem
        rcases hmem with heq | heq
        · have heq : a.toNat = hi := heq
          omega
        · have heq : a.toNat = lo := heq
          omega
    · exact ih hs hmem

theorem findIdx_colon (token : Text) :
    (∃ field value, splitField token = some (field, value) ∧ token = field ++ ':' :: value ∧ field ≠ [] ∧
      (encode token).findIdx? (· = ':'.toNat) = some (encode field).length) ∨
    splitField token = none ∧ ((encode token).findIdx? (· = ':'.toNat) = none ∨
      (encode token).findIdx? (· = ':'.toNat) = some 0) := by
  cases hsplit : splitField token with
  | some p =>
    obtain ⟨field, value⟩ := p
    obtain ⟨htoken, hcolon, hne⟩ := splitField_eq hsplit
    refine .inl ⟨field, value, rfl, htoken, hne, ?_⟩
    have hnot := not_mem_encode (by decide) hcolon
    have hcode : encode token = encode field ++ ':'.toNat :: encode value := by
      rw [htoken, encode_append]
      rfl
    have hnone : (encode field).findIdx? (· = ':'.toNat) = none :=
      findIdx?_eq_none_iff.2 fun u hu => decide_eq_false fun heq => hnot (heq ▸ hu)
    rw [hcode, findIdx?_append, hnone, findIdx?_cons, decide_eq_true rfl, if_pos rfl]
    simp
  | none =>
    refine .inr ⟨rfl, ?_⟩
    by_cases hmem : ':' ∈ token
    · -- the colon is the first character
      rw [splitField, span_eq_takeWhile_dropWhile] at hsplit
      cases hdrop : token.dropWhile (· ≠ ':') with
      | nil =>
        have hall := dropWhile_eq_nil_iff.1 hdrop ':' hmem
        simp at hall
      | cons c cs =>
        rw [hdrop] at hsplit
        simp only at hsplit
        split_ifs at hsplit with hempty
        have happend := takeWhile_append_dropWhile (p := (· ≠ ':')) (l := token)
        rw [List.isEmpty_iff.1 hempty, hdrop, nil_append] at happend
        have hc : c = ':' := by
          have hhead := head?_dropWhile_not (· ≠ ':') token
          rw [hdrop] at hhead
          simpa using hhead
        rw [← happend, hc]
        exact .inr rfl
    · have hnot := not_mem_encode (by decide) hmem
      exact .inl (findIdx?_eq_none_iff.2 fun u hu => decide_eq_false fun heq => hnot (heq ▸ hu))

def valueToPill (field value : List CodeUnit) (negated : Bool) : Pill :=
  if value = ['*'.toNat] then .exists_ field
  else if ['>'.toNat, '='.toNat].isPrefixOf value then .cmp field .ge (value.drop 2)
  else if ['<'.toNat, '='.toNat].isPrefixOf value then .cmp field .le (value.drop 2)
  else if ['>'.toNat].isPrefixOf value then .cmp field .gt (value.drop 1)
  else if ['<'.toNat].isPrefixOf value then .cmp field .lt (value.drop 1)
  else if negated then .neq field value else .eq field value

theorem tokenToPill_some {token : List CodeUnit} {c : ℕ} (h : token.findIdx? (· = ':'.toNat) = some c)
    (hc : c ≠ 0) (neg : Bool) : tokenToPill token neg = .ok (valueToPill (token.take c) (token.drop (c + 1)) neg) := by
  rw [tokenToPill, h]
  cases c with
  | zero => exact absurd rfl hc
  | succ c =>
    simp only [valueToPill]
    split_ifs <;> rfl

theorem isPrefixOf_encode {as : Text} (has : ∀ a ∈ as, a.toNat < 0x80) (s : Text) :
    (as.map Char.toNat).isPrefixOf (encode s) = as.isPrefixOf s := by
  induction as generalizing s with
  | nil => rfl
  | cons a as ih =>
    obtain ⟨ha, has⟩ := forall_mem_cons.1 has
    cases s with
    | nil => rfl
    | cons c s =>
      rw [map_cons, encode_cons, isPrefixOf_cons_cons]
      rcases utf16_cases c with hc | ⟨hi, lo, hc, hhi, -, -, -, hle⟩
      · have heq : (a.toNat == c.toNat) = (a == c) := by
          rw [Bool.eq_iff_iff, beq_iff_eq, beq_iff_eq]
          exact Char.toNat_inj
        rw [hc, singleton_append, isPrefixOf_cons_cons, ih has, heq]
      · have hne : (a.toNat == hi) = false := beq_eq_false_iff_ne.2 (by omega)
        have hne' : (a == c) = false := beq_eq_false_iff_ne.2 fun heq => by
          rw [heq] at ha
          omega
        rw [hc, cons_append, isPrefixOf_cons_cons, hne, hne', Bool.false_and, Bool.false_and]

theorem tokenToClause_some {field value : Text} (h : splitField token = some (field, value))
    (neg : Bool) : tokenToClause token neg = .ok (if value = ['*'] then .exists_ field
      else if ['>', '='].isPrefixOf value then .cmp field .ge (value.drop 2)
      else if ['<', '='].isPrefixOf value then .cmp field .le (value.drop 2)
      else if ['>'].isPrefixOf value then .cmp field .gt (value.drop 1)
      else if ['<'].isPrefixOf value then .cmp field .lt (value.drop 1)
      else if neg then .neq field value else .eq field value) := by
  rw [tokenToClause, h]
  simp only
  split
  · rfl
  · rfl
  · rfl
  · rename_i rest hne
    cases rest with
    | nil => rfl
    | cons c rest =>
      have hc : c ≠ '=' := fun heq => hne rest (by rw [heq])
      simp [List.isPrefixOf, hc.symm]
  · rename_i rest hne
    cases rest with
    | nil => rfl
    | cons c rest =>
      have hc : c ≠ '=' := fun heq => hne rest (by rw [heq])
      simp [List.isPrefixOf, hc.symm]
  · rename_i hstar hge hle hgt hlt
    cases value with
    | nil => rfl
    | cons c rest =>
      have hc : c ≠ '>' := fun heq => hgt rest (by rw [heq])
      have hc' : c ≠ '<' := fun heq => hlt rest (by rw [heq])
      rw [if_neg hstar]
      simp [List.isPrefixOf, hc.symm, hc'.symm]

theorem tokenToPill_encode (token : Text) (neg : Bool) :
    tokenToPill (encode token) neg = sent (Clause.map encode) (tokenToClause token neg) := by
  rcases findIdx_colon token with ⟨field, value, hsplit, htoken, hne, hfind⟩ | ⟨hsplit, hfind⟩
  · have hlen : (encode field).length ≠ 0 := fun hzero => by
      cases field with
      | nil => exact hne rfl
      | cons c cs =>
        rw [encode_cons, length_append] at hzero
        rcases utf16_cases c with hc | ⟨hi, lo, hc, -⟩ <;> rw [hc] at hzero <;> simp at hzero
    have hcode : encode token = encode field ++ ':'.toNat :: encode value := by
      rw [htoken, encode_append]
      rfl
    have htake : (encode token).take (encode field).length = encode field := by
      rw [hcode, take_left]
    have hdrop : (encode token).drop ((encode field).length + 1) = encode value := by
      rw [hcode, drop_append]
      simp
    have hstar : encode value = ['*'.toNat] ↔ value = ['*'] := by
      refine ⟨fun h => ?_, fun h => by rw [h]; rfl⟩
      obtain ⟨t, rfl, ht⟩ := encode_eq_cons (by decide) h
      cases t with
      | nil => rfl
      | cons c cs =>
        rw [encode_cons] at ht
        rcases utf16_cases c with hc | ⟨hi, lo, hc, -⟩ <;> rw [hc] at ht <;> cases ht
    have hge := @isPrefixOf_encode ['>', '='] (by simp) value
    have hle := @isPrefixOf_encode ['<', '='] (by simp) value
    have hgt := @isPrefixOf_encode ['>'] (by simp) value
    have hlt := @isPrefixOf_encode ['<'] (by simp) value
    simp only [map_cons, map_nil] at hge hle hgt hlt
    rw [tokenToPill_some hfind hlen, htake, hdrop, tokenToClause_some hsplit, valueToPill, hge, hle, hgt, hlt]
    simp only [hstar]
    split_ifs with h₁ h₂ h₃ h₄ h₅
    · rfl
    · obtain ⟨t, rfl⟩ := isPrefixOf_iff_prefix.1 h₂
      rfl
    · obtain ⟨t, rfl⟩ := isPrefixOf_iff_prefix.1 h₃
      rfl
    · obtain ⟨t, rfl⟩ := isPrefixOf_iff_prefix.1 h₄
      rfl
    · obtain ⟨t, rfl⟩ := isPrefixOf_iff_prefix.1 h₅
      rfl
    · rfl
    · rfl
  · rw [tokenToPill, tokenToClause, hsplit]
    rcases hfind with hfind | hfind <;> rw [hfind] <;> cases neg <;> rfl

theorem dropWhile_encode (s : Text) : (encode s).dropWhile isSpace = encode (s.dropWhile jsSpace) := by
  induction s with
  | nil => rfl
  | cons c s ih =>
    rw [encode_cons, dropWhile_cons]
    rcases utf16_cases c with hc | ⟨hi, lo, hc, hhi, hhi', -, -, hle⟩
    · rw [hc, singleton_append, dropWhile_cons, jsSpace]
      split_ifs
      · exact ih
      · rw [encode_cons, hc]
        rfl
    · rw [hc, cons_append, dropWhile_cons, isSpace_surrogate hhi hhi', if_neg nofun,
        jsSpace_of_le hle, if_neg nofun, encode_cons, hc]
      rfl

theorem parseWith_dropWhile (s : Text) : parseWith white s = parseWith white (s.dropWhile white) := by
  induction s with
  | nil => rfl
  | cons c s ih =>
    rw [dropWhile_cons]
    split_ifs with hc
    · rw [parseWith_white hc, ih]
    · rfl

theorem parseSearch_nil (h : input.dropWhile isSpace = []) : parseSearch input = .ok [] := by
  rw [parseSearch]
  split
  · rfl
  · rename_i heq
    rw [h] at heq
    cases heq

theorem parseSearch_token {u : CodeUnit} (h : input.dropWhile isSpace = u :: us) : parseSearch input =
      match readRaw [] false (if u = '-'.toNat then us else u :: us) with
      | .error e => .error e
      | .ok (raw, rest) =>
        if raw.isEmpty then
          if u = '-'.toNat then .error "dangling '-' with no following token" else parseSearch rest
        else
          match tokenToPill raw (u = '-'.toNat) with
          | .error e => .error e
          | .ok pill => (parseSearch rest).map (pill :: ·) := by
  rw [parseSearch]
  split
  · rename_i heq
    rw [h] at heq
    cases heq
  · rename_i heq
    rw [h] at heq
    cases heq
    split <;> rename_i heq <;> rw [heq]

theorem parseSearch_encode (s : Text) :
    parseSearch (encode s) = sent (List.map (Clause.map encode)) (parseWith jsSpace s) := by
  induction hn : s.length using Nat.strong_induction_on generalizing s with
  | _ n ih =>
    have hskip := dropWhile_encode s
    rw [parseWith_dropWhile]
    cases hdrop : s.dropWhile jsSpace with
    | nil =>
      rw [hdrop] at hskip
      rw [parseSearch_nil hskip, parseWith]
      rfl
    | cons c cs =>
      have hc : ¬jsSpace c = true := by
        have hhead := head?_dropWhile_not jsSpace s
        rw [hdrop] at hhead
        simpa using hhead
      have hle : (c :: cs).length ≤ s.length := by
        rw [← hdrop]
        exact (dropWhile_sublist jsSpace).length_le
      rw [hdrop] at hskip
      -- the first code unit is a minus if the first character is
      obtain ⟨u, us, hcode, hminus⟩ : ∃ u us, encode (c :: cs) = u :: us ∧ (u = '-'.toNat ↔ c = '-') := by
        rcases utf16_cases c with hcase | ⟨hi, lo, hcase, hhi, -, -, -, hbig⟩
        · exact ⟨c.toNat, encode cs, by rw [encode_cons, hcase]; rfl, Char.toNat_inj⟩
        · refine ⟨hi, lo :: encode cs, by rw [encode_cons, hcase]; rfl, fun heq => ?_, fun heq => ?_⟩
          · change hi = 45 at heq
            omega
          · rw [heq] at hbig
            exact absurd hbig (by decide)
      have hrest : (if u = '-'.toNat then us else u :: us) = encode (if c = '-' then cs else c :: cs) := by
        by_cases hm : c = '-'
        · rw [if_pos hm, if_pos (hminus.2 hm)]
          rw [hm] at hcode
          exact (cons_eq_cons.1 hcode).2.symm
        · rw [if_neg hm, if_neg fun h => hm (hminus.1 h), hcode]
      have hread := readRaw_encode [] (if c = '-' then cs else c :: cs) none
      rw [Option.isSome_none, Option.getD_none, append_nil, encode_nil] at hread
      rw [hcode] at hskip
      rw [parseSearch_token hskip, hrest, hread, parseWith_token hc]
      cases htoken : readToken jsSpace [] none (if c = '-' then cs else c :: cs) with
      | error e => rfl
      | ok p =>
        obtain ⟨token, rest⟩ := p
        have hlt := (readToken_lt hc htoken).trans_le hle
        have hih := ih rest.length (hn ▸ hlt) rest rfl
        have hempty : (encode token).isEmpty = token.isEmpty := by
          cases token with
          | nil => rfl
          | cons d ds =>
            rw [encode_cons]
            rcases utf16_cases d with hd | ⟨hi, lo, hd, -⟩ <;> rw [hd] <;> rfl
        simp only [sent, hminus, hempty]
        split_ifs with htok hm
        · rfl
        · exact hih
        · rw [tokenToPill_encode, hih]
          cases tokenToClause token (decide (c = '-')) with
          | error e => rfl
          | ok clause => cases parseWith jsSpace rest <;> rfl

/-! ### Where they agree -/

/-- **The two scanners agree on a text**: both refuse it, or they make the same clauses. -/
def Agree (s : Text) : Prop :=
  ((∃ e, parse s = .error e) ∧ ∃ e, parseSearch (encode s) = .error e) ∨
    ∃ cs, parse s = .ok cs ∧ parseSearch (encode s) = .ok (cs.map (Clause.map encode))

def nextLine : Char := '\u0085'

def byteOrderMark : Char := '\uFEFF'

theorem white_eq (h : c ≠ nextLine) (h' : c ≠ byteOrderMark) : isWhitespace c = jsSpace c := by
  have hne : c.toNat ≠ 0x85 := fun heq => h (Char.toNat_inj.1 heq)
  have hne' : c.toNat ≠ 0xFEFF := fun heq => h' (Char.toNat_inj.1 heq)
  rw [Bool.eq_iff_iff]
  simp only [isWhitespace, jsSpace, isSpace, Bool.or_eq_true, Bool.and_eq_true, decide_eq_true_eq, beq_iff_eq]
  omega

theorem count_encode {a : Char} (ha : a.toNat < 0xD800 ∨ 0xE000 ≤ a.toNat ∧ a.toNat < 0x10000) (s : Text) :
    (encode s).count a.toNat = s.count a := by
  induction s with
  | nil => rfl
  | cons c s ih =>
    rw [encode_cons, count_append, ih, count_cons]
    rcases utf16_cases c with hc | ⟨hi, lo, hc, hhi, hhi', hlo, hlo', hle⟩
    · have heq : (c.toNat == a.toNat) = (c == a) := by
        rw [Bool.eq_iff_iff, beq_iff_eq, beq_iff_eq]
        exact Char.toNat_inj
      rw [hc, count_singleton, heq]
      exact Nat.add_comm _ _
    · have hca : c ≠ a := fun heq => by
        rw [heq] at hle
        omega
      have hne : hi ≠ a.toNat := by omega
      have hne' : lo ≠ a.toNat := by omega
      rw [hc, count_cons_of_ne hne, count_cons_of_ne hne', count_nil,
        if_neg (beq_eq_false_iff_ne.2 hca ▸ Bool.false_ne_true), Nat.zero_add, Nat.add_zero]

theorem chars_encode (cs : List (Clause Text)) :
    (cs.map (Clause.map encode)).flatMap Clause.chars = encode (cs.flatMap Clause.chars) := by
  induction cs with
  | nil => rfl
  | cons c cs ih =>
    rw [map_cons, flatMap_cons, flatMap_cons, encode_append, ih]
    cases c <;> simp [Clause.map, Clause.chars]

theorem parseSearch_error_iff : (∃ e, parseSearch (encode s) = .error e) ↔ Refused jsSpace s := by
  rw [← parseWith_error_iff, parseSearch_encode]
  cases parseWith jsSpace s with
  | error e => exact ⟨fun _ => ⟨e, rfl⟩, fun _ => ⟨e.text, rfl⟩⟩
  | ok cs => exact ⟨nofun, nofun⟩

theorem count_of_agree {cs : List (Clause Text)} (h : parse s = .ok cs)
    (h' : parseSearch (encode s) = .ok (cs.map (Clause.map encode))) {a : Char} (ha : Ordinary a)
    (hunit : a.toNat < 0xD800 ∨ 0xE000 ≤ a.toNat ∧ a.toNat < 0x10000) :
    (words isWhitespace s).flatten.count a = (words jsSpace s).flatten.count a := by
  rw [parseSearch_encode] at h'
  cases hjs : parseWith jsSpace s with
  | error e =>
    rw [hjs] at h'
    cases h'
  | ok cs' =>
    rw [hjs] at h'
    have heq : cs'.map (Clause.map encode) = cs.map (Clause.map encode) := Except.ok.inj h'
    have hcode := congrArg (fun ps => (ps.flatMap Clause.chars).count a.toNat) heq
    simp only [chars_encode, count_encode hunit] at hcode
    rw [parse, parse_eq_evalWords] at h
    rw [parse_eq_evalWords] at hjs
    rw [← count_evalWords ha h, ← count_evalWords ha hjs, hcode]

/-- **On which texts the scanners agree.** -/
theorem agree_iff (s : Text) : Agree s ↔ (∀ c ∈ unquoted false s, c ≠ nextLine ∧ c ≠ byteOrderMark) ∨
      Refused isWhitespace s ∧ Refused jsSpace s := by
  constructor
  · rintro (⟨hrust, hjs⟩ | ⟨cs, hrust, hjs⟩)
    · exact .inr ⟨parseWith_error_iff.1 hrust, parseSearch_error_iff.1 hjs⟩
    · refine .inl fun c hc => ⟨fun heq => ?_, fun heq => ?_⟩
      · subst heq
        have hcount := @count_of_agree _ _ hrust hjs nextLine (by decide) (by decide)
        have hwhite := @count_words isWhitespace (by decide) nextLine s
        have hkept := @count_words jsSpace (by decide) nextLine s
        rw [if_pos (by decide)] at hwhite
        rw [if_neg (by decide)] at hkept
        have hpos := count_pos_iff.2 hc
        omega
      · subst heq
        have hcount := @count_of_agree _ _ hrust hjs byteOrderMark (by decide) (by decide)
        have hkept := @count_words isWhitespace (by decide) byteOrderMark s
        have hwhite := @count_words jsSpace (by decide) byteOrderMark s
        rw [if_pos (by decide)] at hwhite
        rw [if_neg (by decide)] at hkept
        have hpos := count_pos_iff.2 hc
        omega
  · rintro (hplain | ⟨hrust, hjs⟩)
    · have hwords := @words_congr isWhitespace jsSpace s (by decide) fun c hc =>
        white_eq (hplain c hc).1 (hplain c hc).2
      have hsame : parseWith jsSpace s = parse s := by
        rw [parse, parse_eq_evalWords, parse_eq_evalWords, hwords]
      have hclient := parseSearch_encode s
      rw [hsame] at hclient
      cases hrust : parse s with
      | error e =>
        rw [hrust] at hclient
        exact .inl ⟨⟨e, hrust⟩, _, hclient⟩
      | ok cs =>
        rw [hrust] at hclient
        exact .inr ⟨cs, hrust, hclient⟩
    · exact .inl ⟨parseWith_error_iff.2 hrust, parseSearch_error_iff.2 hjs⟩

theorem not_agree {cs : List (Clause Text)} {pills : List Pill} (h : parse s = .ok cs)
    (h' : parseSearch (encode s) = .ok pills) (hne : cs.map (Clause.map encode) ≠ pills) : ¬Agree s := by
  rintro (⟨⟨e, he⟩, -⟩ | ⟨cs', hcs', hpills⟩)
  · rw [h] at he
    cases he
  · rw [h] at hcs'
    cases hcs'
    rw [h'] at hpills
    exact hne (Except.ok.inj hpills).symm

theorem parseWith_split (ha : white 'a' = false) (hb : white 'b' = false) (hc : white c = true) :
    parseWith white ['a', c, 'b'] = .ok [.substring ['a'], .substring ['b']] := by
  have hend : parseWith white ['b'] = .ok [.substring ['b']] := by
    rw [parseWith_token (by simp [hb])]
    simp [readToken, hb, tokenToClause, splitField, parseWith, Except.map]
  rw [parseWith_token (by simp [ha])]
  simp [readToken, ha, hc, tokenToClause, splitField, parseWith_white hc, hend, Except.map]

theorem parseWith_whole (ha : white 'a' = false) (hb : white 'b' = false) (hc : white c = false)
    (hplain : Ordinary c) : parseWith white ['a', c, 'b'] = .ok [.substring ['a', c, 'b']] := by
  simp only [Ordinary, mem_cons, not_mem_nil, or_false, not_or] at hplain
  rw [parseWith_token (by simp [ha])]
  simp [readToken, ha, hb, hc, hplain.1, hplain.2.2.1, tokenToClause, splitField, parseWith, Except.map]

/-- **Two texts that are split differently**: at the next line character, and at the byte order mark. -/
theorem split_apart : (parse ['a', nextLine, 'b'] = .ok [.substring ['a'], .substring ['b']] ∧
      parseSearch (encode ['a', nextLine, 'b']) = .ok [.substring (encode ['a', nextLine, 'b'])] ∧
      ¬Agree ['a', nextLine, 'b']) ∧ parse ['a', byteOrderMark, 'b'] = .ok [.substring ['a', byteOrderMark, 'b']] ∧
      parseSearch (encode ['a', byteOrderMark, 'b']) = .ok [.substring (encode ['a']), .substring (encode ['b'])] ∧
      ¬Agree ['a', byteOrderMark, 'b'] := by
  have h₁ : parse ['a', nextLine, 'b'] = .ok [.substring ['a'], .substring ['b']] :=
    parseWith_split (by decide) (by decide) (by decide)
  have h₂ : parseSearch (encode ['a', nextLine, 'b']) =
      .ok [.substring (encode ['a', nextLine, 'b'])] := by
    rw [parseSearch_encode, parseWith_whole (by decide) (by decide) (by decide) (by decide)]
    rfl
  have h₃ : parse ['a', byteOrderMark, 'b'] = .ok [.substring ['a', byteOrderMark, 'b']] :=
    parseWith_whole (by decide) (by decide) (by decide) (by decide)
  have h₄ : parseSearch (encode ['a', byteOrderMark, 'b']) =
      .ok [.substring (encode ['a']), .substring (encode ['b'])] := by
    rw [parseSearch_encode, parseWith_split (by decide) (by decide) (by decide)]
    rfl
  exact ⟨⟨h₁, h₂, not_agree h₁ h₂ (by decide)⟩, h₃, h₄, not_agree h₃ h₄ (by decide)⟩

end Discover
