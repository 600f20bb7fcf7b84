/-
**The words of SQL.**

How SQL splits a text: words, quoted names, numbers, strings and symbols.  In a string two single
quotes are one, and nothing else is special; in a quoted name two double quotes are one.
-/

import Pensieve.Scanner

namespace SqlText

open List

inductive Token where
  | word (name : List Char)
  | quoted (name : List Char)
  | number (lit : List Char)
  | str (s : List Char)
  | lparen | rparen | comma
  | eq | ne | lt | le | gt | ge
  | plus | minus | star | slash | percent
  deriving DecidableEq

inductive SqlError where
  | unterminated
  | unexpected (c : Char)
  deriving DecidableEq

/-- `text.replace(q, qq)`. -/
def doubled (q : Char) (text : List Char) : List Char := text.flatMap fun c => if c = q then [q, q] else [c]

def quotedText (q : Char) : List Char → Option (List Char × List Char)
  | [] => none
  | c :: cs =>
    if c = q then
      match cs with
      | [] => some ([], [])
      | d :: rest =>
        if d = q then (quotedText q rest).map fun r => (q :: r.1, r.2) else some ([], d :: rest)
    else (quotedText q cs).map fun r => (c :: r.1, r.2)

/-! ### Words and numbers -/

def isWordStart (c : Char) : Bool := c.isAlpha || c = '_'

def isWordChar (c : Char) : Bool := c.isAlphanum || c = '_'

/-- An exponent: `e`, a sign perhaps, and digits. -/
def exponent (cs : List Char) : List Char × List Char :=
  match cs with
  | [] => ([], [])
  | e :: rest =>
    if e = 'e' || e = 'E' then
      let sign := rest.takeWhile fun c => c = '+' || c = '-'
      let behind := rest.drop sign.length
      let ds := behind.takeWhile Char.isDigit
      if sign.length ≤ 1 && ds ≠ [] then (e :: sign ++ ds, behind.drop ds.length)
      else ([], cs)
    else ([], cs)

def fraction (cs : List Char) : List Char × List Char :=
  match cs with
  | [] => ([], [])
  | c :: rest => if c = '.' then (c :: rest.takeWhile Char.isDigit, rest.dropWhile Char.isDigit)
      else ([], cs)

def number (cs : List Char) : List Char × List Char :=
  let whole := cs.takeWhile Char.isDigit
  let f := fraction (cs.dropWhile Char.isDigit)
  let e := exponent f.2
  (whole ++ f.1 ++ e.1, e.2)

/-! ### Splitting a text -/

def isSpace (c : Char) : Bool := c = ' ' || c = '\n' || c = '\t' || c = '\r'

def peek (test : Char → Bool) : List Char → Bool
  | [] => false
  | c :: _ => test c

def quotedToken (f : List Char → Token) (r : Option (List Char × List Char)) : Lexed Char Token SqlError :=
  match r with
  | some (s, rest) => .token (f s) rest
  | none => .fail .unterminated

def next (c : Char) (cs : List Char) : Lexed Char Token SqlError :=
  if isSpace c then .skip cs
  else if c = '-' && peek (· = '-') cs then .skip ((cs.dropWhile (· ≠ '\n')).drop 1)
  else match c with
    | '(' => .token .lparen cs
    | ')' => .token .rparen cs
    | ',' => .token .comma cs
    | '=' => .token .eq cs
    | '<' =>
      if peek (· = '=') cs then .token .le (cs.drop 1)
      else if peek (· = '>') cs then .token .ne (cs.drop 1)
      else .token .lt cs
    | '>' => if peek (· = '=') cs then .token .ge (cs.drop 1) else .token .gt cs
    | '+' => .token .plus cs
    | '-' => .token .minus cs
    | '*' => .token .star cs
    | '/' => .token .slash cs
    | '%' => .token .percent cs
    | '\'' => quotedToken .str (quotedText '\'' cs)
    | '"' => quotedToken .quoted (quotedText '"' cs)
    | _ =>
      if c.isDigit then .token (.number (number (c :: cs)).1) (number (c :: cs)).2
      else if isWordStart c then
        .token (.word (c :: cs.takeWhile isWordChar)) (cs.dropWhile isWordChar)
      else .fail (.unexpected c)

/-! ### Every step makes the text shorter -/

variable {q : Char} {cs rest : List Char}

theorem quotedText_length {s : List Char}
    (h : quotedText q cs = some (s, rest)) : rest.length < cs.length := by
  fun_induction quotedText q cs generalizing s with
  | case1 => cases h
  | case2 | case4 d rest' hd =>
    cases h
    simp
  | case3 rest' ih | case5 c cs hc ih =>
    obtain ⟨r, hr, hs⟩ := Option.map_eq_some_iff.mp h
    cases hs
    have := ih hr
    simp only [length_cons]
    omega

theorem exponent_length (cs : List Char) : (exponent cs).2.length ≤ cs.length := by
  unfold exponent
  split
  · simp
  · dsimp only
    split
    · split
      · simp only [length_drop, length_cons]
        omega
      · simp
    · simp

theorem fraction_length (cs : List Char) : (fraction cs).2.length ≤ cs.length := by
  unfold fraction
  split
  · simp
  · split
    · exact ((dropWhile_sublist _).length_le).trans (by simp)
    · simp

variable {c : Char}

theorem number_length (hc : c.isDigit = true) : (number (c :: cs)).2.length ≤ cs.length := by
  have hwhole : ((c :: cs).dropWhile Char.isDigit).length ≤ cs.length := by
    rw [dropWhile_cons_of_pos hc]
    exact (dropWhile_sublist _).length_le
  exact (exponent_length _).trans ((fraction_length _).trans hwhole)

theorem quotedToken_length {f : List Char → Token}
    (h : (quotedToken f (quotedText q cs)).rest = some rest) : rest.length ≤ cs.length := by
  unfold quotedToken at h
  split at h
  · rename_i hq
    cases h
    exact (quotedText_length hq).le
  · cases h

theorem next_length (h : (next c cs).rest = some rest) : rest.length ≤ cs.length := by
  have hcomment : ((cs.dropWhile (· ≠ '\n')).drop 1).length ≤ cs.length := by
    rw [length_drop]
    exact (Nat.sub_le _ _).trans (dropWhile_sublist _).length_le
  unfold next at h
  split at h
  · cases h
    exact le_rfl
  · split at h
    · cases h
      exact hcomment
    · split at h
      case h_12 => exact quotedToken_length h
      case h_13 => exact quotedToken_length h
      case h_14 =>
        split at h
        · rename_i hc
          cases h
          exact number_length hc
        · split at h
          · cases h
            exact (dropWhile_sublist _).length_le
          · cases h
      -- the symbols
      all_goals (repeat' split at h) <;> cases h <;> simp

def lexer : Scanner Char Token SqlError where
  next := next
  shrinks := next_length

/-! ### Texts that stand by themselves -/

/-- A word or a literal ends here: at the end of the text, or at a space, a comma or a closing
parenthesis. -/
def Ends (rest : List Char) : Prop := ∀ c ∈ rest.head?, c = ' ' ∨ c = ',' ∨ c = ')'

/-- What follows goes on with no `q`. -/
def NoQuote (q : Char) (rest : List Char) : Prop := q ∉ rest.head?

theorem noQuote_of_ends (h : Ends rest) (hq : q = '\'' ∨ q = '"') : NoQuote q rest := by
  intro hmem
  have hc := h q hmem
  rcases hq with rfl | rfl
  · exact absurd hc (by decide)
  · exact absurd hc (by decide)

theorem quotedText_of_ne (h : c ≠ q) : quotedText q (c :: cs) = (quotedText q cs).map fun r => (c :: r.1, r.2) := by
  rw [quotedText.eq_def]
  simp [h]

theorem quotedText_doubled (s : List Char) (h : NoQuote q rest) :
    quotedText q (doubled q s ++ q :: rest) = some (s, rest) := by
  induction s with
  | nil =>
    cases rest with
    | nil => simp [doubled, quotedText]
    | cons d rest =>
      have hd : d ≠ q := fun hd => h (by simp [hd])
      simp [doubled, quotedText, hd]
  | cons c s ih =>
    unfold doubled at ih ⊢
    by_cases hc : c = q
    · subst hc
      simp [quotedText, ih]
    · simp [quotedText_of_ne hc, hc, ih]

theorem stands_string (s : List Char) :
    lexer.StandsBefore (NoQuote '\'') ('\'' :: (doubled '\'' s ++ ['\''])) [.str s] := by
  refine Scanner.standsBefore_of_next fun rest hrest => ?_
  have hread := quotedText_doubled s hrest
  rw [append_assoc]
  change quotedToken .str (quotedText '\'' (doubled '\'' s ++ '\'' :: rest)) = _
  rw [hread]
  rfl

theorem stands_quoted (name : List Char) :
    lexer.StandsBefore (NoQuote '"') ('"' :: (doubled '"' name ++ ['"'])) [.quoted name] := by
  refine Scanner.standsBefore_of_next fun rest hrest => ?_
  have hread := quotedText_doubled name hrest
  rw [append_assoc]
  change quotedToken .quoted (quotedText '"' (doubled '"' name ++ '"' :: rest)) = _
  rw [hread]
  rfl

theorem stands_space : lexer.StandsBefore (fun _ => True) [' '] [] := Scanner.standsBefore_of_skip fun _ _ => rfl

theorem isWordChar_of_ends (h : Ends rest) : ∀ c ∈ rest.head?, isWordChar c = false := by
  intro c hc
  rcases h c hc with rfl | rfl | rfl <;> decide

theorem isDigit_of_isWordStart (hc : isWordStart c = true) : c.isDigit = false := by
  simp only [isWordStart, Bool.or_eq_true, decide_eq_true_eq] at hc
  rcases hc with hc | rfl
  · delta Char.isAlpha Char.isUpper Char.isLower at hc
    simp only [Bool.or_eq_true, Bool.and_eq_true, decide_eq_true_eq, ge_iff_le, UInt32.le_iff_toNat_le] at hc
    simp only [Char.isDigit, ge_iff_le, Bool.and_eq_false_iff, decide_eq_false_iff_not, UInt32.le_iff_toNat_le]
    have hA : 'A'.val.toNat = 65 := rfl
    have ha : 'a'.val.toNat = 97 := rfl
    have h9 : '9'.val.toNat = 57 := rfl
    omega
  · rfl

theorem next_of_start (hc : isWordStart c = true ∨ c.isDigit = true) : next c cs =
      if c.isDigit then .token (.number (number (c :: cs)).1) (number (c :: cs)).2
      else .token (.word (c :: cs.takeWhile isWordChar)) (cs.dropWhile isWordChar) := by
  unfold next
  split
  · rename_i hspace
    simp only [isSpace, Bool.or_eq_true, decide_eq_true_eq] at hspace
    rcases hspace with ((rfl | rfl) | rfl) | rfl <;> exact absurd hc (by decide)
  · split
    · rename_i hdash
      simp only [Bool.and_eq_true, decide_eq_true_eq] at hdash
      rw [hdash.1] at hc
      exact absurd hc (by decide)
    · split
      case h_14 =>
        split
        · rfl
        · rename_i hdigit
          rw [if_pos (hc.resolve_right hdigit)]
      all_goals exact absurd hc (by decide)

theorem stands_word (hc : isWordStart c = true) (hcs : ∀ d ∈ cs, isWordChar d = true) :
    lexer.StandsBefore Ends (c :: cs) [.word (c :: cs)] := by
  refine Scanner.standsBefore_of_next fun rest hrest => ?_
  obtain ⟨htake, hdrop⟩ := Scanner.span_run hcs (isWordChar_of_ends hrest)
  change next c (cs ++ rest) = _
  rw [next_of_start (.inl hc), if_neg (by simp [isDigit_of_isWordStart hc]), htake, hdrop]

theorem isDigit_of_ends (h : Ends rest) : ∀ c ∈ rest.head?, c.isDigit = false := by
  intro c hc
  rcases h c hc with rfl | rfl | rfl <;> rfl

theorem fraction_of_ends (h : Ends rest) : fraction rest = ([], rest) := by
  cases rest with
  | nil => rfl
  | cons c rest => rcases h c rfl with rfl | rfl | rfl <;> rfl

theorem exponent_of_ends (h : Ends rest) : exponent rest = ([], rest) := by
  cases rest with
  | nil => rfl
  | cons c rest => rcases h c rfl with rfl | rfl | rfl <;> rfl

theorem stands_number {lit : List Char} (hlit : lit = c :: cs) (hc : c.isDigit = true)
    (hread : ∀ rest, Ends rest → number (lit ++ rest) = (lit, rest)) : lexer.StandsBefore Ends lit [.number lit] := by
  subst hlit
  refine Scanner.standsBefore_of_next fun rest hrest => ?_
  change next c (cs ++ rest) = _
  rw [next_of_start (.inr hc), if_pos hc, ← cons_append, hread rest hrest]

theorem number_digits {ds : List Char} (hds : ∀ d ∈ ds, d.isDigit = true) (hrest : Ends rest) :
    number (ds ++ rest) = (ds, rest) := by
  obtain ⟨htake, hdrop⟩ := Scanner.span_run hds (isDigit_of_ends hrest)
  simp [number, htake, hdrop, fraction_of_ends hrest, exponent_of_ends hrest]

theorem number_point {ds fs : List Char} (hds : ∀ d ∈ ds, d.isDigit = true)
    (hfs : ∀ d ∈ fs, d.isDigit = true) (hrest : Ends rest) :
    number (ds ++ '.' :: fs ++ rest) = (ds ++ '.' :: fs, rest) := by
  obtain ⟨htake, hdrop⟩ := Scanner.span_run hfs (isDigit_of_ends hrest)
  have hpoint : ∀ c ∈ ('.' :: (fs ++ rest)).head?, c.isDigit = false := by
    intro c hc
    cases hc
    rfl
  obtain ⟨htake', hdrop'⟩ := Scanner.span_run hds hpoint
  rw [append_assoc]
  simp [number, fraction, htake, hdrop, htake', hdrop', exponent_of_ends hrest]

end SqlText
