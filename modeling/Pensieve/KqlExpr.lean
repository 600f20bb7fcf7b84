/-
**The KQL expression parser.**

The parser turns the tokens of an expression into SQL text, without a tree in between.  Each level of
precedence is a function over the next one; parentheses, calls and lists lead back to the top, so the
functions take the parser of a whole expression as an argument, and `parseExpr` ties the knot.

Main results:

* `KqlExpr.parseExpr_enough` — the recursion of `parseExpr` is deep enough for every list of tokens.
-/

import Pensieve.StringLiterals

namespace KqlExpr

open List
open KqlLexer StringLiterals

abbrev Text := List Char

variable {F : Type}

/-! ### Errors -/

inductive ParseError (F : Type) where
  /-- `unexpected end of query` -/
  | endOfQuery
  /-- `expected {what}, got {got}` -/
  | expected (what : String) (got : Option (Token F))
  /-- `dotted path … not yet supported` -/
  | dottedPath (name : Text)
  /-- `unexpected token in expression` -/
  | unexpectedToken (t : Token F)
  /-- `unsupported function: {name}/{arity}` -/
  | unsupportedFunction (name : Text) (arity : ℕ)
  /-- `bad duration literal` -/
  | badDuration (lit : Text)
  /-- `unknown duration unit` -/
  | unknownUnit (lit : Text)
  | outOfFuel

abbrev Piece (F : Type) := Text × List (Token F)

abbrev Parser (F : Type) := List (Token F) → Except (ParseError F) (Piece F)

/-! ### Names -/

def sqlReserved : List Text :=
  ["all", "and", "any", "array", "as", "asc", "asymmetric", "authorization", "between", "both",
    "by", "case", "cast", "check", "collate", "column", "constraint", "create", "cross", "current",
    "current_date", "current_role", "current_time", "current_timestamp", "current_user", "default",
    "deferrable", "deferred", "delete", "desc", "distinct", "do", "else", "end", "except", "exists",
    "false", "fetch", "for", "foreign", "from", "full", "grant", "group", "having", "in",
    "initially", "inner", "intersect", "into", "is", "join", "leading", "left", "like", "limit",
    "localtime", "localtimestamp", "natural", "not", "null", "offset", "on", "only", "or", "order",
    "outer", "overlaps", "placing", "primary", "references", "right", "select", "session_user",
    "similar", "some", "symmetric", "table", "then", "to", "trailing", "true", "union", "unique",
    "user", "using", "variadic", "verbose", "when", "where", "window", "with"].map String.toList

def structurallySimple (name : Text) : Bool :=
  (name.all fun c => c.isAlphanum || c = '_') && (name.head?.map fun c => !c.isDigit).getD false

def unquoted (name : Text) : Bool := structurallySimple name && !sqlReserved.contains (name.map Char.toLower)

def quoteIdent (name : Text) : Text :=
  if unquoted name then name else '"' :: (SqlText.doubled '"' name ++ ['"'])

/-! ### Patterns -/

/-- `content.replace("''", "'")`. -/
def undouble : Text → Text
  | [] => []
  | [c] => [c]
  | c :: d :: cs => if c = '\'' && d = '\'' then '\'' :: undouble cs else c :: undouble (d :: cs)

def stripOuterQuotes (s : Text) : Text :=
  if s.head? = some '\'' && s.getLast? = some '\'' && s.length ≥ 2 then undouble (s.drop 1).dropLast
  else s

def addLikeRight (literal : Text) : Text := quote (stripOuterQuotes literal ++ ['%'])

def addLikeLeft (literal : Text) : Text := quote ('%' :: stripOuterQuotes literal)

def addLikeBoth (literal : Text) : Text := quote ('%' :: stripOuterQuotes literal ++ ['%'])

/-! ### Texts of operators -/

def paren (t : Text) : Text := '(' :: (t ++ [')'])

/-- `({lhs} {op} {rhs})`. -/
def binary (lhs op rhs : Text) : Text := paren (lhs ++ ' ' :: (op ++ ' ' :: rhs))

/-- `({lhs} >= {low}) AND ({lhs} <= {high})`, in parentheses. -/
def betweenText (lhs low high : Text) : Text :=
  binary (binary lhs ['>', '='] low) "AND".toList (binary lhs ['<', '='] high)

def commaList (values : List Text) : Text := (values.intersperse [',', ' ']).flatten

def inText (lhs : Text) (values : List Text) : Text := paren (lhs ++ " IN ".toList ++ paren (commaList values))

def orOp : Token F → Option Text
  | .ident w => if w = "or".toList then some "OR".toList else none
  | _ => none

def andOp : Token F → Option Text
  | .ident w => if w = "and".toList then some "AND".toList else none
  | _ => none

def additiveOp : Token F → Option Text
  | .plus => some ['+']
  | .minus => some ['-']
  | _ => none

def multiplicativeOp : Token F → Option Text
  | .star => some ['*']
  | .slash => some ['/']
  | .percent => some ['%']
  | _ => none

def comparisonOp : Token F → Option (Text → Text → Text)
  | .eq => some fun lhs rhs => binary lhs ['='] rhs
  | .ne => some fun lhs rhs => binary lhs ['<', '>'] rhs
  | .lt => some fun lhs rhs => binary lhs ['<'] rhs
  | .le => some fun lhs rhs => binary lhs ['<', '='] rhs
  | .gt => some fun lhs rhs => binary lhs ['>'] rhs
  | .ge => some fun lhs rhs => binary lhs ['>', '='] rhs
  | .ident w =>
    if w = "contains".toList then some fun lhs rhs => binary lhs "LIKE".toList (addLikeBoth rhs)
    else if w = "startswith".toList then
      some fun lhs rhs => binary lhs "LIKE".toList (addLikeRight rhs)
    else if w = "endswith".toList then
      some fun lhs rhs => binary lhs "LIKE".toList (addLikeLeft rhs)
    else if w = "has".toList then some fun lhs rhs => binary lhs "LIKE".toList (addLikeBoth rhs)
    else none
  | _ => none

/-! ### Calls -/

def durationToSqlInterval (d : Text) : Except (ParseError F) Text :=
  let n := d.dropLast
  if n ≠ [] && n.all Char.isDigit && digitsValue n < 2 ^ 63 then
    match d.getLast? with
    | some 's' => .ok (interval n "second")
    | some 'm' => .ok (interval n "minute")
    | some 'h' => .ok (interval n "hour")
    | some 'd' => .ok (interval n "day")
    | _ => .error (.unknownUnit d)
  else .error (.badDuration d)
where
  interval (n : Text) (unitName : String) : Text :=
    "INTERVAL '".toList ++ Nat.toDigits 10 (digitsValue n) ++ ' ' :: unitName.toList ++ ['\'']

/-- `{f}({args})`. -/
def app (f : String) (args : List Text) : Text := f.toList ++ paren (commaList args)

def callText (name : Text) (args : List Text) : Option Text :=
  match String.ofList name, args with
  | "now", [] => some "now()".toList
  | "ago", [d] => some (paren ("now() - ".toList ++ d))
  | "bin", [col, bucket] =>
    some ("date_bin(".toList ++ bucket ++ ", ".toList ++ col ++ ", TIMESTAMP '1970-01-01 00:00:00')".toList)
  | "startofhour", [col] => some ("date_trunc('hour', ".toList ++ col ++ [')'])
  | "startofday", [col] => some ("date_trunc('day', ".toList ++ col ++ [')'])
  | "startofmonth", [col] => some ("date_trunc('month', ".toList ++ col ++ [')'])
  | "datetime", [x] => some ("CAST(".toList ++ x ++ " AS TIMESTAMP)".toList)
  | "strcat", args => some (app "concat" args)
  | "tolower", [s] => some (app "lower" [s])
  | "toupper", [s] => some (app "upper" [s])
  | "strlen", [s] => some (app "char_length" [s])
  | "isnull", [x] => some (paren (x ++ " IS NULL".toList))
  | "isnotnull", [x] => some (paren (x ++ " IS NOT NULL".toList))
  | "iff", [c, a, b] =>
    some (paren ("CASE WHEN ".toList ++ c ++ " THEN ".toList ++ a ++ " ELSE ".toList ++ b ++ " END".toList))
  | "count", [] => some "count(*)".toList
  | "count", [x] => some (app "count" [x])
  | "sum", [x] => some (app "sum" [x])
  | "avg", [x] => some (app "avg" [x])
  | "min", [x] => some (app "min" [x])
  | "max", [x] => some (app "max" [x])
  | "make_list", [x] => some (app "array_agg" [x])
  | "dcount", [x] => some ("count(DISTINCT ".toList ++ x ++ [')'])
  | "dcountif", [x, c] =>
    some ("count(DISTINCT CASE WHEN ".toList ++ c ++ " THEN ".toList ++ x ++ " ELSE NULL END)".toList)
  | _, _ => none

section Levels

/-- `self.expect(&Token::RParen, "`)`")`. -/
def expectRParen (text : Text) : Parser F
  | .rparen :: rest => .ok (text, rest)
  | toks => .error (.expected "`)`" toks.head?)

def leftLoop (sub : Parser F) (op : Token F → Option Text) : ℕ → Text → List (Token F) → Except (ParseError F) (Piece F)
  | 0, _, _ => .error .outOfFuel
  | _ + 1, lhs, [] => .ok (lhs, [])
  | n + 1, lhs, t :: toks =>
    match op t with
    | none => .ok (lhs, t :: toks)
    | some o => do
        let (rhs, rest) ← sub toks
        leftLoop sub op n (binary lhs o rhs) rest

def leftAssoc (sub : Parser F) (op : Token F → Option Text) : Parser F := fun toks => do
  let (lhs, rest) ← sub toks
  leftLoop sub op (rest.length + 1) lhs rest

def valueLoop (sub : Parser F) : ℕ → List Text → List (Token F) → Except (ParseError F) (List Text × List (Token F))
  | 0, _, _ => .error .outOfFuel
  | n + 1, values, toks => do
      let (v, rest) ← sub toks
      match rest with
      | .comma :: rest' => valueLoop sub n (values ++ [v]) rest'
      | _ => .ok (values ++ [v], rest)

variable (display : F → Text) (expr : Parser F)

def parseArgs (toks : List (Token F)) : Except (ParseError F) (List Text × List (Token F)) :=
  match toks with
  | .rparen :: rest => .ok ([], rest)
  | _ => do
      let (args, rest) ← valueLoop expr (toks.length + 1) [] toks
      let (_, rest') ← expectRParen [] rest
      .ok (args, rest')

def parseFuncCall (name : Text) (toks : List (Token F)) : Except (ParseError F) (Piece F) := do
  let (args, rest) ← parseArgs expr toks
  match callText name args with
  | some text => .ok (text, rest)
  | none => .error (.unsupportedFunction name args.length)

def nameText (name : Text) : Text :=
  if name = "true".toList then "TRUE".toList
  else if name = "false".toList then "FALSE".toList
  else if name = "null".toList then "NULL".toList
  else quoteIdent name

def parseAtom : Parser F
  | [] => .error .endOfQuery
  | .int n :: rest => .ok (Nat.toDigits 10 n, rest)
  | .float f :: rest => .ok (display f, rest)
  | .str s :: rest => .ok (sqlLiteral s, rest)
  | .duration d :: rest => do
      let text ← durationToSqlInterval d
      .ok (text, rest)
  | .lparen :: rest => do
      let (inner, rest') ← expr rest
      expectRParen (paren inner) rest'
  | .star :: rest => .ok (['*'], rest)
  | .ident name :: .lparen :: rest => parseFuncCall expr name rest
  | .ident name :: .dot :: _ => .error (.dottedPath name)
  | .ident name :: rest => .ok (nameText name, rest)
  | t :: _ => .error (.unexpectedToken t)

def parseUnary : Parser F
  | .minus :: rest => do
      let (inner, rest') ← parseUnary rest
      .ok (paren ('-' :: inner), rest')
  | toks => parseAtom display expr toks

def parseMultiplicative : Parser F := leftAssoc (parseUnary display expr) multiplicativeOp

def parseAdditive : Parser F := leftAssoc (parseMultiplicative display expr) additiveOp

/-- `between (low .. high)`, from the token behind `between` on. -/
def parseBetween (lhs : Text) (toks : List (Token F)) : Except (ParseError F) (Piece F) :=
  match toks with
  | .lparen :: rest => do
      let (low, rest') ← parseAdditive display expr rest
      match rest' with
      | .dotDot :: rest'' => do
          let (high, rest₃) ← parseAdditive display expr rest''
          expectRParen (betweenText lhs low high) rest₃
      | _ => .error (.expected "`..`" rest'.head?)
  | _ => .error (.expected "`(`" toks.head?)

/-- `in (v1, v2, …)`, from the token behind `in` on. -/
def parseIn (lhs : Text) (toks : List (Token F)) : Except (ParseError F) (Piece F) :=
  match toks with
  | .lparen :: rest => do
      let (values, rest') ← valueLoop (parseAdditive display expr) (rest.length + 1) [] rest
      expectRParen (inText lhs values) rest'
  | _ => .error (.expected "`(` after `in`" toks.head?)

def parseComparisonTail (lhs : Text) (rest : List (Token F)) : Except (ParseError F) (Piece F) :=
  match rest with
  | [] => .ok (lhs, rest)
  | t :: rest' =>
    match t with
    | .ident w =>
      if w = "between".toList then parseBetween display expr lhs rest'
      else if w.map Char.toLower = "in".toList then parseIn display expr lhs rest'
      else compareWith t rest'
    | _ => compareWith t rest'
where
  compareWith (t : Token F) (rest' : List (Token F)) : Except (ParseError F) (Piece F) :=
    match comparisonOp t with
    | none => .ok (lhs, rest)
    | some text => do
        let (rhs, rest'') ← parseAdditive display expr rest'
        .ok (text lhs rhs, rest'')

def parseComparison : Parser F := fun toks => do
  let (lhs, rest) ← parseAdditive display expr toks
  parseComparisonTail display expr lhs rest

def parseNot : Parser F
  | .ident w :: rest =>
    if w = "not".toList then do
      let (inner, rest') ← parseNot rest
      .ok (paren ("NOT ".toList ++ inner), rest')
    else parseComparison display expr (.ident w :: rest)
  | toks => parseComparison display expr toks

def parseAnd : Parser F := leftAssoc (parseNot display expr) andOp

def parseOr : Parser F := leftAssoc (parseAnd display expr) orOp

end Levels

section Parser

variable (display : F → Text)

def parseDepth : ℕ → Parser F
  | 0 => fun _ => .error .outOfFuel
  | n + 1 => parseOr display (parseDepth n)

/-- **The parser** of an expression: its text, and the tokens behind it. -/
def parseExpr (toks : List (Token F)) : Except (ParseError F) (Piece F) := parseDepth display (toks.length + 1) toks

/-! ### The recursion is deep enough -/

/-- The result is no cut-off recursion, and fewer than `n` tokens are left. -/
def Within {α : Type} (n : ℕ) : Except (ParseError F) (α × List (Token F)) → Prop
  | .ok (_, rest) => rest.length < n
  | .error .outOfFuel => False
  | .error _ => True

/-- On lists of less than `k` tokens, the parser takes some and is not cut off. -/
def Enough (k : ℕ) (p : Parser F) : Prop := ∀ toks, toks.length < k → Within toks.length (p toks)

variable {n : ℕ}

theorem Within.mono {α : Type} {m : ℕ} {x : Except (ParseError F) (α × List (Token F))}
    (h : Within m x) (hle : m ≤ n) : Within n x := by
  match x with
  | .ok (_, rest) => exact Nat.lt_of_lt_of_le h hle
  | .error .outOfFuel => exact h.elim
  | .error (.endOfQuery) | .error (.expected _ _) | .error (.dottedPath _)
  | .error (.unexpectedToken _) | .error (.unsupportedFunction _ _) | .error (.badDuration _)
  | .error (.unknownUnit _) => trivial

theorem Within.bind {α β : Type} {m : ℕ} {x : Except (ParseError F) (α × List (Token F))}
    {f : α × List (Token F) → Except (ParseError F) (β × List (Token F))} (h : Within m x)
    (hf : ∀ a rest, rest.length < m → Within n (f (a, rest))) : Within n (x >>= f) := by
  match x with
  | .ok (a, rest) => exact hf a rest h
  | .error .outOfFuel => exact h.elim
  | .error (.endOfQuery) | .error (.expected _ _) | .error (.dottedPath _)
  | .error (.unexpectedToken _) | .error (.unsupportedFunction _ _) | .error (.badDuration _)
  | .error (.unknownUnit _) => trivial

variable {toks : List (Token F)}

theorem within_expectRParen (text : Text) (h : toks.length < n) : Within n (expectRParen text toks) := by
  unfold expectRParen
  split
  · rename_i rest
    exact Nat.lt_of_succ_lt h
  · trivial

theorem within_leftLoop {sub : Parser F} {op : Token F → Option Text} {k m : ℕ} {lhs : Text}
    (hsub : Enough k sub) (hk : toks.length < k) (hn : toks.length < n)
    (hm : toks.length < m) : Within m (leftLoop sub op n lhs toks) := by
  induction n generalizing lhs toks with
  | zero => exact absurd hn (Nat.not_lt_zero _)
  | succ n ih =>
    cases toks with
    | nil => exact hm
    | cons t toks =>
      rw [leftLoop]
      simp only [length_cons] at hk hn hm
      split
      · exact hm
      · refine (hsub toks (by omega)).bind fun rhs rest hrest => ?_
        exact ih (by omega) (by omega) (by omega)

theorem enough_leftAssoc {sub : Parser F} {op : Token F → Option Text} {k : ℕ}
    (hsub : Enough k sub) : Enough k (leftAssoc sub op) := by
  intro toks htoks
  refine (hsub toks htoks).bind fun lhs rest hrest => ?_
  exact within_leftLoop hsub (by omega) (by omega) hrest

theorem within_valueLoop {sub : Parser F} {k : ℕ} {values : List Text} (hsub : Enough k sub)
    (hk : toks.length < k) (hn : toks.length < n) : Within toks.length (valueLoop sub n values toks) := by
  induction n generalizing values toks with
  | zero => exact absurd hn (Nat.not_lt_zero _)
  | succ n ih =>
    rw [valueLoop]
    refine (hsub toks hk).bind fun v rest hrest => ?_
    dsimp only
    split
    · rename_i rest'
      simp only [length_cons] at hrest
      exact (ih (by omega) (by omega)).mono (by omega)
    · exact hrest

section Bounds

variable {display : F → Text} {expr : Parser F} {k : ℕ}

theorem within_parseArgs (hexpr : Enough k expr) {toks : List (Token F)} (hk : toks.length < k) :
    Within (toks.length + 1) (parseArgs expr toks) := by
  unfold parseArgs
  split
  · rename_i rest
    simp only [Within, length_cons]
    omega
  · refine (within_valueLoop hexpr hk (Nat.lt_succ_self _)).bind fun args rest hrest => ?_
    refine (within_expectRParen [] hrest).bind fun _ rest' hrest' => ?_
    exact Nat.lt_succ_of_lt hrest'

theorem within_parseFuncCall (hexpr : Enough k expr) (name : Text) {toks : List (Token F)}
    (hk : toks.length < k) : Within (toks.length + 1) (parseFuncCall expr name toks) := by
  refine (within_parseArgs hexpr hk).bind fun args rest hrest => ?_
  dsimp only
  split
  · exact hrest
  · trivial

theorem within_interval (d : Text) {rest : List (Token F)} {n : ℕ} (h : rest.length < n) :
    Within n (durationToSqlInterval d >>= fun text => .ok (text, rest)) := by
  unfold durationToSqlInterval
  dsimp only
  split
  · split
    · exact h
    · exact h
    · exact h
    · exact h
    · trivial
  · trivial

theorem enough_parseAtom (hexpr : Enough k expr) : Enough (k + 1) (parseAtom display expr) := by
  intro toks htoks
  fun_cases parseAtom display expr toks with
  | case1 | case9 | case11 => trivial
  | case2 n rest | case3 f rest | case4 s rest | case7 rest | case10 name rest => exact Nat.lt_succ_self _
  | case5 d rest => exact within_interval d (Nat.lt_succ_self _)
  | case6 rest =>
    simp only [length_cons] at htoks ⊢
    refine (hexpr rest (by omega)).bind fun inner rest' hrest' => ?_
    exact within_expectRParen _ (Nat.lt_succ_of_lt hrest')
  | case8 name rest =>
    simp only [length_cons] at htoks ⊢
    exact (within_parseFuncCall hexpr name (by omega)).mono (by omega)

theorem enough_parseUnary (hexpr : Enough k expr) : Enough (k + 1) (parseUnary display expr) := by
  intro toks htoks
  fun_induction parseUnary display expr toks with
  | case1 rest ih =>
    simp only [length_cons] at htoks ⊢
    refine (ih (by omega)).bind fun inner rest' hrest' => ?_
    simp only [Within]
    omega
  | case2 toks => exact enough_parseAtom hexpr toks htoks

theorem enough_parseAdditive (hexpr : Enough k expr) : Enough (k + 1) (parseAdditive display expr) :=
  enough_leftAssoc (enough_leftAssoc (enough_parseUnary hexpr))

theorem within_parseComparisonTail (hexpr : Enough k expr) (lhs : Text) {n : ℕ}
    {rest : List (Token F)} (hk : rest.length < k + 1) (hn : rest.length < n) :
    Within n (parseComparisonTail display expr lhs rest) := by
  have hadd : Enough (k + 1) (parseAdditive display expr) := enough_parseAdditive hexpr
  have hbetween : ∀ toks : List (Token F), toks.length < rest.length →
      Within n (parseBetween display expr lhs toks) := by
    intro toks htoks
    unfold parseBetween
    split
    · rename_i toks'
      simp only [length_cons] at htoks
      refine (hadd toks' (by omega)).bind fun low rest' hrest' => ?_
      dsimp only
      split
      · rename_i rest''
        simp only [length_cons] at hrest'
        refine (hadd rest'' (by omega)).bind fun high rest₃ hrest₃ => ?_
        exact within_expectRParen _ (hrest₃.trans (by omega))
      · trivial
    · trivial
  have hin : ∀ toks : List (Token F), toks.length < rest.length → Within n (parseIn display expr lhs toks) := by
    intro toks htoks
    unfold parseIn
    split
    · rename_i toks'
      simp only [length_cons] at htoks
      refine (within_valueLoop hadd (by omega) (Nat.lt_succ_self _)).bind fun vs rest' hrest' => ?_
      exact within_expectRParen _ (hrest'.trans (by omega))
    · trivial
  have hwith : ∀ t (toks : List (Token F)), toks.length < rest.length →
      Within n (parseComparisonTail.compareWith display expr lhs rest t toks) := by
    intro t toks htoks
    unfold parseComparisonTail.compareWith
    split
    · exact hn
    · refine (hadd toks (by omega)).bind fun rhs rest' hrest' => ?_
      simp only [Within]
      omega
  cases rest with
  | nil => exact hn
  | cons t toks =>
    unfold parseComparisonTail
    dsimp only
    split
    · split
      · exact hbetween toks (Nat.lt_succ_self _)
      · split
        · exact hin toks (Nat.lt_succ_self _)
        · exact hwith _ toks (Nat.lt_succ_self _)
    · exact hwith _ toks (Nat.lt_succ_self _)

theorem enough_parseComparison (hexpr : Enough k expr) : Enough (k + 1) (parseComparison display expr) := by
  intro toks htoks
  refine (enough_parseAdditive hexpr toks htoks).bind fun lhs rest hrest => ?_
  exact within_parseComparisonTail hexpr lhs (by omega) hrest

theorem enough_parseNot (hexpr : Enough k expr) : Enough (k + 1) (parseNot display expr) := by
  intro toks htoks
  fun_induction parseNot display expr toks with
  | case1 rest ih =>
    simp only [length_cons] at htoks ⊢
    refine (ih (by omega)).bind fun inner rest' hrest' => ?_
    simp only [Within]
    omega
  | case2 w rest => exact enough_parseComparison hexpr _ htoks
  | case3 toks => exact enough_parseComparison hexpr toks htoks

theorem enough_parseOr (hexpr : Enough k expr) : Enough (k + 1) (parseOr display expr) :=
  enough_leftAssoc (enough_leftAssoc (enough_parseNot hexpr))

end Bounds

theorem enough_parseDepth (n : ℕ) : Enough n (parseDepth display n) := by
  induction n with
  | zero => exact fun toks htoks => absurd htoks (Nat.not_lt_zero _)
  | succ n ih => exact enough_parseOr ih

/-- **Deep enough**: the parser ends with a text or an error of the source, and takes a token at
least. -/
theorem parseExpr_enough (toks : List (Token F)) : Within toks.length (parseExpr display toks) :=
  enough_parseDepth display _ toks (Nat.lt_succ_self _)

end Parser

end KqlExpr
