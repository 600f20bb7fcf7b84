/-
**How SQL reads an expression.**

The text is split into tokens and read by precedence:  `OR` binds least, then `AND`, `NOT`, `LIKE`,
comparisons and `IN`, then sums and products.
-/

import Pensieve.SqlValue
import Pensieve.KqlExpr

namespace SqlReader

open List
open SqlValue SqlText

variable {F : Type}

/-! ### Expressions -/

inductive SqlExpr (F : Type) : Kind → Type where
  | int (n : ℕ) : SqlExpr F .scalar
  | real (f : F) : SqlExpr F .scalar
  | str (s : List Char) : SqlExpr F .scalar
  | bool (b : Bool) : SqlExpr F .scalar
  | null : SqlExpr F .scalar
  | col (name : List Char) : SqlExpr F .scalar
  | neg (e : SqlExpr F .scalar) : SqlExpr F .scalar
  | not (e : SqlExpr F .scalar) : SqlExpr F .scalar
  | bin (op : BinOp) (a b : SqlExpr F .scalar) : SqlExpr F .scalar
  | like (a pattern : SqlExpr F .scalar) : SqlExpr F .scalar
  | inList (a : SqlExpr F .scalar) (values : SqlExpr F .list) : SqlExpr F .scalar
  | one (e : SqlExpr F .scalar) : SqlExpr F .list
  | more (es : SqlExpr F .list) (e : SqlExpr F .scalar) : SqlExpr F .list

namespace SqlExpr

def eval (E : Engine F) (row : List Char → Val F) : {k : Kind} → SqlExpr F k → Meaning F k
  | _, int n => Val.int n
  | _, real f => Val.real f
  | _, str s => Val.str s
  | _, bool b => Val.bool b
  | _, null => Val.null
  | _, col name => row name
  | _, neg e => negate E (e.eval E row)
  | _, not e => negation (e.eval E row)
  | _, bin op a b => op.apply E (a.eval E row) (b.eval E row)
  | _, like a pattern => SqlValue.like (a.eval E row) (pattern.eval E row)
  | _, inList a vs => member E (a.eval E row) (vs.eval E row)
  | _, one e => [e.eval E row]
  | _, more es e => List.append (es.eval E row) [e.eval E row]

def columns : {k : Kind} → SqlExpr F k → List (List Char)
  | _, col name => [name]
  | _, neg e | _, not e | _, one e => e.columns
  | _, bin _ a b | _, like a b => a.columns ++ b.columns
  | _, inList a vs => a.columns ++ vs.columns
  | _, more es e => es.columns ++ e.columns
  | _, _ => []

def reals : {k : Kind} → SqlExpr F k → List F
  | _, real f => [f]
  | _, neg e | _, not e | _, one e => e.reals
  | _, bin _ a b | _, like a b => a.reals ++ b.reals
  | _, inList a vs => a.reals ++ vs.reals
  | _, more es e => es.reals ++ e.reals
  | _, _ => []

end SqlExpr

/-! ### Precedence -/

def prec : BinOp → ℕ
  | .or => 5
  | .and => 10
  | .eq | .ne | .lt | .le | .gt | .ge => 20
  | .add | .sub => 30
  | .mul | .div | .mod => 40

def notPrec : ℕ := 15

def likePrec : ℕ := 19

def inPrec : ℕ := 20

def negPrec : ℕ := 40

/-! ### Words -/

def fold (w : List Char) : List Char := w.map Char.toLower

inductive Joint where
  | bin (op : BinOp)
  | like
  | inList

def joint : Token → Option Joint
  | .word w =>
    if fold w = ['o', 'r'] then some (.bin .or)
    else if fold w = ['a', 'n', 'd'] then some (.bin .and)
    else if fold w = ['l', 'i', 'k', 'e'] then some .like
    else if fold w = ['i', 'n'] then some .inList
    else none
  | .eq => some (.bin .eq)
  | .ne => some (.bin .ne)
  | .lt => some (.bin .lt)
  | .le => some (.bin .le)
  | .gt => some (.bin .gt)
  | .ge => some (.bin .ge)
  | .plus => some (.bin .add)
  | .minus => some (.bin .sub)
  | .star => some (.bin .mul)
  | .slash => some (.bin .div)
  | .percent => some (.bin .mod)
  | _ => none

def numeral (parse : List Char → Option F) (lit : List Char) : Option (SqlExpr F .scalar) :=
  if lit.all Char.isDigit then some (.int (Nat.ofDigitChars 10 lit 0)) else (parse lit).map .real

def wordExpr (w : List Char) : Option (SqlExpr F .scalar) :=
  if fold w = "true".toList then some (.bool true)
  else if fold w = "false".toList then some (.bool false)
  else if fold w = "null".toList then some .null
  else if KqlExpr.sqlReserved.contains (fold w) then none
  else some (.col (fold w))

/-! ### Reading -/

abbrev Reading (F : Type) (k : Kind) := List Token → Option (SqlExpr F k × List Token)

abbrev Reader (F : Type) := Reading F .scalar

section Readers

variable (parse : List Char → Option F) (sub : ℕ → Reader F)

/-- What starts an expression; `sub` reads up to operators that bind less than a precedence. -/
def readHead : Reader F
  | .number lit :: rest => (numeral parse lit).map fun e => (e, rest)
  | .str s :: rest => some (.str s, rest)
  | .quoted name :: rest => some (.col name, rest)
  | .lparen :: rest => do
      let (e, rest') ← sub 0 rest
      match rest' with
      | .rparen :: rest'' => some (e, rest'')
      | _ => none
  | .minus :: rest => do
      let (e, rest') ← sub negPrec rest
      some (.neg e, rest')
  | .word w :: rest =>
    if fold w = "not".toList then do
      let (e, rest') ← sub notPrec rest
      some (.not e, rest')
    else (wordExpr w).map fun e => (e, rest)
  | _ => none

def openList : List Token → Option (List Token)
  | .lparen :: rest => some rest
  | _ => none

/-- The values of a list up to its closing parenthesis, behind those that `es` has. -/
def readValues : ℕ → Option (SqlExpr F .list) → Reading F .list
  | 0, _, _ => none
  | n + 1, es, toks => do
      let (e, rest) ← sub 0 toks
      let es' : SqlExpr F .list := match es with
        | none => .one e
        | some es => .more es e
      match rest with
      | .comma :: rest' => readValues n (some es') rest'
      | .rparen :: rest' => some (es', rest')
      | _ => none

/-- What goes on with an expression, as far as it binds more than `p`. -/
def readTail (p : ℕ) : ℕ → SqlExpr F .scalar → Reader F
  | 0, _, _ => none
  | _ + 1, lhs, [] => some (lhs, [])
  | n + 1, lhs, t :: rest =>
    match joint t with
    | none => some (lhs, t :: rest)
    | some (.bin op) =>
      if p < prec op then do
        let (rhs, rest') ← sub (prec op) rest
        readTail p n (.bin op lhs rhs) rest'
      else some (lhs, t :: rest)
    | some .like =>
      if p < likePrec then do
        let (rhs, rest') ← sub likePrec rest
        readTail p n (.like lhs rhs) rest'
      else some (lhs, t :: rest)
    | some .inList =>
      if p < inPrec then do
        let rest' ← openList rest
        let (es, rest'') ← readValues sub rest'.length none rest'
        readTail p n (.inList lhs es) rest''
      else some (lhs, t :: rest)

def readFrom (p : ℕ) : Reader F := fun toks => do
  let (lhs, rest) ← readHead parse sub toks
  readTail sub p (rest.length + 1) lhs rest

end Readers

def readDepth (parse : List Char → Option F) : ℕ → ℕ → Reader F
  | 0 => fun _ _ => none
  | n + 1 => readFrom parse (readDepth parse n)

/-- **The expression of a text.** -/
def read (parse : List Char → Option F) (text : List Char) : Option (SqlExpr F .scalar) :=
  match lexer.tokenize text with
  | .ok toks =>
    match readDepth parse (toks.length + 1) 0 toks with
    | some (e, []) => some e
    | _ => none
  | .error _ => none

section Operands

variable {parse : List Char → Option F}

/-- **An operand**: a reader of depth `d` at least reads the tokens first, whatever follows. -/
def Reads (parse : List Char → Option F) (d : ℕ) (toks : List Token) (e : SqlExpr F .scalar) : Prop :=
  ∀ n rest, d ≤ n → readHead parse (readDepth parse n) (toks ++ rest) = some (e, rest)

def Stops (rest : List Token) : Prop := ∀ t ∈ rest.head?, joint t = none

/-- **A whole expression**: a reader of depth `d` at least reads the tokens and no more, up to
operators that bind less than `p`. -/
def Whole (parse : List Char → Option F) (d p : ℕ) (toks : List Token) (e : SqlExpr F .scalar) : Prop :=
  ∀ n rest, d ≤ n → Stops rest → readDepth parse n p (toks ++ rest) = some (e, rest)

theorem stops_nil : Stops [] := fun t ht => by cases ht

variable {rest : List Token}

theorem stops_rparen : Stops (.rparen :: rest) := by
  intro t ht
  cases ht
  rfl

theorem stops_comma : Stops (.comma :: rest) := by
  intro t ht
  cases ht
  rfl

variable {e : SqlExpr F .scalar}

theorem readTail_of_stops {sub : ℕ → Reader F} {p n : ℕ}
    (h : Stops rest) : readTail sub p (n + 1) e rest = some (e, rest) := by
  cases rest with
  | nil => rfl
  | cons t rest =>
    have ht := h t rfl
    rw [readTail, ht]

variable {d : ℕ}

theorem Reads.mono {d' : ℕ} {toks : List Token} (h : Reads parse d toks e)
    (hle : d ≤ d') : Reads parse d' toks e :=
  fun n rest hn => h n rest (hle.trans hn)

theorem Reads.ne_nil {toks : List Token} (h : Reads parse d toks e) : toks ≠ [] := by
  rintro rfl
  cases h d [] le_rfl

theorem Reads.whole {toks : List Token} (h : Reads parse d toks e) (p : ℕ) : Whole parse (d + 1) p toks e := by
  intro n rest hn hrest
  obtain ⟨m, rfl⟩ : ∃ m, n = m + 1 := ⟨n - 1, by omega⟩
  rw [readDepth, readFrom, h m rest (by omega)]
  exact readTail_of_stops hrest

variable {toks toks' : List Token}

variable {a : SqlExpr F .scalar}

theorem Reads.bin {t : Token} {op : BinOp} {b : SqlExpr F .scalar} (ha : Reads parse d toks a)
    (ht : joint t = some (.bin op)) (hb : Reads parse d toks' b) :
    Whole parse (d + 2) 0 (toks ++ t :: toks') (.bin op a b) := by
  intro n rest hn hrest
  obtain ⟨m, rfl⟩ : ∃ m, n = m + 1 := ⟨n - 1, by omega⟩
  have hpos : 0 < prec op := by cases op <;> decide
  have hrhs := hb.whole (prec op) m rest (by omega) hrest
  rw [append_assoc, cons_append, readDepth, readFrom, ha m _ (by omega)]
  simp only [Option.bind_eq_bind, Option.bind_some, length_cons]
  rw [readTail, ht]
  simp only [hpos, if_true, hrhs, Option.bind_eq_bind, Option.bind_some]
  exact readTail_of_stops hrest

theorem Reads.like {toks toks' : List Token} {t : Token} {b : SqlExpr F .scalar}
    (ha : Reads parse d toks a) (ht : joint t = some .like) (hb : Reads parse d toks' b) :
    Whole parse (d + 2) 0 (toks ++ t :: toks') (.like a b) := by
  intro n rest hn hrest
  obtain ⟨m, rfl⟩ : ∃ m, n = m + 1 := ⟨n - 1, by omega⟩
  have hrhs := hb.whole likePrec m rest (by omega) hrest
  rw [append_assoc, cons_append, readDepth, readFrom, ha m _ (by omega)]
  simp only [Option.bind_eq_bind, Option.bind_some, length_cons]
  rw [readTail, ht]
  simp only [show 0 < likePrec by decide, if_true, hrhs, Option.bind_eq_bind, Option.bind_some]
  exact readTail_of_stops hrest

theorem Reads.neg {toks : List Token} (h : Reads parse d toks e) :
    Whole parse (d + 2) 0 (.minus :: toks) (.neg e) := by
  intro n rest hn hrest
  obtain ⟨m, rfl⟩ : ∃ m, n = m + 1 := ⟨n - 1, by omega⟩
  have hinner := h.whole negPrec m rest (by omega) hrest
  rw [cons_append, readDepth, readFrom, readHead, hinner]
  exact readTail_of_stops hrest

theorem Reads.not {toks : List Token} {w : List Char} (hw : fold w = "not".toList)
    (h : Reads parse d toks e) : Whole parse (d + 2) 0 (.word w :: toks) (.not e) := by
  intro n rest hn hrest
  obtain ⟨m, rfl⟩ : ∃ m, n = m + 1 := ⟨n - 1, by omega⟩
  have hinner := h.whole notPrec m rest (by omega) hrest
  rw [cons_append, readDepth, readFrom, readHead, if_pos hw, hinner]
  exact readTail_of_stops hrest

theorem Whole.paren {toks : List Token} (h : Whole parse d 0 toks e) :
    Reads parse d (.lparen :: (toks ++ [.rparen])) e := by
  intro n rest hn
  have hinner := h n (.rparen :: rest) hn stops_rparen
  rw [cons_append, append_assoc, singleton_append, readHead, hinner]
  rfl

/-! ### Lists -/

/-- The tokens are the values of a list, up to a comma or the end of the list. -/
structure ReadsValues (parse : List Char → Option F) (d c : ℕ) (toks : List Token)
    (es : SqlExpr F .list) : Prop where
  count : c ≤ toks.length
  comma : ∀ n m rest, d ≤ n → readValues (readDepth parse n) (m + c) none
    (toks ++ .comma :: rest) = readValues (readDepth parse n) m (some es) rest
  rparen : ∀ n m rest, d ≤ n → readValues (readDepth parse n) (m + c) none (toks ++ .rparen :: rest) = some (es, rest)

variable {es : SqlExpr F .list}

theorem ReadsValues.mono {d' c : ℕ} {toks : List Token} (h : ReadsValues parse d c toks es)
    (hle : d ≤ d') : ReadsValues parse d' c toks es where
  count := h.count
  comma := fun n m rest hn => h.comma n m rest (hle.trans hn)
  rparen := fun n m rest hn => h.rparen n m rest (hle.trans hn)

theorem Reads.one {toks : List Token} (h : Reads parse d toks e) : ReadsValues parse (d + 1) 1 toks (.one e) where
  count := length_pos_iff.mpr h.ne_nil
  comma := fun n m rest hn => by
    rw [readValues, h.whole 0 n _ hn stops_comma]
    rfl
  rparen := fun n m rest hn => by
    rw [readValues, h.whole 0 n _ hn stops_rparen]
    rfl

theorem ReadsValues.more {c : ℕ} (hes : ReadsValues parse (d + 1) c toks es)
    (he : Reads parse d toks' e) :
    ReadsValues parse (d + 1) (c + 1) (toks ++ .comma :: toks') (.more es e) where
  count := by
    have := hes.count
    simp only [length_append, length_cons]
    omega
  comma := fun n m rest hn => by
    rw [append_assoc, cons_append, show m + (c + 1) = (m + 1) + c by omega,
      hes.comma n _ _ hn, readValues, he.whole 0 n _ hn stops_comma]
    rfl
  rparen := fun n m rest hn => by
    rw [append_assoc, cons_append, show m + (c + 1) = (m + 1) + c by omega,
      hes.comma n _ _ hn, readValues, he.whole 0 n _ hn stops_rparen]
    rfl

theorem Reads.inList {c : ℕ} {t : Token} (ha : Reads parse d toks a) (ht : joint t = some .inList)
    (hes : ReadsValues parse (d + 1) c toks' es) :
    Whole parse (d + 2) 0 (toks ++ t :: .lparen :: (toks' ++ [.rparen])) (.inList a es) := by
  intro n rest hn hrest
  obtain ⟨m, rfl⟩ : ∃ m, n = m + 1 := ⟨n - 1, by omega⟩
  obtain ⟨k, hk⟩ : ∃ k, (toks' ++ .rparen :: rest).length = k + c :=
    ⟨(toks' ++ .rparen :: rest).length - c, by
      have := hes.count
      simp only [length_append]
      omega⟩
  have hlist := hes.rparen m k rest (by omega)
  have hassoc : toks ++ t :: .lparen :: (toks' ++ [.rparen]) ++ rest =
      toks ++ t :: .lparen :: (toks' ++ .rparen :: rest) := by simp
  rw [hassoc, readDepth, readFrom, ha m _ (by omega)]
  simp only [Option.bind_eq_bind, Option.bind_some, length_cons]
  rw [readTail, ht]
  simp only [show 0 < inPrec by decide, if_true, openList, hk, hlist, Option.bind_eq_bind, Option.bind_some]
  exact readTail_of_stops hrest

end Operands

end SqlReader
