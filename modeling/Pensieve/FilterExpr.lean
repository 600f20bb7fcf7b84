/-
**Filter expressions.**

The filters that DataFusion pushes down to a table scan, and their truth on a row, in SQL's
three-valued logic.  What the query engine does beyond that is a parameter (`Exec.Engine`): how it
reads a string as an instant, which characters `ILIKE` takes for the same, what other casts and
expressions evaluate to.
-/

import Pensieve.ColumnStats
import Pensieve.LikePattern

namespace Exec

open Arrow Catalog Like

/-! ### Expressions -/

inductive ScalarValue (F : Type) where
  | utf8 (v : Option String)
  | largeUtf8 (v : Option String)
  | int32 (v : Option Int)
  | int64 (v : Option Int)
  | float32 (v : Option F)
  | float64 (v : Option F)
  | timestamp (unit : TimeUnit) (v : Option Int) (tz : Option String)
  | other (repr : String)
  deriving DecidableEq

inductive Operator where
  | eq
  | notEq
  | lt
  | ltEq
  | gt
  | gtEq
  | and
  | or
  | other (name : String)
  deriving DecidableEq

inductive Expr (F : Type) where
  | column (name : String)
  | literal (v : ScalarValue F)
  | cast (e : Expr F) (dataType : DataType)
  | binary (left : Expr F) (op : Operator) (right : Expr F)
  | between (e : Expr F) (negated : Bool) (low high : Expr F)
  | like (e pattern : Expr F) (negated : Bool) (escapeChar : Option Char) (caseInsensitive : Bool)
  | inList (e : Expr F) (list : List (Expr F)) (negated : Bool)
  | scalarFunction (name : String) (args : List (Expr F))
  | other (repr : String)

/-! ### Values -/

/-- The value of an operand.  Instants are nanoseconds since the Unix epoch. -/
inductive Datum (F : Type) where
  | null
  | bool (b : Bool)
  | int (n : Int)
  | float (x : F)
  | str (s : String)
  | castStr (s : String)
  | instant (n : Int)
  | vec (xs : List F)
  | other (repr : String)
  deriving DecidableEq

structure Engine (F : Type) where
  parseTimestamp : String → Option Int
  /-- `DateTime::parse_from_rfc3339` -/
  parseFromRfc3339 : String → Option DateTime
  parse_agree : ∀ s t u, parseFromRfc3339 s = some t → parseTimestamp s = some u → t = u
  /-- whether `ILIKE` takes the second character for the first -/
  sameLetter : Char → Char → Bool
  sameLetter_refl : ∀ c, sameLetter c c = true
  cast : ScalarValue F → DataType → Value F
  value : Expr F → RecordBatch F → ℕ → Datum F
  truth : Expr F → RecordBatch F → ℕ → Option Bool

variable {F : Type} [Field F] [LinearOrder F] [HasSqrt F]

def cellDatum : DataType → Value F → Datum F
  | .timestamp u _, .ts n => .instant (n * u.nanos)
  | _, .int n => .int n
  | _, .str s => .str s
  | _, .float x => .float x
  | _, .bool b => .bool b
  | _, .vec xs => .vec xs
  | _, .other repr => .other repr
  | _, _ => .null

def columnDatum (b : RecordBatch F) (row : ℕ) (name : String) : Datum F :=
  match b.schema.find? fun f => f.name = name with
  | some f => cellDatum f.dataType (b.cell name row)
  | none => .null

def scalarDatum : ScalarValue F → Datum F
  | .utf8 (some s) => .str s
  | .largeUtf8 (some s) => .str s
  | .int32 (some n) => .int n
  | .int64 (some n) => .int n
  | .float32 (some x) => .float x
  | .float64 (some x) => .float x
  | .timestamp u (some n) _ => .instant (n * u.nanos)
  | .other repr => .other repr
  | _ => .null

/-- A literal under a cast.  Only a cast to the type of the time column, a nanosecond timestamp
without time zone, compares with that column as it stands. -/
def castDatum (eng : Engine F) (v : ScalarValue F) : DataType → Datum F
  | .timestamp .nanosecond none =>
    match scalarDatum v with
    | .instant n => if InI64 n then .instant n else .null
    | .str s => (eng.parseTimestamp s).elim .null .instant
    | _ => .other "timestamp"
  | .timestamp _ _ => .other "timestamp"
  | dt =>
    match cellDatum dt (eng.cast v dt) with
    | .str s => .castStr s
    | d => d

/-- A number as a number of the type that stands for `f64`. -/
def Datum.number : Datum F → Option F
  | .int n => some n
  | .float x => some x
  | _ => none

/-! ### Distances -/

def cosine (a b : List F) : Option F :=
  if a.length ≠ b.length ∨ a = [] then none
  else
    let dot := (List.zipWith (· * ·) a b).sum
    let na := (a.map fun x => x * x).sum
    let nb := (b.map fun x => x * x).sum
    if na = 0 ∨ nb = 0 then none
    else some (1 - dot / (HasSqrt.sqrt na * HasSqrt.sqrt nb))

/-- The vector that an argument of `cosine_distance` stands for: a column, or an array of numbers. -/
def vecOperand (eng : Engine F) (b : RecordBatch F) (row : ℕ) : Expr F → Option (List F)
  | .column name =>
    match columnDatum b row name with
    | .vec xs => some xs
    | _ => none
  | .scalarFunction name args =>
    if name = "make_array" then
      args.mapM fun a =>
        match a with
        | .literal v => (scalarDatum v).number
        | _ => none
    else none
  | e =>
    match eng.value e b row with
    | .vec xs => some xs
    | _ => none

def operand (eng : Engine F) (b : RecordBatch F) (row : ℕ) : Expr F → Datum F
  | .column name => columnDatum b row name
  | .literal v => scalarDatum v
  | .cast (.literal v) dt => castDatum eng v dt
  | .scalarFunction "cosine_distance" [x, y] =>
    match vecOperand eng b row x, vecOperand eng b row y with
    | some u, some v => (cosine u v).elim .null .float
    | _, _ => .null
  | e => eng.value e b row

/-! ### Comparisons -/

def Operator.test {α : Type} [LinearOrder α] (op : Operator) (a b : α) : Option Bool :=
  match op with
  | .eq => some (a = b)
  | .notEq => some (a ≠ b)
  | .lt => some (a < b)
  | .ltEq => some (a ≤ b)
  | .gt => some (a > b)
  | .gtEq => some (a ≥ b)
  | _ => none

/-- The comparison of two values: unknown if one is null or they do not compare.  A string beside an
instant is read as an instant. -/
def compareDatum (eng : Engine F) (op : Operator) : Datum F → Datum F → Option Bool
  | .int a, .int b => op.test a b
  | .str a, .str b => op.test a b
  | .str a, .castStr b => op.test a b
  | .castStr a, .str b => op.test a b
  | .castStr a, .castStr b => op.test a b
  | .bool a, .bool b => op.test a b
  | .float a, .float b => op.test a b
  | .float a, .int b => op.test a (b : F)
  | .int a, .float b => op.test (a : F) b
  | .instant a, .instant b => op.test a b
  | .instant a, .str s => (eng.parseTimestamp s).bind fun b => op.test a b
  | .str s, .instant b => (eng.parseTimestamp s).bind fun a => op.test a b
  | _, _ => none

/-! ### `LIKE` -/

def patternElem (same : Char → Char → Bool) (c : Char) : Elem Char :=
  if c = '%' then .many else if c = '_' then .one fun _ => true else .one (same c)

/-- A `LIKE` pattern: an escaped character stands for itself, and so does an escape character at the
end. -/
def parsePattern (same : Char → Char → Bool) (escape : Char) : List Char → List (Elem Char)
  | [] => []
  | [c] => if c = escape then [.one (same c)] else [patternElem same c]
  | c :: d :: rest =>
    if c = escape then .one (same d) :: parsePattern same escape rest
    else patternElem same c :: parsePattern same escape (d :: rest)

def likeSame (eng : Engine F) (caseInsensitive : Bool) (c d : Char) : Bool :=
  if caseInsensitive then eng.sameLetter c d else c = d

/-- The elements of a pattern; without an `ESCAPE` clause the escape character is the backslash. -/
def likePattern (eng : Engine F) (escapeChar : Option Char) (caseInsensitive : Bool)
    (pattern : String) : List (Elem Char) :=
  parsePattern (likeSame eng caseInsensitive) (escapeChar.getD (Char.ofNat 92)) pattern.toList

/-! ### The truth of a filter -/

def negateIf (negated : Bool) (t : Option Bool) : Option Bool := t.map fun x => xor negated x

def holds (eng : Engine F) (b : RecordBatch F) (row : ℕ) : Expr F → Option Bool
  | .binary l .and r => Tlm.and3 (holds eng b row l) (holds eng b row r)
  | .binary l .or r => Tlm.or3 (holds eng b row l) (holds eng b row r)
  | .binary l op r => compareDatum eng op (operand eng b row l) (operand eng b row r)
  | .between e negated low high =>
    negateIf negated (Tlm.and3 (compareDatum eng .gtEq (operand eng b row e) (operand eng b row low))
      (compareDatum eng .ltEq (operand eng b row e) (operand eng b row high)))
  | .inList e list negated =>
    negateIf negated ((list.map fun x =>
      compareDatum eng .eq (operand eng b row e) (operand eng b row x)).foldr Tlm.or3 (some false))
  | .like e pattern negated escapeChar caseInsensitive =>
    match operand eng b row e, operand eng b row pattern with
    | .str s, .str p =>
      negateIf negated (some (likeMatches (likePattern eng escapeChar caseInsensitive p) s.toList))
    | _, _ => none
  | e => eng.truth e b row

theorem holds_binary {eng : Engine F} {b : RecordBatch F} {row : ℕ} {left right : Expr F}
    {op : Operator} (hand : op ≠ .and) (hor : op ≠ .or) :
    holds eng b row (.binary left op right) =
      compareDatum eng op (operand eng b row left) (operand eng b row right) := by
  cases op with
  | and => exact absurd rfl hand
  | or => exact absurd rfl hor
  | _ => rfl

omit [HasSqrt F] in
theorem ne_null_of_compareDatum {eng : Engine F} {op : Operator} {x y : Datum F} {t : Bool}
    (h : compareDatum eng op x y = some t) : x ≠ .null ∧ y ≠ .null := by
  constructor
  · intro hx
    rw [hx] at h
    cases y <;> cases h
  · intro hy
    rw [hy] at h
    cases x <;> cases h

omit [Field F] [LinearOrder F] [HasSqrt F] in
theorem columnDatum_ne_null {b : RecordBatch F} {row : ℕ} {name : String}
    (h : columnDatum b row name ≠ .null) : ∃ i f v, b.schema[i]? = some f ∧ f.name = name ∧ v ∈ b.column i ∧
      f.dataType.admits v = true ∧ columnDatum b row name = cellDatum f.dataType v := by
  unfold columnDatum at h ⊢
  split at h
  · rename_i f hfind
    have hcell : b.cell name row ≠ .null := by
      intro hnull
      rw [hnull] at h
      exact h (by cases f.dataType <;> rfl)
    obtain ⟨i, g, hg, hname, hidx, hmem, hadmits⟩ := b.cell_ne_null hcell
    obtain rfl : f = g := by
      rw [List.find?_eq_bind_findIdx?_getElem?] at hfind
      rw [show b.schema.findIdx? (fun f => decide (f.name = name)) = some i from hidx, Option.bind_some, hg] at hfind
      exact (Option.some.inj hfind).symm
    exact ⟨i, f, b.cell name row, hg, hname, hmem, hadmits, rfl⟩
  · exact absurd rfl h

end Exec
