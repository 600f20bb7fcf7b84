/-
**From filters to prune predicates.**

The scan of a table turns the filters that are pushed down to it into a predicate for the catalog
(`build_prune_predicate`) and that into one for the blocks of an extent (`build_block_predicate`).
-/

import Pensieve.FilterExpr

namespace Exec

open List
open Arrow Catalog Like

variable {F : Type} [Field F] [LinearOrder F] [HasSqrt F]

/-- A table as the planner sees it.  The catalogs refuse to add a column under a name that is taken,
and DataFusion refuses a table with two columns of one name. -/
structure TableRef where
  schema : Schema
  distinct : Schema.Distinct schema

/-! ### Time bounds -/

inductive TimeBound where
  | gtOrGe (t : DateTime) (inclusive : Bool)
  | ltOrLe (t : DateTime) (inclusive : Bool)
  | between (low high : DateTime)
  deriving DecidableEq

def flipOp : Operator → Operator
  | .lt => .gt
  | .ltEq => .gtEq
  | .gt => .lt
  | .gtEq => .ltEq
  | other => other

/-- `Utc.timestamp_opt(secs, nanos).single()`: seconds that `chrono` can hold, and a fraction of
less than a second, or of less than two in a second that a leap second may follow. -/
def timestampOpt (secs : Int) (nanos : Int) : Option DateTime :=
  if -8334601228800 ≤ secs ∧ secs ≤ 8210266876799 ∧ (nanos < 1000000000 ∨ nanos < 2000000000 ∧ secs % 60 = 59) then
    some (secs * 1000000000 + nanos)
  else none

def asU32 (n : Int) : Int := n % 2 ^ 32

/-- `/` and `%` of the source round towards zero. -/
def tsFromScalar (eng : Engine F) : ScalarValue F → Option DateTime
  | .timestamp .nanosecond (some n) _ =>
    timestampOpt (n / 1000000000) (asU32 (n % 1000000000))
  | .timestamp .microsecond (some n) _ =>
    timestampOpt (n.tdiv 1000000) (asU32 (n.tmod 1000000 * 1000))
  | .timestamp .millisecond (some n) _ =>
    timestampOpt (n.tdiv 1000) (asU32 (n.tmod 1000 * 1000000))
  | .timestamp .second (some n) _ => timestampOpt n 0
  | .utf8 (some s) => eng.parseFromRfc3339 s
  | .largeUtf8 (some s) => eng.parseFromRfc3339 s
  | _ => none

/-- `ts_from_expr`: a literal, or a literal under a cast, whatever its type. -/
def tsFromExpr (eng : Engine F) : Expr F → Option DateTime
  | .literal v => tsFromScalar eng v
  | .cast (.literal v) _ => tsFromScalar eng v
  | _ => none

def Expr.isColumn (e : Expr F) (name : String) : Bool :=
  match e with
  | .column c => c = name
  | _ => false

def normalizeComparison (left : Expr F) (op : Operator) (right : Expr F) (tsCol : String) :
    Option (Operator × Expr F) :=
  if left.isColumn tsCol then some (op, right)
  else if right.isColumn tsCol then some (flipOp op, left)
  else none

def boundOfOp (op : Operator) (ts : DateTime) : Option TimeBound :=
  match op with
  | .gt => some (.gtOrGe ts false)
  | .gtEq => some (.gtOrGe ts true)
  | .lt => some (.ltOrLe ts false)
  | .ltEq => some (.ltOrLe ts true)
  | _ => none

def extractTimeBound (eng : Engine F) (expr : Expr F) (tsCol : String) : Option TimeBound :=
  match expr with
  | .binary left op right => do
      let (op, lit) ← normalizeComparison left op right tsCol
      let ts ← tsFromExpr eng lit
      boundOfOp op ts
  | .between e false low high =>
    if e.isColumn tsCol then do
      let lo ← tsFromExpr eng low
      let hi ← tsFromExpr eng high
      pure (.between lo hi)
    else none
  | _ => none

/-! ### Equality -/

def scalarToJson : ScalarValue F → Option (Json F)
  | .utf8 (some v) => some (.str v)
  | .largeUtf8 (some v) => some (.str v)
  | .int32 (some v) => some (.int v)
  | .int64 (some v) => some (.int v)
  | _ => none

def columnAndLiteral (indexable : List String) : Expr F → Expr F → Option (String × ScalarValue F)
  | .column c, .literal l => if c ∈ indexable then some (c, l) else none
  | .literal l, .column c => if c ∈ indexable then some (c, l) else none
  | _, _ => none

/-- `walk`: the column and the values of a chain of `OR`, as long as every leaf is an equality on one
column. -/
def walk (indexable : List String) : Expr F → Option String × List (Json F) → Option (Option String × List (Json F))
  | .binary left .or right, state =>
    (walk indexable left state).bind fun state' => walk indexable right state'
  | .binary left .eq right, state => do
      let (n, lit) ← columnAndLiteral indexable left right
      if state.1.any (· ≠ n) then none
      else do
        let j ← scalarToJson lit
        pure (some n, state.2 ++ [j])
  | _, _ => none

/-- A literal of an `IN` list. -/
def literalToJson : Expr F → Option (Json F)
  | .literal l => scalarToJson l
  | _ => none

def extractEquality (expr : Expr F) (indexable : List String) : Option (String × ColumnPrune (Json F) F) :=
  match expr with
  | .binary left .eq right => do
      let (col, lit) ← columnAndLiteral indexable left right
      let j ← scalarToJson lit
      pure (col, .equals j)
  | .binary left .or right => do
      let state ← walk indexable left (none, [])
      let (col, values) ← walk indexable right state
      let n ← col
      pure (n, .inSet values)
  | .inList (.column c) list false =>
    if c ∈ indexable then (list.mapM literalToJson).map fun vals => (c, .inSet vals) else none
  | _ => none

/-! ### Text search -/

/-- `trim_matches` with one character. -/
def trimMatches (c : Char) (s : String) : String :=
  String.ofList (((s.toList.dropWhile (· = c)).reverse.dropWhile (· = c)).reverse)

def tokenizeLikeLoop : List Char → List String → List Char → List String
  | cur, out, [] => if cur.length ≥ 2 then out.insert (String.ofList cur) else out
  | cur, out, c :: cs =>
    if c.isAlphanum then tokenizeLikeLoop (cur ++ [c.toLower]) out cs
    else if cur ≠ [] then
      tokenizeLikeLoop [] (if cur.length ≥ 2 then out.insert (String.ofList cur) else out) cs
    else tokenizeLikeLoop cur out cs

def pensieveFormatTlmTokenizeLike (s : String) (out : List String) : List String := tokenizeLikeLoop [] out s.toList

theorem tokenizeLikeLoop_eq (cur : List Char) (out : List String) (cs : List Char) :
    tokenizeLikeLoop cur out cs = Tlm.tokenizeLoop cur out cs := by
  induction cs generalizing cur out with
  | nil => rfl
  | cons c cs ih =>
    rw [tokenizeLikeLoop, Tlm.tokenizeLoop]
    split
    · exact ih _ _
    · split
      · exact ih _ _
      · exact ih _ _

theorem tokenizeLike_eq (s : String) (out : List String) : pensieveFormatTlmTokenizeLike s out = Tlm.tokenize s out :=
  tokenizeLikeLoop_eq [] out s.toList

def stringLiteral : Expr F → Option String
  | .literal (.utf8 (some s)) => some s
  | .literal (.largeUtf8 (some s)) => some s
  | _ => none

def patternTokens (raw : String) : List String :=
  (pensieveFormatTlmTokenizeLike (trimMatches '%' raw) []).insertionSort (· ≤ ·)

/-- `extract_text_search`: the escape character and the case are not looked at. -/
def extractTextSearch (expr : Expr F) (stringCols : List String) : Option (String × ColumnPrune (Json F) F) :=
  match expr with
  | .like (.column c) pattern false _ _ =>
    if c ∈ stringCols then do
      let raw ← stringLiteral pattern
      if patternTokens raw = [] then none else some (c, .containsTokens (patternTokens raw))
    else none
  | _ => none

/-! ### Vector distance -/

def scalarToF64 : ScalarValue F → Option F
  | .float64 (some v) => some v
  | .float32 (some v) => some v
  | .int64 (some v) => some v
  | .int32 (some v) => some v
  | _ => none

def decodeMakeArray : Expr F → Option (List F)
  | .scalarFunction name args =>
    if name ≠ "make_array" ∨ args = [] then none
    else
      args.mapM fun a =>
        match a with
        | .literal s => scalarToF64 s
        | _ => none
  | _ => none

def distanceAndThreshold (left : Expr F) (op : Operator) (right : Expr F) : Option (Expr F × Expr F) :=
  match op with
  | .lt => some (left, right)
  | .ltEq => some (left, right)
  | .gt => some (right, left)
  | .gtEq => some (right, left)
  | _ => none

def vectorArgument (vectorCols : List String) (x y : Expr F) : Option (String × Expr F) :=
  match x, y with
  | .column c, other =>
    if c ∈ vectorCols then some (c, other)
    else
      match other with
      | .column d => if d ∈ vectorCols then some (d, .column c) else none
      | _ => none
  | other, .column d => if d ∈ vectorCols then some (d, other) else none
  | _, _ => none

def extractVectorDistance (expr : Expr F) (vectorCols : List String) : Option (String × ColumnPrune (Json F) F) :=
  match expr with
  | .binary left op right => do
      let (dist, thresh) ← distanceAndThreshold left op right
      match dist with
      | .scalarFunction "cosine_distance" [x, y] => do
          let (col, arr) ← vectorArgument vectorCols x y
          let query ← decodeMakeArray arr
          match thresh with
          | .literal s => do
              let threshold ← scalarToF64 s
              pure (col, .vectorDistance query threshold)
          | _ => none
      | _ => none
  | _ => none

/-! ### The predicates of a scan -/

def tsColumn (table : TableRef) : Option String :=
  (table.schema.find? fun f => f.dataType.isTimestampNs).map Field.name

def indexableCols (table : TableRef) : List String :=
  (table.schema.filter fun f =>
    f.dataType = .utf8 ∨ f.dataType = .largeUtf8 ∨ f.dataType = .int32 ∨ f.dataType = .int64).map Field.name

def stringCols (table : TableRef) : List String :=
  (table.schema.filter fun f => f.dataType = .utf8 ∨ f.dataType = .largeUtf8).map Field.name

def floatVectorCols (table : TableRef) : List String :=
  (table.schema.filter fun f =>
    match f.dataType with
    | .fixedSizeList .float32 _ => true
    | _ => false).map Field.name

def timeStep (eng : Engine F) (tsCol : String) (acc : Option DateTime × Option DateTime)
    (f : Expr F) : Option DateTime × Option DateTime :=
  let raise (t : DateTime) := some ((acc.1.map (max · t)).getD t)
  let lower (t : DateTime) := some ((acc.2.map (min · t)).getD t)
  match extractTimeBound eng f tsCol with
  | some (.gtOrGe t _) => (raise t, acc.2)
  | some (.ltOrLe t inclusive) => (acc.1, lower (if inclusive then t + 1 else t))
  | some (.between a b) => (raise a, lower (b + 1))
  | none => acc

def farPast : DateTime := 0

def farFuture : DateTime := 32503679999 * 1000000000

def timeRangeOf : Option DateTime × Option DateTime → Option TimeRange
  | (some s, some e) => if s < e then some ⟨s, e⟩ else none
  | (some s, none) => some ⟨s, farFuture⟩
  | (none, some e) => some ⟨farPast, e⟩
  | (none, none) => none

/-- `entry(col).or_insert(prune)`: the first predicate of a column stays. -/
def orInsert (preds : List (String × ColumnPrune (Json F) F))
    (entry : String × ColumnPrune (Json F) F) : List (String × ColumnPrune (Json F) F) :=
  if entry.1 ∈ preds.map Prod.fst then preds else preds ++ [entry]

def columnPredicate (table : TableRef) (f : Expr F) : Option (String × ColumnPrune (Json F) F) :=
  (extractEquality f (indexableCols table)).or ((extractTextSearch f (stringCols table)).or
      (extractVectorDistance f (floatVectorCols table)))

def columnStep (table : TableRef) (preds : List (String × ColumnPrune (Json F) F)) (f : Expr F) :
    List (String × ColumnPrune (Json F) F) :=
  match columnPredicate table f with
  | some entry => orInsert preds entry
  | none => preds

/-- `build_prune_predicate`: without a nanosecond timestamp column, nothing is pruned. -/
def buildPrunePredicate (eng : Engine F) (table : TableRef) (filters : List (Expr F)) : PrunePredicate (Json F) F :=
  match tsColumn table with
  | none => .default (Json F) F
  | some tsCol =>
    { timeRange := timeRangeOf (filters.foldl (timeStep eng tsCol) (none, none))
      requiredPaths := []
      columnPredicates := filters.foldl (columnStep table) [] }

def jsonToBlockScalar : Json F → Option (Tlm.ScalarValue F)
  | .str s => some (.string s)
  | .int n => if InI64 n then some (.int64 n) else none
  | .bool b => some (.bool b)
  | .null => some .null
  | _ => none

def timestampNanosOpt (t : DateTime) : Option Int := if InI64 t then some t else none

def timePart (table : TableRef) (timeRange : Option TimeRange) : List (Tlm.BlockPredicate F) :=
  match timeRange, Tlm.tsPosition table.schema with
  | some tr, some i =>
    [.timeRange i ((timestampNanosOpt tr.startInclusive).getD Tlm.i64Min)
      ((timestampNanosOpt tr.endExclusive).getD Tlm.i64Max)]
  | _, _ => []

def columnPart (table : TableRef) (p : String × ColumnPrune (Json F) F) : Option (Tlm.BlockPredicate F) :=
  match table.schema.findIdx? fun f => f.name = p.1 with
  | none => none
  | some i =>
    match p.2 with
    | .equals v => (jsonToBlockScalar v).map (.equals i)
    | .inSet vals =>
      if vals.filterMap jsonToBlockScalar = [] then none
      else some (.inSet i (vals.filterMap jsonToBlockScalar))
    | _ => none

def buildBlockPredicate (table : TableRef) (prune : PrunePredicate (Json F) F) : Tlm.BlockPredicate F :=
  match timePart table prune.timeRange ++ prune.columnPredicates.filterMap (columnPart table) with
  | [] => .all
  | [p] => p
  | parts => .and parts

variable {entry : String × ColumnPrune (Json F) F}

omit [LinearOrder F] [HasSqrt F] in
theorem mem_columnPredicates {table : TableRef} {filters : List (Expr F)}
    {preds : List (String × ColumnPrune (Json F) F)}
    (h : entry ∈ filters.foldl (columnStep table) preds) :
    entry ∈ preds ∨ ∃ f ∈ filters, columnPredicate table f = some entry := by
  induction filters generalizing preds with
  | nil => exact .inl h
  | cons f filters ih =>
    rcases ih h with hmem | ⟨g, hg, hentry⟩
    · unfold columnStep at hmem
      split at hmem
      · rename_i new hnew
        unfold orInsert at hmem
        split at hmem
        · exact .inl hmem
        · rcases mem_append.mp hmem with hmem | hmem
          · exact .inl hmem
          · refine .inr ⟨f, mem_cons_self, ?_⟩
            rw [mem_singleton.mp hmem]
            exact hnew
      · exact .inl hmem
    · exact .inr ⟨g, mem_cons_of_mem _ hg, hentry⟩

omit [LinearOrder F] [HasSqrt F] in
theorem exists_filter_of_mem {eng : Engine F} {table : TableRef} {filters : List (Expr F)}
    (h : entry ∈ (buildPrunePredicate eng table filters).columnPredicates) :
    ∃ f ∈ filters, columnPredicate table f = some entry := by
  unfold buildPrunePredicate at h
  split at h
  · cases h
  · rcases mem_columnPredicates h with h | h
    · cases h
    · exact h

omit [Field F] [LinearOrder F] [HasSqrt F] in
theorem extractTextSearch_prune {f : Expr F} {cols : List String}
    (h : extractTextSearch f cols = some entry) : ∃ tokens, entry.2 = .containsTokens tokens := by
  unfold extractTextSearch at h
  split at h
  · split at h
    · obtain ⟨raw, -, h⟩ := Option.bind_eq_some_iff.mp h
      split at h
      · cases h
      · cases h
        exact ⟨_, rfl⟩
    · cases h
  · cases h

omit [LinearOrder F] [HasSqrt F] in
theorem extractVectorDistance_prune {f : Expr F} {cols : List String}
    (h : extractVectorDistance f cols = some entry) : ∃ query threshold, entry.2 = .vectorDistance query threshold := by
  unfold extractVectorDistance at h
  split at h
  · obtain ⟨⟨dist, thresh⟩, -, h⟩ := Option.bind_eq_some_iff.mp h
    dsimp only at h
    split at h
    · obtain ⟨⟨col, arr⟩, -, h⟩ := Option.bind_eq_some_iff.mp h
      obtain ⟨query, -, h⟩ := Option.bind_eq_some_iff.mp h
      dsimp only at h
      split at h
      · obtain ⟨threshold, -, h⟩ := Option.bind_eq_some_iff.mp h
        cases h
        exact ⟨query, threshold, rfl⟩
      · cases h
    · cases h
  · cases h

omit [LinearOrder F] [HasSqrt F] in
theorem columnPredicate_eq_some {table : TableRef} {f : Expr F}
    (h : columnPredicate table f = some entry) : extractEquality f (indexableCols table) = some entry ∨
      (∃ tokens, entry.2 = .containsTokens tokens) ∨ ∃ query threshold, entry.2 = .vectorDistance query threshold := by
  rcases Option.or_eq_some_iff.mp h with h | ⟨-, h⟩
  · exact .inl h
  · rcases Option.or_eq_some_iff.mp h with h | ⟨-, h⟩
    · exact .inr (.inl (extractTextSearch_prune h))
    · exact .inr (.inr (extractVectorDistance_prune h))

/-! ### The extents of a table -/

/-- The batches and the statistics of an extent of a table.  Columns are only ever added at the end
of a table's schema, so that the schema an extent was written with begins the table's. -/
structure IsExtentOf (table : TableRef) (schema : Schema) (batches : List (RecordBatch F))
    (result : Tlm.ExtentWriteResult F) : Prop where
  evolved : schema <+: table.schema
  written : Tlm.writeExtent schema batches = some result

namespace IsExtentOf

variable {table : TableRef} {schema : Schema} {batches : List (RecordBatch F)}
  {result : Tlm.ExtentWriteResult F}

theorem distinct (h : IsExtentOf table schema batches result) : Schema.Distinct schema :=
  List.Nodup.sublist (h.evolved.sublist.map _) table.distinct

theorem getElem? (h : IsExtentOf table schema batches result) {i : ℕ} {f : Field}
    (hf : schema[i]? = some f) : table.schema[i]? = some f := by
  obtain ⟨rest, hrest⟩ := h.evolved
  rw [← hrest, getElem?_append_left (List.getElem?_eq_some_iff.mp hf).1, hf]

theorem columnDatum_ne_null (h : IsExtentOf table schema batches result) {b : RecordBatch F}
    (hb : b ∈ batches) {row : ℕ} {name : String} (hne : columnDatum b row name ≠ .null) :
    ∃ i f v, schema[i]? = some f ∧ f.name = name ∧ v ∈ Tlm.colCells batches i ∧
      f.dataType.admits v = true ∧ columnDatum b row name = cellDatum f.dataType v := by
  obtain ⟨i, f, v, hf, hname, hv, hadmits, hdatum⟩ := Exec.columnDatum_ne_null hne
  rw [(Tlm.writeExtent_blocks h.written).1 b hb] at hf
  exact ⟨i, f, v, hf, hname, mem_flatMap.mpr ⟨b, hb, hv⟩, hadmits, hdatum⟩

end IsExtentOf

theorem TableRef.mem_names {table : TableRef} {p : Field → Bool} {f : Field}
    (hf : f ∈ table.schema) : f.name ∈ (table.schema.filter p).map Field.name ↔ p f = true := by
  constructor
  · intro h
    obtain ⟨g, hg, hname⟩ := mem_map.mp h
    obtain ⟨hmem, hp⟩ := mem_filter.mp hg
    rw [← table.distinct.field_eq hmem hf hname]
    exact hp
  · intro h
    exact mem_map_of_mem (mem_filter.mpr ⟨hf, h⟩)

end Exec
