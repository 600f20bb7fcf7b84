/-
**Column statistics of an extent.**

While an extent is written, `ColumnStatsAccumulator` folds every batch into one record per indexable
column: the distinct values of string and integer columns, the word tokens of string columns, the
normalised rows of embedding columns, and the range of the first nanosecond timestamp column.
-/

import Pensieve.BlockStats
import Pensieve.ListExtents

namespace Tlm

open Arrow Catalog

/-! ### Tokens -/

def insertToken (cur : List Char) (out : List String) : List String :=
  if cur.length ≥ 2 then out.insert (String.ofList cur) else out

/-- The loop of `tokenize`: the word being read and the tokens so far. -/
def tokenizeLoop : List Char → List String → List Char → List String
  | cur, out, [] => insertToken cur out
  | cur, out, c :: cs =>
    if c.isAlphanum then tokenizeLoop (cur ++ [c.toLower]) out cs
    else if cur ≠ [] then tokenizeLoop [] (insertToken cur out) cs
    else tokenizeLoop cur out cs

/-- `tokenize`: the lowercase words of a string, split on everything but ASCII letters and digits,
are added to a set. -/
def tokenize (s : String) (out : List String) : List String := tokenizeLoop [] out s.toList

/-! ### The record of a column -/

def distinctSetCap : ℕ := 1000
def tokenSetCap : ℕ := 10000
def vecRowCap : ℕ := 50000

inductive IndexableKind where
  | string
  | int32
  | int64
  | vector (dim : ℕ)
  deriving DecidableEq

def indexableKind : DataType → Option IndexableKind
  | .utf8 => some .string
  | .largeUtf8 => some .string
  | .int32 => some .int32
  | .int64 => some .int64
  | .fixedSizeList .float32 dim => some (.vector dim)
  | _ => none

def IndexableKind.dataTypes : IndexableKind → List DataType
  | .string => [.utf8, .largeUtf8]
  | .int32 => [.int32]
  | .int64 => [.int64]
  | .vector dim => [.fixedSizeList .float32 dim]

variable {kind : IndexableKind}

theorem mem_dataTypes {dt : DataType} (h : indexableKind dt = some kind) : dt ∈ kind.dataTypes := by
  unfold indexableKind at h
  split at h <;> cases h <;> simp [IndexableKind.dataTypes]

variable {F : Type} [Field F] [LinearOrder F] [HasSqrt F]

structure ColumnAcc (F : Type) where
  colIdx : ℕ
  kind : IndexableKind
  distinctString : Option (List String)
  distinctInt : Option (List Int)
  tokens : Option (List String)
  vecSum : Option (List F)
  vecRows : Option (List (List F))
  vecCount : ℕ
  deriving DecidableEq

def ColumnAcc.new (colIdx : ℕ) (kind : IndexableKind) : ColumnAcc F :=
  { colIdx, kind
    distinctString := if kind = .string then some [] else none
    distinctInt := if kind = .int32 ∨ kind = .int64 then some [] else none
    tokens := if kind = .string then some [] else none
    vecSum := match kind with
      | .vector dim => some (List.replicate dim 0)
      | _ => none
    vecRows := match kind with
      | .vector _ => some []
      | _ => none
    vecCount := 0 }

def pushDistinct {α : Type} [DecidableEq α] : Option (List α) → α → Option (List α)
  | none, _ => none
  | some set, v => if set.length ≥ distinctSetCap then none else some (set.insert v)

def pushTokens : Option (List String) → String → Option (List String)
  | none, _ => none
  | some set, v =>
    if (tokenize v set).length > tokenSetCap then none else some (tokenize v set)

def ColumnAcc.pushString (a : ColumnAcc F) (value : String) : ColumnAcc F :=
  { a with
    distinctString := pushDistinct a.distinctString value
    tokens := pushTokens a.tokens value }

def ColumnAcc.pushInt (a : ColumnAcc F) (value : Int) : ColumnAcc F :=
  { a with distinctInt := pushDistinct a.distinctInt value }

def normalize (v : List F) : List F := v.map (· / norm v)

/-- One row of an embedding column.  A row whose norm is next to nothing is passed over; one row too
many drops both the rows and the sum. -/
def ColumnAcc.pushVec (a : ColumnAcc F) (v : List F) : ColumnAcc F :=
  if norm v ≤ tiny then a
  else
    let sum := a.vecSum.map fun s => List.zipWith (· + ·) s (normalize v)
    match a.vecRows with
    | some rows =>
      if rows.length < vecRowCap then
        { a with vecSum := sum, vecCount := a.vecCount + 1, vecRows := some (rows ++ [normalize v]) }
      else { a with vecSum := none, vecCount := a.vecCount + 1, vecRows := none }
    | none => { a with vecSum := sum, vecCount := a.vecCount + 1 }

def asVec : Value F → Option (List F)
  | .vec xs => some xs
  | _ => none

/-- One column of `update_distinct_sets`: `none` where `as_string` panics on an array that is not a
string array.  An array of another type than the kind's is passed over. -/
def ColumnAcc.updateDistinctSets (a : ColumnAcc F) (dt : DataType) (cells : List (Value F)) : Option (ColumnAcc F) :=
  match a.kind with
  | .string => if dt = .utf8 then some ((cells.filterMap asStr).foldl pushString a) else none
  | .int32 => some (if dt = .int32 then (cells.filterMap asInt).foldl pushInt a else a)
  | .int64 => some (if dt = .int64 then (cells.filterMap asInt).foldl pushInt a else a)
  | .vector _ => some a

/-- One column of `update_vector_stats`; a column whose sum was dropped is passed over. -/
def ColumnAcc.updateVectorStats (a : ColumnAcc F) (cells : List (Value F)) : ColumnAcc F :=
  match a.kind with
  | .vector _ => if a.vecSum = none then a else (cells.filterMap asVec).foldl pushVec a
  | _ => a

def ColumnAcc.update (a : ColumnAcc F) (b : RecordBatch F) : Option (ColumnAcc F) := do
  let dt ← b.dataTypeAt a.colIdx
  let a' ← a.updateDistinctSets dt (b.column a.colIdx)
  pure (a'.updateVectorStats (b.column a.colIdx))

/-! ### The accumulator -/

structure ColumnStatsAccumulator (F : Type) where
  schema : Schema
  tsColIndex : Option ℕ
  minTsNanos : Option Int
  maxTsNanos : Option Int
  columns : List (ColumnAcc F)

def tsPosition (schema : Schema) : Option ℕ := schema.findIdx? fun f => f.dataType.isTimestampNs

def indexableColumns (schema : Schema) : List (ℕ × IndexableKind) :=
  schema.zipIdx.filterMap fun p => (indexableKind p.1.dataType).map fun kind => (p.2, kind)

def ColumnStatsAccumulator.new (schema : Schema) : ColumnStatsAccumulator F :=
  { schema, tsColIndex := tsPosition schema, minTsNanos := none, maxTsNanos := none,
    columns := (indexableColumns schema).map fun p => ColumnAcc.new p.1 p.2 }

def ColumnStatsAccumulator.pushTs (acc : ColumnStatsAccumulator F) (v : Int) : ColumnStatsAccumulator F :=
  { acc with
    minTsNanos := some ((acc.minTsNanos.map (min · v)).getD v)
    maxTsNanos := some ((acc.maxTsNanos.map (max · v)).getD v) }

def ColumnStatsAccumulator.updateTsBounds (acc : ColumnStatsAccumulator F) (b : RecordBatch F) :
    Option (ColumnStatsAccumulator F) :=
  match acc.tsColIndex with
  | none => some acc
  | some idx => do
      let dt ← b.dataTypeAt idx
      pure (if dt.isTimestampNs then ((b.column idx).filterMap asTs).foldl pushTs acc else acc)

/-- `update`: one batch into the statistics. -/
def ColumnStatsAccumulator.update (acc : ColumnStatsAccumulator F) (b : RecordBatch F) :
    Option (ColumnStatsAccumulator F) := do
  let acc' ← acc.updateTsBounds b
  let columns ← acc.columns.mapM fun a => ColumnAcc.update a b
  pure { acc' with columns }

/-! ### The JSON statistics -/

/-- A set as a sorted array, and a dropped set as `null`. -/
def setJson {α : Type} [LinearOrder α] (image : α → Json F) : Option (List α) → Json F
  | some set => .arr ((set.insertionSort (· ≤ ·)).map image)
  | none => .null

def centroidDistance (centroid row : List F) : F :=
  HasSqrt.sqrt ((List.zipWith (fun x c => (x - c) * (x - c)) row centroid).sum)

def vecRadius (centroid : List F) (rows : List (List F)) : F :=
  rows.foldl (fun radius r =>
    if centroidDistance centroid r > radius then centroidDistance centroid r else radius) 0

def ColumnAcc.vectorStat (a : ColumnAcc F) : Option (Json F) := do
  let sum ← a.vecSum
  let rows ← a.vecRows
  if a.vecCount = 0 then none
  else
    let centroid := sum.map (· / (a.vecCount : F))
    some (.obj [("centroid", .arr (centroid.map .float)),
      ("radius", .float (vecRadius centroid rows)), ("count", .int a.vecCount),
      ("metric", .str "cosine")])

def ColumnAcc.finish (a : ColumnAcc F) : Option (Json F) :=
  match a.kind with
  | .vector _ => a.vectorStat.map fun v => .obj [("vec", v)]
  | .string =>
    some (.obj [("distinct", setJson .str a.distinctString), ("tokens", setJson .str a.tokens)])
  | _ => some (.obj [("distinct", setJson .int a.distinctInt), ("tokens", .null)])

/-- One round of `finish`. -/
def finishColumn (schema : Schema) (fields : List (String × Json F)) (a : ColumnAcc F) : List (String × Json F) :=
  match schema[a.colIdx]?, a.finish with
  | some f, some entry => insertField f.name entry fields
  | _, _ => fields

/-- `finish`: the statistics, keyed by column name. -/
def ColumnStatsAccumulator.finish (acc : ColumnStatsAccumulator F) : Json F :=
  .obj (acc.columns.foldl (finishColumn acc.schema) [])

/-! ### The writer -/

/-- What the writer reports of an extent, as far as pruning sees it, and the statistics of its
blocks, one for each batch. -/
structure ExtentWriteResult (F : Type) where
  rowCount : ℕ
  minTimestampNanos : Option Int
  maxTimestampNanos : Option Int
  presentPaths : List String
  columnStats : Json F
  blockStats : List BlockStats

structure TelemetryExtentWriter (F : Type) where
  schema : Schema
  rowCount : ℕ
  stats : ColumnStatsAccumulator F
  blockStats : List BlockStats

def TelemetryExtentWriter.new (schema : Schema) : TelemetryExtentWriter F :=
  { schema, rowCount := 0, stats := .new schema, blockStats := [] }

/-- `append`: a batch of another schema is refused. -/
def TelemetryExtentWriter.append (w : TelemetryExtentWriter F) (b : RecordBatch F) : Option (TelemetryExtentWriter F) :=
  if b.schema ≠ w.schema then none
  else do
    let stats ← w.stats.update b
    let bs ← statsForBatch b
    pure { w with rowCount := w.rowCount + b.numRows, stats, blockStats := w.blockStats ++ [bs] }

def TelemetryExtentWriter.finish (w : TelemetryExtentWriter F) : ExtentWriteResult F :=
  { rowCount := w.rowCount, minTimestampNanos := w.stats.minTsNanos,
    maxTimestampNanos := w.stats.maxTsNanos, presentPaths := [], columnStats := w.stats.finish,
    blockStats := w.blockStats }

/-- An extent of a list of batches: `none` where the writer refuses one or panics. -/
def writeExtent (schema : Schema) (batches : List (RecordBatch F)) : Option (ExtentWriteResult F) :=
  (batches.foldlM TelemetryExtentWriter.append (.new schema)).map TelemetryExtentWriter.finish

/-- `table_result_to_manifest`, with what the caller adds; the instants of the manifest are the
writer's nanoseconds. -/
def tableResultToManifest (id : ExtentId) (tableId : TableId) (schemaSnapshotId : SchemaSnapshotId)
    (objectPath : String) (byteSize : ℕ) (createdAt : DateTime) (result : ExtentWriteResult F) :
    ExtentManifest (Json F) :=
  { id, tableId, schemaSnapshotId, objectPath, byteSize, rowCount := result.rowCount,
    minTimestamp := result.minTimestampNanos, maxTimestamp := result.maxTimestampNanos,
    columnStats := result.columnStats, presentPaths := result.presentPaths, compactionGen := 0,
    createdAt }

/-! ### What a record says -/

def colCells (batches : List (RecordBatch F)) (i : ℕ) : List (Value F) := batches.flatMap fun b => b.column i

def unitRows (cells : List (Value F)) : List (List F) :=
  ((cells.filterMap asVec).filter fun v => ¬ Catalog.norm v ≤ tiny).map normalize

theorem unitRows_append (cells more : List (Value F)) : unitRows (cells ++ more) = unitRows cells ++ unitRows more := by
  simp [unitRows]

/-- Sum, rows and number of rows agree with the rows seen so far, or the sum was dropped because
there were too many. -/
def ColumnAcc.VecRecords (a : ColumnAcc F) (start : List F) (units : List (List F)) : Prop :=
  (a.vecSum = none ∧ vecRowCap < units.length) ∨
    (a.vecSum = some (units.foldl (List.zipWith (· + ·)) start) ∧ a.vecRows = some units ∧ a.vecCount = units.length)

def ColumnAcc.Records (a : ColumnAcc F) (cells : List (Value F)) : Prop :=
  match a.kind with
  | .string =>
    a.distinctString = (cells.filterMap asStr).foldl pushDistinct (some []) ∧
      a.tokens = (cells.filterMap asStr).foldl pushTokens (some [])
  | .int32 => a.distinctInt = (cells.filterMap asInt).foldl pushDistinct (some [])
  | .int64 => a.distinctInt = (cells.filterMap asInt).foldl pushDistinct (some [])
  | .vector dim => a.VecRecords (List.replicate dim 0) (unitRows cells)

theorem records_new (i : ℕ) (kind : IndexableKind) : (ColumnAcc.new i kind : ColumnAcc F).Records [] := by
  cases kind with
  | string => exact ⟨rfl, rfl⟩
  | int32 | int64 => rfl
  | vector dim => exact .inr (by simp [ColumnAcc.new, unitRows])

omit [Field F] [LinearOrder F] [HasSqrt F] in
theorem foldl_pushString (a : ColumnAcc F) (strs : List String) : strs.foldl ColumnAcc.pushString a = { a with
        distinctString := strs.foldl pushDistinct a.distinctString
        tokens := strs.foldl pushTokens a.tokens } := by
  induction strs generalizing a with
  | nil => rfl
  | cons s strs ih =>
    rw [List.foldl_cons, ih]
    rfl

omit [Field F] [LinearOrder F] [HasSqrt F] in
theorem foldl_pushInt (a : ColumnAcc F) (ints : List Int) : ints.foldl ColumnAcc.pushInt a =
      { a with distinctInt := ints.foldl pushDistinct a.distinctInt } := by
  induction ints generalizing a with
  | nil => rfl
  | cons n ints ih =>
    rw [List.foldl_cons, ih]
    rfl

theorem pushVec_fixed (a : ColumnAcc F) (v : List F) :
    (a.pushVec v).colIdx = a.colIdx ∧ (a.pushVec v).kind = a.kind := by
  unfold ColumnAcc.pushVec
  split
  · exact ⟨rfl, rfl⟩
  · dsimp only
    split
    · split <;> exact ⟨rfl, rfl⟩
    · exact ⟨rfl, rfl⟩

theorem foldl_pushVec_fixed (a : ColumnAcc F) (vs : List (List F)) : (vs.foldl ColumnAcc.pushVec a).colIdx = a.colIdx ∧
      (vs.foldl ColumnAcc.pushVec a).kind = a.kind := by
  induction vs generalizing a with
  | nil => exact ⟨rfl, rfl⟩
  | cons v vs ih =>
    obtain ⟨hidx, hkind⟩ := ih (a.pushVec v)
    rw [List.foldl_cons, hidx, hkind]
    exact pushVec_fixed a v

variable {a : ColumnAcc F}

theorem pushVec_records {start : List F} {units : List (List F)}
    (h : a.VecRecords start units) (v : List F) : (a.pushVec v).VecRecords start
      (units ++ if Catalog.norm v ≤ tiny then [] else [normalize v]) := by
  unfold ColumnAcc.pushVec
  split
  · simpa using h
  · rcases h with ⟨hsum, hmany⟩ | ⟨hsum, hrows, hcount⟩
    · -- a dropped sum stays dropped, whatever happens to the rows
      refine .inl ⟨?_, by rw [List.length_append]; omega⟩
      dsimp only
      split
      · split
        · simp [hsum]
        · rfl
      · simp [hsum]
    · dsimp only
      rw [hrows]
      dsimp only
      split
      · exact .inr ⟨by simp [hsum], rfl, by simp [hcount]⟩
      · exact .inl ⟨rfl, by simp; omega⟩

theorem foldl_pushVec_records {start : List F} {units : List (List F)}
    (h : a.VecRecords start units) (vs : List (List F)) : (vs.foldl ColumnAcc.pushVec a).VecRecords start
      (units ++ (vs.filter fun v => ¬ Catalog.norm v ≤ tiny).map normalize) := by
  induction vs generalizing a units with
  | nil => simpa using h
  | cons v vs ih =>
    have hrun := ih (pushVec_records h v)
    by_cases hv : Catalog.norm v ≤ tiny
    · simpa only [List.foldl_cons, List.filter_cons, hv, not_true_eq_false, decide_false,
        Bool.false_eq_true, if_false, if_true, List.append_nil] using hrun
    · simpa only [List.foldl_cons, List.filter_cons, hv, not_false_eq_true, decide_true,
        if_false, if_true, List.map_cons, List.append_assoc, List.singleton_append] using hrun

theorem ColumnAcc.VecRecords.updateVectorStats {start : List F}
    {seen : List (Value F)} (h : a.VecRecords start (unitRows seen)) {dim : ℕ}
    (hk : a.kind = .vector dim) (cells : List (Value F)) : (a.updateVectorStats cells).colIdx = a.colIdx ∧
      (a.updateVectorStats cells).kind = .vector dim ∧
      (a.updateVectorStats cells).VecRecords start (unitRows (seen ++ cells)) := by
  rw [ColumnAcc.updateVectorStats, hk, unitRows_append]
  dsimp only
  split
  · rename_i hsum
    refine ⟨rfl, hk, ?_⟩
    rcases h with ⟨-, hmany⟩ | ⟨hsome, -⟩
    · exact .inl ⟨hsum, by rw [List.length_append]; omega⟩
    · rw [hsum] at hsome
      cases hsome
  · obtain ⟨hidx, hkind⟩ := foldl_pushVec_fixed a (cells.filterMap asVec)
    exact ⟨hidx, hkind.trans hk, foldl_pushVec_records h (cells.filterMap asVec)⟩

variable {b : RecordBatch F}

/-- **One batch into a record.**  A batch whose column has the type of the record extends what the
record says by the cells of that column. -/
theorem ColumnAcc.Records.update {a a' : ColumnAcc F} {cells : List (Value F)}
    (h : a.Records cells) {dt : DataType} (hdt : b.dataTypeAt a.colIdx = some dt)
    (hkind : indexableKind dt = some a.kind) (hup : a.update b = some a') :
    a'.colIdx = a.colIdx ∧ a'.kind = a.kind ∧ a'.Records (cells ++ b.column a.colIdx) := by
  simp only [ColumnAcc.update, hdt, Option.bind_eq_bind, Option.bind_some] at hup
  obtain ⟨a₁, hdistinct, hvec⟩ := Option.bind_eq_some_iff.mp hup
  cases hvec
  unfold ColumnAcc.updateDistinctSets at hdistinct
  unfold ColumnAcc.Records at h
  cases hk : a.kind with
  | string =>
    rw [hk] at hdistinct h
    obtain ⟨-, rfl⟩ : dt = .utf8 ∧ _ = a₁ := by simpa using hdistinct
    rw [foldl_pushString, ColumnAcc.updateVectorStats, hk]
    refine ⟨rfl, rfl, ?_⟩
    simp [ColumnAcc.Records, h.1, h.2]
  | int32 =>
    rw [hk] at hdistinct h hkind
    obtain rfl : dt = .int32 := List.mem_singleton.mp (mem_dataTypes hkind)
    cases hdistinct
    rw [if_pos rfl, foldl_pushInt, ColumnAcc.updateVectorStats, hk]
    refine ⟨rfl, rfl, ?_⟩
    simp [ColumnAcc.Records, h]
  | int64 =>
    rw [hk] at hdistinct h hkind
    obtain rfl : dt = .int64 := List.mem_singleton.mp (mem_dataTypes hkind)
    cases hdistinct
    rw [if_pos rfl, foldl_pushInt, ColumnAcc.updateVectorStats, hk]
    refine ⟨rfl, rfl, ?_⟩
    simp [ColumnAcc.Records, h]
  | vector dim =>
    rw [hk] at hdistinct h
    cases hdistinct
    obtain ⟨hidx, hkind', hrun⟩ := h.updateVectorStats hk (b.column a.colIdx)
    refine ⟨hidx, hkind', ?_⟩
    rw [ColumnAcc.Records, hkind']
    exact hrun

/-! ### The writer, batch by batch -/

def tsValues (schema : Schema) (batches : List (RecordBatch F)) : List Int :=
  match tsPosition schema with
  | none => []
  | some i => (colCells batches i).filterMap asTs

structure WriterInv (schema : Schema) (batches : List (RecordBatch F))
    (w : TelemetryExtentWriter F) : Prop where
  schema_eq : w.schema = schema
  stats_schema : w.stats.schema = schema
  tsColIndex : w.stats.tsColIndex = tsPosition schema
  batch_schema : ∀ b ∈ batches, b.schema = schema
  minTs : w.stats.minTsNanos = (tsValues schema batches).min?
  maxTs : w.stats.maxTsNanos = (tsValues schema batches).max?
  keys : w.stats.columns.map (fun a => (a.colIdx, a.kind)) = indexableColumns schema
  records : ∀ a ∈ w.stats.columns, a.Records (colCells batches a.colIdx)
  blocks : w.blockStats.map some = batches.map statsForBatch

theorem writerInv_new (schema : Schema) : WriterInv schema ([] : List (RecordBatch F)) (.new schema) := by
  have hts : tsValues schema ([] : List (RecordBatch F)) = [] := by
    unfold tsValues
    split <;> rfl
  refine ⟨rfl, rfl, rfl, by simp, by rw [hts]; rfl, by rw [hts]; rfl, ?_, ?_, rfl⟩
  · rw [TelemetryExtentWriter.new, ColumnStatsAccumulator.new, List.map_map]
    exact List.map_id _
  · intro a ha
    obtain ⟨p, -, rfl⟩ := List.mem_map.mp ha
    exact records_new p.1 p.2

theorem min?_concat (seen : List Int) (v : Int) : (seen ++ [v]).min? = some ((seen.min?.map (min · v)).getD v) := by
  cases seen with
  | nil => rfl
  | cons x xs =>
    rw [List.cons_append, List.min?_cons', List.min?_cons', List.foldl_append]
    rfl

theorem max?_concat (seen : List Int) (v : Int) : (seen ++ [v]).max? = some ((seen.max?.map (max · v)).getD v) := by
  cases seen with
  | nil => rfl
  | cons x xs =>
    rw [List.cons_append, List.max?_cons', List.max?_cons', List.foldl_append]
    rfl

omit [Field F] [LinearOrder F] [HasSqrt F] in
theorem foldl_pushTs (acc : ColumnStatsAccumulator F) (vs : List Int) {seen : List Int}
    (hmin : acc.minTsNanos = seen.min?) (hmax : acc.maxTsNanos = seen.max?) :
    vs.foldl ColumnStatsAccumulator.pushTs acc =
      { acc with minTsNanos := (seen ++ vs).min?, maxTsNanos := (seen ++ vs).max? } := by
  induction vs generalizing acc seen with
  | nil => rw [List.append_nil, ← hmin, ← hmax, List.foldl_nil]
  | cons v vs ih =>
    have hmin' : (acc.pushTs v).minTsNanos = (seen ++ [v]).min? := by
      rw [min?_concat, ← hmin]
      rfl
    have hmax' : (acc.pushTs v).maxTsNanos = (seen ++ [v]).max? := by
      rw [max?_concat, ← hmax]
      rfl
    rw [List.foldl_cons, ih _ hmin' hmax', List.append_assoc, List.singleton_append]
    rfl

omit [Field F] [LinearOrder F] [HasSqrt F] in
theorem colCells_concat (batches : List (RecordBatch F)) (b : RecordBatch F) (i : ℕ) :
    colCells (batches ++ [b]) i = colCells batches i ++ b.column i := by
  simp [colCells]

variable {schema : Schema}

theorem indexableColumns_kind {i : ℕ} :
    (i, kind) ∈ indexableColumns schema ↔ ∃ f, schema[i]? = some f ∧ indexableKind f.dataType = some kind := by
  simp [indexableColumns, List.mem_filterMap, List.mem_zipIdx_iff_getElem?]

theorem mapM_update {schema : Schema} {batches : List (RecordBatch F)} {b : RecordBatch F}
    (hb : b.schema = schema) {columns columns' : List (ColumnAcc F)}
    (hkeys : ∀ a ∈ columns, (a.colIdx, a.kind) ∈ indexableColumns schema)
    (hrec : ∀ a ∈ columns, a.Records (colCells batches a.colIdx))
    (h : columns.mapM (fun a => ColumnAcc.update a b) = some columns') :
    columns'.map (fun a => (a.colIdx, a.kind)) = columns.map (fun a => (a.colIdx, a.kind)) ∧
      ∀ a ∈ columns', a.Records (colCells (batches ++ [b]) a.colIdx) := by
  induction columns generalizing columns' with
  | nil =>
    cases h
    simp
  | cons a columns ih =>
    rw [List.mapM_cons] at h
    obtain ⟨a', ha', h⟩ := Option.bind_eq_some_iff.mp h
    obtain ⟨rest, hrest, h⟩ := Option.bind_eq_some_iff.mp h
    cases h
    obtain ⟨f, hf, hkind⟩ := indexableColumns_kind.mp (hkeys a (by simp))
    have hdt : b.dataTypeAt a.colIdx = some f.dataType := by
      rw [RecordBatch.dataTypeAt, hb, hf, Option.map_some]
    obtain ⟨hidx, hk, hr⟩ := (hrec a (by simp)).update hdt hkind ha'
    obtain ⟨hkeys', hrec'⟩ := ih (fun c hc => hkeys c (by simp [hc]))
      (fun c hc => hrec c (by simp [hc])) hrest
    refine ⟨by rw [List.map_cons, List.map_cons, hkeys', hidx, hk], ?_⟩
    intro c hc
    rcases List.mem_cons.mp hc with rfl | hc
    · rw [colCells_concat, hidx]
      exact hr
    · exact hrec' c hc

variable {w : TelemetryExtentWriter F}

theorem WriterInv.append {schema : Schema} {batches : List (RecordBatch F)}
    {w' : TelemetryExtentWriter F} (h : WriterInv schema batches w) {b : RecordBatch F}
    (happ : w.append b = some w') : WriterInv schema (batches ++ [b]) w' := by
  unfold TelemetryExtentWriter.append at happ
  split at happ
  · cases happ
  · rename_i hschema
    have hb : b.schema = schema := by
      rw [← h.schema_eq]
      exact not_not.mp hschema
    obtain ⟨stats, hstats, happ⟩ := Option.bind_eq_some_iff.mp happ
    obtain ⟨bs, hbs, happ⟩ := Option.bind_eq_some_iff.mp happ
    cases happ
    obtain ⟨acc, hts, hstats⟩ := Option.bind_eq_some_iff.mp hstats
    obtain ⟨columns, hcols, hstats⟩ := Option.bind_eq_some_iff.mp hstats
    cases hstats
    have hacc : acc = { w.stats with
        minTsNanos := (tsValues schema (batches ++ [b])).min?
        maxTsNanos := (tsValues schema (batches ++ [b])).max? } := by
      have hmin := h.minTs
      have hmax := h.maxTs
      unfold ColumnStatsAccumulator.updateTsBounds at hts
      rw [h.tsColIndex] at hts
      unfold tsValues at hmin hmax ⊢
      cases hpos : tsPosition schema with
      | none =>
        simp only [hpos] at hts hmin hmax
        cases hts
        rw [← hmin, ← hmax]
      | some i =>
        simp only [hpos] at hts hmin hmax
        obtain ⟨hlt, hns, -⟩ := List.findIdx?_eq_some_iff_getElem.mp hpos
        have hdt : b.dataTypeAt i = some schema[i].dataType := by
          rw [RecordBatch.dataTypeAt, hb, List.getElem?_eq_getElem hlt, Option.map_some]
        rw [hdt] at hts
        cases hts
        rw [if_pos hns, foldl_pushTs _ _ hmin hmax]
        dsimp only
        rw [colCells_concat, List.filterMap_append]
    have hkeys : ∀ a ∈ w.stats.columns, (a.colIdx, a.kind) ∈ indexableColumns schema := by
      intro a ha
      rw [← h.keys]
      exact List.mem_map_of_mem ha
    obtain ⟨hkeys', hrec'⟩ := mapM_update hb hkeys h.records hcols
    subst hacc
    refine ⟨h.schema_eq, h.stats_schema, h.tsColIndex, ?_, rfl, rfl, hkeys'.trans h.keys, hrec', ?_⟩
    · intro b' hb'
      rcases List.mem_append.mp hb' with hb' | hb'
      · exact h.batch_schema b' hb'
      · rw [List.mem_singleton.mp hb']
        exact hb
    · rw [List.map_append, List.map_append, h.blocks]
      simp [hbs]

theorem WriterInv.run {schema : Schema} {batches : List (RecordBatch F)}
    {w' : TelemetryExtentWriter F} (h : WriterInv schema batches w) {more : List (RecordBatch F)}
    (hrun : more.foldlM TelemetryExtentWriter.append w = some w') : WriterInv schema (batches ++ more) w' := by
  induction more generalizing batches w with
  | nil =>
    cases hrun
    simpa using h
  | cons b more ih =>
    obtain ⟨w₁, hw₁, hrun⟩ := Option.bind_eq_some_iff.mp hrun
    have := ih (h.append hw₁) hrun
    rwa [List.append_assoc, List.singleton_append] at this

variable {batches : List (RecordBatch F)} {result : ExtentWriteResult F}

theorem writeExtent_eq_some (h : writeExtent schema batches = some result) :
    ∃ w, WriterInv schema batches w ∧ result = w.finish := by
  obtain ⟨w, hw, rfl⟩ := Option.map_eq_some_iff.mp h
  exact ⟨w, by simpa using (writerInv_new schema).run hw, rfl⟩

/-! ### The writer never fails on its own batches -/

omit [Field F] [LinearOrder F] [HasSqrt F] in
theorem statsForBatch_isSome {b : RecordBatch F} (h : ∀ f ∈ b.schema, f.dataType ≠ .largeUtf8) :
    ∃ bs, statsForBatch b = some bs := by
  have hloop : ∀ (l : List (Field × List (Value F))) (acc : List (String × ColStat)),
      (∀ p ∈ l, p.1.dataType ≠ .largeUtf8) → ∃ cols, statsLoop acc l = some cols := by
    intro l
    induction l with
    | nil => exact fun acc _ => ⟨acc, rfl⟩
    | cons p l ih =>
      intro acc hl
      obtain ⟨s, hs⟩ : ∃ s, colStat p.1.dataType p.2 = some s := by
        have hp := hl p (by simp)
        unfold colStat
        split <;> simp_all
      rw [statsLoop, hs]
      cases s with
      | none => exact ih acc fun q hq => hl q (by simp [hq])
      | some s => exact ih _ fun q hq => hl q (by simp [hq])
  obtain ⟨cols, hcols⟩ := hloop (b.schema.zip b.columns) [] fun p hp =>
    h p.1 (List.of_mem_zip hp).1
  exact ⟨_, by rw [statsForBatch, hcols, Option.map_some]⟩

variable {f : Field}

theorem ColumnAcc.update_isSome (hf : b.schema[a.colIdx]? = some f) (hkind : indexableKind f.dataType = some a.kind)
    (htype : f.dataType ≠ .largeUtf8) : ∃ a', a.update b = some a' := by
  have hmem := mem_dataTypes hkind
  obtain ⟨a₁, ha₁⟩ : ∃ a₁, a.updateDistinctSets f.dataType (b.column a.colIdx) = some a₁ := by
    unfold ColumnAcc.updateDistinctSets
    cases hk : a.kind with
    | string =>
      rw [hk] at hmem
      have hutf8 : f.dataType = .utf8 := by simpa [IndexableKind.dataTypes, htype] using hmem
      exact ⟨_, if_pos hutf8⟩
    | int32 | int64 | vector dim => exact ⟨_, rfl⟩
  refine ⟨a₁.updateVectorStats (b.column a.colIdx), ?_⟩
  simp [ColumnAcc.update, RecordBatch.dataTypeAt, hf, ha₁]

theorem WriterInv.append_isSome (h : WriterInv schema batches w) (hb : b.schema = schema)
    (htypes : ∀ f ∈ schema, f.dataType ≠ .largeUtf8) : ∃ w', w.append b = some w' := by
  obtain ⟨bs, hbs⟩ := statsForBatch_isSome (b := b) (by rwa [hb])
  obtain ⟨acc, hacc⟩ : ∃ acc, w.stats.updateTsBounds b = some acc := by
    unfold ColumnStatsAccumulator.updateTsBounds
    rw [h.tsColIndex]
    cases hpos : tsPosition schema with
    | none => exact ⟨_, rfl⟩
    | some i =>
      obtain ⟨hlt, -, -⟩ := List.findIdx?_eq_some_iff_getElem.mp hpos
      simp [RecordBatch.dataTypeAt, hb, List.getElem?_eq_getElem hlt]
  have hcols : ∀ columns : List (ColumnAcc F), (∀ a ∈ columns, (a.colIdx, a.kind) ∈ indexableColumns schema) →
      ∃ columns', columns.mapM (fun a => ColumnAcc.update a b) = some columns' := by
    intro columns
    induction columns with
    | nil => exact fun _ => ⟨[], rfl⟩
    | cons a columns ih =>
      intro hkeys
      obtain ⟨f, hf, hkind⟩ := indexableColumns_kind.mp (hkeys a (by simp))
      obtain ⟨a', ha'⟩ := ColumnAcc.update_isSome (by rw [hb]; exact hf) hkind
        (htypes f (List.mem_of_getElem? hf))
      obtain ⟨rest, hrest⟩ := ih fun c hc => hkeys c (by simp [hc])
      exact ⟨a' :: rest, by simp [List.mapM_cons, ha', hrest]⟩
  obtain ⟨columns', hcolumns'⟩ := hcols w.stats.columns fun a ha => by
    rw [← h.keys]
    exact List.mem_map_of_mem ha
  have hschema : ¬ b.schema ≠ w.schema := not_not.mpr (hb.trans h.schema_eq.symm)
  have hstats : w.stats.update b = some { acc with columns := columns' } := by
    rw [ColumnStatsAccumulator.update, hacc]
    simp [hcolumns']
  rw [TelemetryExtentWriter.append, if_neg hschema, hstats, hbs]
  exact ⟨_, rfl⟩

/-- **The writer takes every batch of its schema**, unless a column has the type that `as_string`
panics on. -/
theorem writeExtent_isSome (hbatches : ∀ b ∈ batches, b.schema = schema)
    (htypes : ∀ f ∈ schema, f.dataType ≠ .largeUtf8) : ∃ result, writeExtent schema batches = some result := by
  have hrun : ∀ (more : List (RecordBatch F)) (done : List (RecordBatch F))
      (w : TelemetryExtentWriter F), WriterInv schema done w → (∀ b ∈ more, b.schema = schema) →
      ∃ w', more.foldlM TelemetryExtentWriter.append w = some w' := by
    intro more
    induction more with
    | nil => exact fun _ w _ _ => ⟨w, rfl⟩
    | cons b more ih =>
      intro done w hw hmore
      obtain ⟨w₁, hw₁⟩ := hw.append_isSome (hmore b (by simp)) htypes
      obtain ⟨w', hw'⟩ := ih (done ++ [b]) w₁ (hw.append hw₁) fun c hc => hmore c (by simp [hc])
      exact ⟨w', by rw [List.foldlM_cons, hw₁]; exact hw'⟩
  obtain ⟨w', hw'⟩ := hrun batches [] (.new schema) (writerInv_new schema) hbatches
  exact ⟨w'.finish, by rw [writeExtent, hw', Option.map_some]⟩

/-! ### The statistics under a name -/

variable {columns : List (ColumnAcc F)}

theorem lookup_finish_of_ne {name : String}
    (h : ∀ a ∈ columns, ∀ f, schema[a.colIdx]? = some f → f.name ≠ name) (fields : List (String × Json F)) :
    (columns.foldl (finishColumn schema) fields).lookup name = fields.lookup name := by
  induction columns generalizing fields with
  | nil => rfl
  | cons a columns ih =>
    rw [List.foldl_cons, ih fun c hc => h c (by simp [hc])]
    unfold finishColumn
    split
    · rename_i f entry hf _
      exact lookup_insertField_of_ne (h a (by simp) f hf).symm entry fields
    · rfl

theorem exists_of_lookup_finish {name : String}
    {entry : Json F}
    (h : (columns.foldl (finishColumn schema) []).lookup name = some entry) : ∃ a ∈ columns, a.finish = some entry := by
  -- the columns from the last to the first: the last that makes an entry of the name wins
  induction columns using List.reverseRecOn with
  | nil => cases h
  | append_singleton columns a ih =>
    rw [List.foldl_append, List.foldl_cons, List.foldl_nil, finishColumn] at h
    split at h
    · rename_i f new hf hnew
      by_cases hname : name = f.name
      · rw [hname, lookup_insertField_self] at h
        cases h
        exact ⟨a, by simp, hnew⟩
      · rw [lookup_insertField_of_ne hname] at h
        obtain ⟨c, hc, hentry⟩ := ih h
        exact ⟨c, by simp [hc], hentry⟩
    · obtain ⟨c, hc, hentry⟩ := ih h
      exact ⟨c, by simp [hc], hentry⟩

theorem indexableColumns_nodup (schema : Schema) : ((indexableColumns schema).map Prod.fst).Nodup := by
  have hidx : (schema.zipIdx.map Prod.snd).Nodup := by
    rw [List.zipIdx_map_snd]
    exact List.nodup_range'
  refine List.pairwise_map.mpr ((List.pairwise_map.mp hidx).filterMap _ ?_)
  intro p q hpq p' hp' q' hq'
  obtain ⟨-, -, rfl⟩ := Option.map_eq_some_iff.mp hp'
  obtain ⟨-, -, rfl⟩ := Option.map_eq_some_iff.mp hq'
  exact hpq

theorem lookup_finish (hd : Schema.Distinct schema) (hnodup : (columns.map ColumnAcc.colIdx).Nodup)
    (ha : a ∈ columns) (hf : schema[a.colIdx]? = some f) :
    (columns.foldl (finishColumn schema) []).lookup f.name = a.finish := by
  obtain ⟨pre, post, rfl⟩ := List.append_of_mem ha
  -- another column of that name would have the same index
  have hother : ∀ c ∈ pre ++ post, ∀ g, schema[c.colIdx]? = some g → g.name ≠ f.name := by
    intro c hc g hg hname
    have hi := indexOf_of_distinct hd hf
    rw [← hname, indexOf_of_distinct hd hg] at hi
    have hidx : c.colIdx = a.colIdx := Option.some.inj hi
    rw [List.map_append, List.map_cons, List.nodup_middle, List.nodup_cons] at hnodup
    refine hnodup.1 ?_
    rw [← hidx, ← List.map_append]
    exact List.mem_map_of_mem hc
  rw [List.foldl_append, List.foldl_cons, lookup_finish_of_ne (fun c hc => hother c (by simp [hc])), finishColumn, hf]
  have hpre : (pre.foldl (finishColumn schema) []).lookup f.name = none :=
    lookup_finish_of_ne (fun c hc => hother c (by simp [hc])) []
  cases a.finish with
  | none => exact hpre
  | some entry => exact lookup_insertField_self f.name entry _

/-- **The statistics under a name.**  For a column of a tracked type they are what its record makes
of its cells. -/
theorem writeExtent_get (hd : Schema.Distinct schema) (h : writeExtent schema batches = some result)
    {i : ℕ} (hf : schema[i]? = some f) (hkind : indexableKind f.dataType = some kind) :
    ∃ a : ColumnAcc F, a.kind = kind ∧ a.Records (colCells batches i) ∧ result.columnStats.get f.name = a.finish := by
  obtain ⟨w, hw, rfl⟩ := writeExtent_eq_some h
  have hmem : (i, kind) ∈ indexableColumns schema := indexableColumns_kind.mpr ⟨f, hf, hkind⟩
  rw [← hw.keys] at hmem
  obtain ⟨a, ha, heq⟩ := List.mem_map.mp hmem
  obtain ⟨rfl, rfl⟩ := Prod.mk.inj heq
  refine ⟨a, rfl, hw.records a ha, ?_⟩
  have hnodup : (w.stats.columns.map ColumnAcc.colIdx).Nodup := by
    have := indexableColumns_nodup schema
    rwa [← hw.keys, List.map_map] at this
  have hfind := lookup_finish hd hnodup ha hf
  rw [← hw.stats_schema] at hfind
  exact hfind

theorem writeExtent_get_none (hd : Schema.Distinct schema)
    (h : writeExtent schema batches = some result) {i : ℕ} (hf : schema[i]? = some f)
    (hkind : indexableKind f.dataType = none) : result.columnStats.get f.name = none := by
  obtain ⟨w, hw, rfl⟩ := writeExtent_eq_some h
  refine lookup_finish_of_ne ?_ []
  intro a ha g hg hname
  have hmem : (a.colIdx, a.kind) ∈ indexableColumns schema := by
    rw [← hw.keys]
    exact List.mem_map_of_mem ha
  obtain ⟨g', hg', hkind'⟩ := indexableColumns_kind.mp hmem
  rw [hw.stats_schema, hg'] at hg
  cases hg
  rw [hd.field_eq (List.mem_of_getElem? hg') (List.mem_of_getElem? hf) hname, hkind] at hkind'
  cases hkind'

theorem writeExtent_admits (h : writeExtent schema batches = some result) {i : ℕ}
    (hf : schema[i]? = some f) {v : Value F} (hv : v ∈ colCells batches i) :
    f.dataType.admits v = true := by
  obtain ⟨w, hw, -⟩ := writeExtent_eq_some h
  obtain ⟨b, hb, hv⟩ := List.mem_flatMap.mp hv
  refine RecordBatch.admits_of_mem ?_ hv
  rw [hw.batch_schema b hb]
  exact hf

theorem writeExtent_times {schema : Schema} {batches : List (RecordBatch F)}
    {result : ExtentWriteResult F} (h : writeExtent schema batches = some result) :
    result.minTimestampNanos = (tsValues schema batches).min? ∧
      result.maxTimestampNanos = (tsValues schema batches).max? := by
  obtain ⟨w, hw, rfl⟩ := writeExtent_eq_some h
  exact ⟨hw.minTs, hw.maxTs⟩

theorem writeExtent_blocks (h : writeExtent schema batches = some result) :
    (∀ b ∈ batches, b.schema = schema) ∧ result.blockStats.map some = batches.map statsForBatch := by
  obtain ⟨w, hw, rfl⟩ := writeExtent_eq_some h
  exact ⟨hw.batch_schema, hw.blocks⟩

section Distinct

variable {α : Type} [DecidableEq α]

theorem foldl_pushDistinct_none (l : List α) : l.foldl pushDistinct (none : Option (List α)) = none := by
  induction l with
  | nil => rfl
  | cons v l ih => exact ih

theorem mem_foldl_pushDistinct {l start set : List α}
    (h : l.foldl pushDistinct (some start) = some set) {v : α} :
    v ∈ set ↔ v ∈ start ∨ v ∈ l := by
  induction l generalizing start with
  | nil =>
    cases h
    simp
  | cons w l ih =>
    rw [List.foldl_cons] at h
    by_cases hcap : start.length ≥ distinctSetCap
    · have hpush : pushDistinct (some start) w = none := if_pos hcap
      rw [hpush, foldl_pushDistinct_none] at h
      cases h
    · have hpush : pushDistinct (some start) w = some (start.insert w) := if_neg hcap
      rw [hpush] at h
      rw [ih h, List.mem_insert_iff, List.mem_cons]
      tauto

theorem cap_le_of_foldl_pushDistinct {l start seen : List α} (hnodup : start.Nodup)
    (hseen : start ⊆ seen) (h : l.foldl pushDistinct (some start) = none) :
    distinctSetCap ≤ (seen ++ l).dedup.length := by
  induction l generalizing start seen with
  | nil => cases h
  | cons v l ih =>
    rw [List.foldl_cons] at h
    by_cases hcap : start.length ≥ distinctSetCap
    · have hsub : start ⊆ (seen ++ v :: l).dedup := by
        intro x hx
        exact List.mem_dedup.mpr (List.mem_append_left _ (hseen hx))
      exact hcap.trans (List.subperm_of_subset hnodup hsub).length_le
    · have hpush : pushDistinct (some start) v = some (start.insert v) := if_neg hcap
      rw [hpush] at h
      have hseen' : start.insert v ⊆ seen ++ [v] := by
        intro x hx
        rcases List.mem_insert_iff.mp hx with rfl | hx
        · simp
        · exact List.mem_append_left _ (hseen hx)
      have hrest := ih (hnodup.insert) hseen' h
      rwa [List.append_assoc, List.singleton_append] at hrest

end Distinct

end Tlm
