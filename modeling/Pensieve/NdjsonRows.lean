/-
**The rows of an NDJSON body.**

`parse_ndjson` reads a body twice when its table has vector or binary columns:  `arrow-json` decodes
it in batches, and `serde_json` reads it line by line for the columns that `arrow-json` cannot fill,
which are sliced by the sizes of the batches.
-/

import Pensieve.EventTime

namespace NdjsonRows

open List
open Catalog (Json)
open TableSchema (Schema DataType)
open EventTime (Bytes lines nonBlank)

variable {F A : Type}

abbrev Column := TableSchema.Field

/-! ### Cells and libraries -/

/-- A value of a column: what `arrow-json` reads, or what is read by hand. -/
inductive Cell (F A : Type) where
  | native (x : A)
  | null
  | bytes (b : Bytes)
  | vector (xs : List F)

abbrev ArrayRef (F A : Type) := List (Cell F A)

inductive NdjsonError (F : Type) where
  | arrow
  | parse
  | vectorDimensionMismatch (column : String) (dimension : Int) (got : ℕ)
  | vectorWrongType (column got : String)
  | vectorNonNumeric (column : String) (index : ℕ) (value : Json F)
  | vectorUnsupportedInner (column : String) (got : DataType)
  | panic

/-- The libraries: the texts of the objects that `arrow-json` finds in a stream, in batches, and what it reads for a
column of one; `as f32`, `serde_json::to_vec`, the bytes of a string, and the checks of `RecordBatch::try_new`. -/
structure Lib (F A : Type) extends EventTime.Lib F where
  decode : Bytes → Option (List (List Bytes))
  cell : Column → Bytes → Option A
  toF32 : F → F
  toVec : Json F → Bytes
  asBytes : String → Bytes
  tryNew : Schema → List (ArrayRef F A) → Bool

structure Batch (F A : Type) where
  numRows : ℕ
  columns : List (ArrayRef F A)

/-! ### The parser -/

def get (row : Json F) (name : String) : Option (Json F) :=
  match row with
  | .obj fields => fields.lookup name
  | _ => none

def typeName : Json F → String
  | .null => "null"
  | .bool _ => "bool"
  | .int _ | .float _ => "number"
  | .str _ => "string"
  | .arr _ => "array"
  | .obj _ => "object"

/-- The columns that `arrow-json` cannot fill. -/
def isManual (f : Column) : Bool :=
  match f.dataType with
  | .fixedSizeList _ _ | .binary | .largeBinary => true
  | _ => false

def unsupportedInner (f : Column) : Option (NdjsonError F) :=
  match f.dataType with
  | .fixedSizeList inner _ =>
    if inner.dataType = .float32 then none else some (.vectorUnsupportedInner f.name inner.dataType)
  | _ => none

section Parser

variable (lib : Lib F A)

def parseLines (bytes : Bytes) : Except (NdjsonError F) (List (Json F)) :=
  (nonBlank (lines bytes)).mapM fun line =>
    match lib.fromSlice line with
    | some v => .ok v
    | none => .error .parse

def valueOf (line : Bytes) : Json F := (lib.fromSlice line).getD .null

variable {lib} in
theorem parseLines_eq_ok {bytes : Bytes} {rows : List (Json F)} (h : parseLines lib bytes = .ok rows) :
    (∀ line ∈ nonBlank (lines bytes), (lib.fromSlice line).isSome) ∧
      rows = (nonBlank (lines bytes)).map (valueOf lib) := by
  unfold parseLines at h
  rw [Fallible.mapM_eq_ok_iff] at h
  generalize nonBlank (lines bytes) = ls at h
  induction h with
  | nil => simp
  | @cons line v ls rows hv _ ih =>
    split at hv
    next hread =>
      cases hv
      exact ⟨forall_mem_cons.2 ⟨by simp [hread], ih.1⟩, by simp [valueOf, hread, ih.2]⟩
    next => cases hv

variable [Field F]

def vectorCell (f : Column) (dim : Int) (row : Json F) : Except (NdjsonError F) (Cell F A) :=
  match get row f.name with
  | none => .error (.vectorWrongType f.name "missing")
  | some (.arr items) =>
    if (items.length : Int) ≠ dim then .error (.vectorDimensionMismatch f.name dim items.length)
    else
      .vector <$> items.zipIdx.mapM fun p =>
        match p.1.asF64 with
        | some x => .ok (lib.toF32 x)
        | none => .error (.vectorNonNumeric f.name p.2 p.1)
  | some other => .error (.vectorWrongType f.name (typeName other))

/-- `FixedSizeListArray` has no length of its own: with the dimension 0 it has no rows. -/
def vectorArray (f : Column) (dim : Int) (rows : List (Json F)) : Except (NdjsonError F) (ArrayRef F A) :=
  if dim < 0 then .error .panic
  else do
    let cells ← rows.mapM (vectorCell lib f dim)
    return if dim = 0 then [] else cells

def binaryCell (f : Column) (row : Json F) : Cell F A :=
  match get row f.name with
  | none | some .null => .null
  | some (.str s) => .bytes (lib.asBytes s)
  | some other => .bytes (lib.toVec other)

def manualArray (rows : List (Json F)) (f : Column) : Except (NdjsonError F) (Option (ArrayRef F A)) :=
  match f.dataType with
  | .fixedSizeList _ dim => do
    let array ← vectorArray lib f dim rows
    return some array
  | .binary | .largeBinary => return some (rows.map (binaryCell lib f))
  | _ => return none

/-- What `arrow-json` reads for the fields of a schema. -/
def arrowBatches (schema : Schema) (bytes : Bytes) : Except (NdjsonError F) (List (Batch F A)) :=
  match lib.decode bytes with
  | none => .error .arrow
  | some batches => batches.mapM fun records => do
    let columns ← schema.mapM fun f => records.mapM fun r =>
      match lib.cell f r with
      | some x => .ok (.native x)
      | none => .error .arrow
    return ⟨records.length, columns⟩

/-- `slice(offset, nrows)` -/
def slice (array : ArrayRef F A) (offset nrows : ℕ) : Except (NdjsonError F) (ArrayRef F A) :=
  if offset + nrows ≤ array.length then .ok ((array.drop offset).take nrows) else .error .panic

/-- The columns of a batch: the next one that `arrow-json` has read, or a slice of the one that it has not. -/
def spliceColumns (offset nrows : ℕ) : List (Option (ArrayRef F A)) → List (ArrayRef F A) →
    Except (NdjsonError F) (List (ArrayRef F A))
  | [], _ => .ok []
  | some array :: arrays, stripped => do
    let column ← slice array offset nrows
    let rest ← spliceColumns offset nrows arrays stripped
    return column :: rest
  | none :: arrays, stripped => do
    let rest ← spliceColumns offset nrows arrays stripped.tail
    return stripped.headD [] :: rest

def spliceBatches (schema : Schema) (arrays : List (Option (ArrayRef F A))) : ℕ → List (Batch F A) →
    Except (NdjsonError F) (List (Batch F A))
  | _, [] => .ok []
  | offset, b :: batches => do
    let columns ← spliceColumns offset b.numRows arrays b.columns
    if lib.tryNew schema columns then
      let rest ← spliceBatches schema arrays (offset + b.numRows) batches
      return ⟨b.numRows, columns⟩ :: rest
    else .error .arrow

def form (f : Column) (line : Bytes) : Option (Cell F A) :=
  match f.dataType with
  | .fixedSizeList _ dim => (vectorCell lib f dim (valueOf lib line)).toOption
  | .binary | .largeBinary => some (binaryCell lib f (valueOf lib line))
  | _ => (lib.cell f line).map .native

/-- The column at `j`, over all batches. -/
def column (batches : List (Batch F A)) (j : ℕ) : ArrayRef F A := batches.flatMap fun b => b.columns.getD j []

/-! ### Batches -/

variable {lib} {schema : Schema} {bytes : Bytes} {ls : List Bytes} {chunks : List (List Bytes)}
  {stripped bs : List (Batch F A)} {arrays : List (Option (ArrayRef F A))}

theorem form_of_not_manual {f : Column} (h : isManual f = false) (line : Bytes) :
    form lib f line = (lib.cell f line).map .native := by
  unfold isManual at h
  unfold form
  split at h <;> simp_all

def Holds (lib : Lib F A) (schema : Schema) (chunk : List Bytes) (columns : List (ArrayRef F A)) : Prop :=
  List.Forall₂ (fun f col => List.Forall₂ (fun line x => form lib f line = some x) chunk col) schema columns

def Batched (lib : Lib F A) (schema : Schema) (chunks : List (List Bytes)) (bs : List (Batch F A)) : Prop :=
  List.Forall₂ (fun c b => b.numRows = c.length ∧ Holds lib schema c b.columns) chunks bs

theorem batched_arrowBatches (h : arrowBatches lib schema bytes = .ok bs) (hnative : ∀ f ∈ schema, isManual f = false) :
    ∃ chunks, lib.decode bytes = some chunks ∧ Batched lib schema chunks bs := by
  unfold arrowBatches at h
  cases hdecode : lib.decode bytes with
  | none =>
    rw [hdecode] at h
    cases h
  | some chunks =>
    rw [hdecode] at h
    refine ⟨chunks, rfl, (Fallible.mapM_eq_ok_iff.1 h).imp fun c b hb => ?_⟩
    obtain ⟨columns, hcolumns, hb⟩ := Fallible.bind_eq_ok.1 hb
    cases hb
    refine ⟨rfl, ((forall₂_and_left schema columns).2 ⟨hnative, Fallible.mapM_eq_ok_iff.1 hcolumns⟩).imp ?_⟩
    intro f col ⟨hf, hcol⟩
    refine (Fallible.mapM_eq_ok_iff.1 hcol).imp fun line x hx => ?_
    rw [form_of_not_manual hf]
    split at hx
    · cases hx
      simp [*]
    · cases hx

def ArrayOf (lib : Lib F A) (ls : List Bytes) (f : Column) : Option (ArrayRef F A) → Prop
  | none => isManual f = false
  | some array => isManual f = true ∧ (array = [] ∨ List.Forall₂ (fun line x => form lib f line = some x) ls array)

theorem arrayOf_manualArray {f : Column} {o : Option (ArrayRef F A)}
    (h : manualArray lib (ls.map (valueOf lib)) f = .ok o) : ArrayOf lib ls f o := by
  unfold manualArray at h
  split at h
  next dim hdim =>
    obtain ⟨array, harray, h⟩ := Fallible.bind_eq_ok.1 h
    cases h
    refine ⟨by simp [isManual, hdim], ?_⟩
    unfold vectorArray at harray
    split at harray
    · cases harray
    · obtain ⟨cells, hcells, harray⟩ := Fallible.bind_eq_ok.1 harray
      cases harray
      split
      · exact .inl rfl
      · rw [Fallible.mapM_eq_ok_iff, forall₂_map_left_iff] at hcells
        refine .inr (hcells.imp fun line x hx => ?_)
        simp [form, hdim, hx, Except.toOption]
  case h_2 hdim | h_3 hdim =>
    cases h
    exact ⟨by simp [isManual, hdim], .inr (by simp [form, hdim, forall₂_same])⟩
  next =>
    cases h
    unfold ArrayOf isManual
    split <;> simp_all

theorem holds_spliceColumns {done c rest : List Bytes} {stripped columns : List (ArrayRef F A)}
    (harrays : List.Forall₂ (ArrayOf lib (done ++ (c ++ rest))) schema arrays)
    (hstripped : Holds lib (schema.filter fun f => !isManual f) c stripped)
    (h : spliceColumns done.length c.length arrays stripped = .ok columns) : Holds lib schema c columns := by
  induction harrays generalizing stripped columns with
  | nil =>
    cases h
    exact .nil
  | @cons f o schema arrays hf _ ih =>
    cases o with
    | none =>
      have hfilter : (f :: schema).filter (fun f => !isManual f) = f :: schema.filter fun f => !isManual f :=
        filter_cons_of_pos (by simpa [ArrayOf] using hf)
      rw [hfilter] at hstripped
      cases hstripped with
      | cons hcol hrest =>
        obtain ⟨cols, hcols, h⟩ := Fallible.bind_eq_ok.1 h
        cases h
        exact .cons hcol (ih hrest hcols)
    | some array =>
      obtain ⟨hmanual, harray⟩ := hf
      rw [filter_cons_of_neg (by simp [hmanual])] at hstripped
      obtain ⟨col, hcol, h⟩ := Fallible.bind_eq_ok.1 h
      obtain ⟨cols, hcols, h⟩ := Fallible.bind_eq_ok.1 h
      cases h
      refine .cons ?_ (ih hstripped hcols)
      unfold slice at hcol
      split at hcol
      next hle =>
        cases hcol
        rcases harray with rfl | harray
        · have hc : c = [] := by simp_all
          simp [hc]
        · have hpart := forall₂_take c.length (forall₂_drop done.length harray)
          simpa using hpart
      next => cases hcol

theorem batched_spliceBatches (done : List Bytes)
    (harrays : List.Forall₂ (ArrayOf lib (done ++ chunks.flatten)) schema arrays)
    (hstripped : Batched lib (schema.filter fun f => !isManual f) chunks stripped)
    (h : spliceBatches lib schema arrays done.length stripped = .ok bs) : Batched lib schema chunks bs := by
  induction hstripped generalizing done bs with
  | nil =>
    cases h
    exact .nil
  | @cons c b chunks stripped hb _ ih =>
    obtain ⟨columns, hcolumns, h⟩ := Fallible.bind_eq_ok.1 h
    split at h
    · obtain ⟨rest, hrest, h⟩ := Fallible.bind_eq_ok.1 h
      cases h
      rw [hb.1] at hcolumns hrest
      refine .cons ⟨hb.1, holds_spliceColumns harrays hb.2 hcolumns⟩ (ih (done ++ c) ?_ ?_)
      · simpa using harrays
      · simpa using hrest
    · cases h

theorem column_of_batched (h : Batched lib schema chunks bs) :
    (bs.map Batch.numRows).sum = chunks.flatten.length ∧ ∀ (j : ℕ) (f : Column), schema[j]? = some f →
      List.Forall₂ (fun line x => form lib f line = some x) chunks.flatten (column bs j) := by
  induction h with
  | nil => exact ⟨rfl, fun _ _ _ => .nil⟩
  | @cons c b chunks bs hb _ ih =>
    refine ⟨by simp [hb.1, ih.1], fun j f hf => ?_⟩
    obtain ⟨hj, rfl⟩ := List.getElem?_eq_some_iff.1 hf
    have hj' : j < b.columns.length := hb.2.length_eq ▸ hj
    have hcol := hb.2.get hj hj'
    have hcolumn : column (b :: bs) j = b.columns.getD j [] ++ column bs j := flatMap_cons
    rw [hcolumn, getD_eq_getElem?_getD, getElem?_eq_getElem hj', Option.getD_some]
    exact rel_append hcol (ih.2 j _ hf)

/-! ### Lines and rows -/

variable [LinearOrder F] [FloorRing F]

def parseNdjson (lib : Lib F A) (bytes : Bytes) (schema : Schema) : Except (NdjsonError F) (List (Batch F A)) := do
  let bytes := EventTime.populateAtColumn lib.toLib bytes schema
  match schema.findSome? unsupportedInner with
  | some e => .error e
  | none =>
    if schema.any isManual then
      let stripped ← arrowBatches lib (schema.filter fun f => !isManual f) bytes
      let rows ← parseLines lib bytes
      let arrays ← schema.mapM (manualArray lib rows)
      spliceBatches lib schema arrays 0 stripped
    else arrowBatches lib schema bytes

/-- The line as it is parsed: an object without an `at` has got one. -/
def timed (lib : Lib F A) (schema : Schema) (line : Bytes) : Bytes :=
  if EventTime.hasAtTimestamp schema then EventTime.rewriteLine lib.toLib line else line

/-- **The rows are the lines**: each line that is not blank is one value, there are as many rows, and each column holds in
each row what it is to hold for the line. -/
def Aligned (lib : Lib F A) (bytes : Bytes) (schema : Schema) (batches : List (Batch F A)) : Prop :=
  let ls := (nonBlank (lines bytes)).map (timed lib schema)
  (∀ line ∈ ls, (lib.fromSlice line).isSome) ∧ (batches.map Batch.numRows).sum = ls.length ∧
    ∀ (j : ℕ) (f : Column), schema[j]? = some f →
      List.Forall₂ (fun line x => form lib f line = some x) ls (column batches j)

/-- **`arrow-json` decodes the records in order**: a stream each of whose lines is one JSON value has these records. -/
def DecodesLines (lib : Lib F A) : Prop :=
  ∀ (bytes : Bytes) (batches : List (List Bytes)), lib.decode bytes = some batches →
    (∀ line ∈ nonBlank (lines bytes), (lib.fromSlice line).isSome) → batches.flatten = nonBlank (lines bytes)

theorem nonBlank_populateAtColumn (h : EventTime.WritesAll lib.toLib (lines bytes)) :
    nonBlank (lines (EventTime.populateAtColumn lib.toLib bytes schema)) =
      (nonBlank (lines bytes)).map (timed lib schema) := by
  unfold timed
  by_cases hat : EventTime.hasAtTimestamp schema = true
  · simp only [hat, if_true]
    rw [EventTime.nonBlank_populateAtColumn h hat, EventTime.nonBlank_rewrite h]
  · simp [EventTime.populateAtColumn, hat]

theorem isSome_timed (h : EventTime.WritesAll lib.toLib (lines bytes)) {line : Bytes}
    (hline : line ∈ nonBlank (lines bytes)) :
    (lib.fromSlice (timed lib schema line)).isSome = (lib.fromSlice line).isSome := by
  obtain ⟨hmem, hblank⟩ := mem_filter.1 hline
  unfold timed
  split
  · rcases EventTime.rewriteLine_cases lib.toLib line with hsame | ⟨obj, time, hobj, hmissing, htime, heq⟩
    · rw [hsame]
    · obtain ⟨obj', hread, -⟩ := (h line hmem (by simpa using hblank) obj time hobj hmissing htime).readBack
      rw [heq, hread, hobj]
      rfl
  · rfl

/-- **When rows and lines are aligned.**  For every body and schema whose parse is accepted: exactly if a column of the
schema is read by hand, or every line that is not blank is one JSON value. -/
theorem rows_aligned_iff {batches : List (Batch F A)} (harrow : DecodesLines lib)
    (hserde : EventTime.WritesAll lib.toLib (lines bytes)) (h : parseNdjson lib bytes schema = .ok batches) :
    Aligned lib bytes schema batches ↔
      schema.any isManual = true ∨ ∀ line ∈ nonBlank (lines bytes), (lib.fromSlice line).isSome := by
  have hsome : (∀ line ∈ (nonBlank (lines bytes)).map (timed lib schema), (lib.fromSlice line).isSome) ↔
      ∀ line ∈ nonBlank (lines bytes), (lib.fromSlice line).isSome := by
    rw [forall_mem_map]
    exact forall₂_congr fun line hline => by rw [isSome_timed hserde hline]
  refine ⟨fun haligned => .inr (hsome.1 haligned.1), fun hcond => ?_⟩
  unfold parseNdjson at h
  dsimp only at h
  unfold Aligned
  rw [← nonBlank_populateAtColumn hserde] at hsome ⊢
  split at h
  · cases h
  split at h
  next hmanual =>
    obtain ⟨stripped, hstripped, h⟩ := Fallible.bind_eq_ok.1 h
    obtain ⟨rows, hrows, h⟩ := Fallible.bind_eq_ok.1 h
    obtain ⟨arrays, harrays, hbatches⟩ := Fallible.bind_eq_ok.1 h
    obtain ⟨chunks, hdecode, hbatched⟩ := batched_arrowBatches hstripped (by simp)
    obtain ⟨hvalues, rfl⟩ := parseLines_eq_ok hrows
    have hchunks := harrow _ chunks hdecode hvalues
    rw [← hchunks, Fallible.mapM_eq_ok_iff] at harrays
    rw [← hchunks] at hvalues ⊢
    exact ⟨hvalues, column_of_batched (batched_spliceBatches []
      (harrays.imp fun f o ho => arrayOf_manualArray ho) hbatched hbatches)⟩
  next hnone =>
    have hvalues := hsome.2 (hcond.resolve_left hnone)
    obtain ⟨chunks, hdecode, hbatched⟩ := batched_arrowBatches h (by simpa using hnone)
    have hchunks := harrow _ chunks hdecode hvalues
    rw [← hchunks] at hvalues ⊢
    exact ⟨hvalues, column_of_batched hbatched⟩

end Parser

section Example

open EventTime (ascii)

def exampleLib : Lib ℚ Unit where
  fromSlice line := if line = ascii "\x7b\x7d" then some (.obj []) else none
  toWriter _ := []
  toRfc3339 _ := ""
  decode bytes := some [(nonBlank (lines bytes)).flatMap fun line =>
    if line = ascii "\x7b\x7d\x7b\x7d" then [ascii "\x7b\x7d", ascii "\x7b\x7d"] else [line]]
  cell _ _ := some ()
  toF32 := id
  toVec _ := []
  asBytes _ := []
  tryNew _ _ := true

theorem eq_of_fromSlice_exampleLib {line : Bytes} {v : Json ℚ} (h : exampleLib.fromSlice line = some v) :
    line = ascii "\x7b\x7d" ∧ v = .obj [] := by
  simp_all [exampleLib]

theorem decodesLines_exampleLib : DecodesLines exampleLib := by
  intro bytes batches h hlines
  cases h
  generalize nonBlank (lines bytes) = ls at hlines
  induction ls with
  | nil => rfl
  | cons line ls ih =>
    obtain ⟨hline, hrest⟩ := forall_mem_cons.1 hlines
    obtain ⟨v, hv⟩ := Option.isSome_iff_exists.1 hline
    obtain ⟨rfl, -⟩ := eq_of_fromSlice_exampleLib hv
    simpa [ascii] using ih hrest

theorem writesAll_exampleLib (ls : List Bytes) : EventTime.WritesAll exampleLib.toLib ls := by
  intro line _ _ obj time hobj _ htime
  obtain ⟨-, hv⟩ := eq_of_fromSlice_exampleLib hobj
  cases hv
  cases htime

def body : Column := .new "body" .utf8 true

/-- Two objects with a blank line between them, for a table with a binary column. -/
theorem rows_aligned_iff_two : ∃ batches,
    parseNdjson exampleLib (ascii "\x7b\x7d\n\n\x7b\x7d") [body, .new "props" .binary true] = .ok batches ∧
      Aligned exampleLib (ascii "\x7b\x7d\n\n\x7b\x7d") [body, .new "props" .binary true] batches :=
  ⟨_, rfl, (rows_aligned_iff decodesLines_exampleLib (writesAll_exampleLib _) rfl).2 (.inl rfl)⟩

/-- **Two objects on one line** are two rows of a table without vector and binary columns. -/
theorem two_rows_of_one_line : ∃ batches, parseNdjson exampleLib (ascii "\x7b\x7d\x7b\x7d") [body] = .ok batches ∧
    ¬ Aligned exampleLib (ascii "\x7b\x7d\x7b\x7d") [body] batches :=
  ⟨[⟨2, [[.native (), .native ()]]⟩], rfl, fun h => by cases h.2.1⟩

end Example

end NdjsonRows
