/-
**The fields of an NDJSON body.**

A body that is posted with schema evolution on is read twice.  The first reading looks for keys that
are no column of the table and adds a column for some of them: at most `32` for a request, only for
names that are identifiers, and one for keys that differ in their case.
-/

import Pensieve.CatalogTypes
import Pensieve.Fallible
import Pensieve.Rows

namespace Ndjson

open List
open Catalog (Json)

abbrev Text := List Char

variable {F A : Type}

/-! ### Tables and records -/

/-- `DataType`, as far as the parser tells types apart; a list of a fixed size has the type of its items. -/
inductive DataType where
  | timestamp
  | utf8
  | binary
  | largeBinary
  | float32
  | fixedSizeList (inner : DataType) (dim : ℕ)
  | other (name : Text)
  deriving DecidableEq

structure Column where
  name : Text
  dataType : DataType
  nullable : Bool
  deriving DecidableEq

abbrev Schema := List Column

def defaultTableSchema : Schema :=
  [⟨"at".toList, .timestamp, true⟩, ⟨"label".toList, .utf8, true⟩, ⟨"body".toList, .utf8, true⟩,
    ⟨"props".toList, .binary, true⟩]

/-- A JSON object of the body, in the order of its map, and whether it stands alone on its line. -/
structure Record (F : Type) where
  fields : List (Text × Json F)
  ownLine : Bool
  nodup : (fields.map Prod.fst).Nodup

namespace Record

def keys (r : Record F) : List Text := r.fields.map Prod.fst

/-- `row.get(name)` -/
def get (r : Record F) (name : Text) : Option (Json F) := r.fields.lookup name

theorem get_of_mem {r : Record F} {k : Text} {v : Json F} (h : (k, v) ∈ r.fields) : r.get k = some v :=
  Rows.lookup_of_mem r.nodup h

end Record

/-! ### Schema evolution -/

/-- `to_ascii_lowercase` -/
def lower (s : Text) : Text := s.map Char.toLower

def isAsciiLower (c : Char) : Bool := 'a' ≤ c ∧ c ≤ 'z'

def isAsciiDigit (c : Char) : Bool := '0' ≤ c ∧ c ≤ '9'

def isSafeColumnIdent (name : Text) : Bool :=
  if name.isEmpty ∨ 63 < (name.map Char.utf8Size).sum then false
  else if name ∈ ["props".toList, "at".toList, "label".toList, "body".toList] then false
  else
    match name with
    | [] => false
    | first :: chars =>
      if !isAsciiLower first ∧ first ≠ '_' then false
      else chars.all fun c => isAsciiLower c || isAsciiDigit c || c == '_'

/-- `MAX_NEW_COLUMNS_PER_REQUEST` -/
def maxNewColumns : ℕ := 32

structure Scan where
  toAdd : List Text
  seen : List Text
  deriving DecidableEq

def scanKeys (known : List Text) : List Text → Scan → Scan
  | [], s => s
  | key :: keys, s =>
    if lower key ∈ known ∨ lower key ∈ s.seen then scanKeys known keys s
    else if !isSafeColumnIdent (lower key) then scanKeys known keys s
    else
      let s' : Scan := ⟨s.toAdd ++ [key], s.seen ++ [lower key]⟩
      if maxNewColumns ≤ s'.toAdd.length then s' else scanKeys known keys s'

def scanRecords (known : List Text) : List (Record F) → Scan → Scan
  | [], s => s
  | r :: records, s =>
    let s' := scanKeys known r.keys s
    if maxNewColumns ≤ s'.toAdd.length then s' else scanRecords known records s'

/-- What the catalog answers to `alter_table_add_column`. -/
inductive Answer where
  | ok
  | locked
  | failed
  deriving DecidableEq

/-- The attempts at one column, of which `answers` gives the outcomes; `left` retries are left. -/
def alterLoop (answers : ℕ → Answer) : ℕ → ℕ → Bool
  | attempt, left =>
    match answers attempt with
    | .ok => true
    | .failed => false
    | .locked =>
      match left with
      | 0 => false
      | left + 1 => alterLoop answers (attempt + 1) left

def maxAttempts : ℕ := 10

/-- What a request finds outside: the catalog's answers for a column, whether the table is found again, and whether the
rows are committed. -/
structure Calls where
  alter : Text → ℕ → Answer
  lookup : Bool
  write : Bool

def Calls.adds (calls : Calls) (column : Text) : Bool := alterLoop (calls.alter column) 0 maxAttempts

def newColumn (name : Text) : Column := ⟨name, .utf8, true⟩

/-- `evolve_schema_for_records`: the schema of the table afterwards. -/
def evolveSchema (calls : Calls) (schema : Schema) (records : List (Record F)) : Option Schema :=
  if records.isEmpty then some schema
  else
    let toAdd := (scanRecords (schema.map fun c => lower c.name) records ⟨[], []⟩).toAdd
    if toAdd.isEmpty then some schema
    else if calls.lookup then some (schema ++ (toAdd.filter calls.adds).map newColumn)
    else none

/-! ### The parser -/

/-- What a row has in a column: nothing, what `arrow-json` reads, the text of a dynamic value, or a vector. -/
inductive Cell (F A : Type) where
  | null
  | native (x : A)
  | bytes (b : List UInt8)
  | vector (xs : List (Json F))

inductive NdjsonError (F : Type) where
  | arrow
  | parse
  | vectorDimensionMismatch (column : Text) (dimension got : ℕ)
  | vectorWrongType (column got : Text)
  | vectorNonNumeric (column : Text) (index : ℕ) (value : Json F)
  | vectorUnsupportedInner (column : Text) (got : DataType)

/-- The libraries: what `arrow-json` reads a value of a column as, what `RecordBatch::try_new` accepts, the time that
the aliases of `at` give, `serde_json::to_vec`, the bytes of a string, and the fields of the object that a stored value
spells. -/
structure Lib (F A : Type) where
  read : Column → Option (Json F) → Option (Cell F A)
  tryNew : Schema → List (List (Cell F A)) → Bool
  resolveAt : Record F → Option Text
  toVec : Json F → List UInt8
  asBytes : String → List UInt8
  spells : Cell F A → List (Text × Json F)

variable (lib : Lib F A)

def isNull : Json F → Bool
  | .null => true
  | _ => false

/-- `obj.insert(key, value)` -/
def Record.insert (r : Record F) (key : Text) (value : Json F) : Record F where
  fields := r.fields.filter (·.1 ≠ key) ++ [(key, value)]
  ownLine := r.ownLine
  nodup := by
    rw [map_append, nodup_append]
    refine ⟨r.nodup.sublist (filter_sublist.map _), by simp, ?_⟩
    intro a ha b hb hab
    obtain ⟨p, hp, rfl⟩ := mem_map.1 ha
    rw [mem_filter] at hp
    simp only [map_cons, map_nil, mem_singleton] at hb
    simp_all

def populateAt (schema : Schema) (r : Record F) : Record F :=
  if schema.any fun c => c.name = "at".toList ∧ c.dataType = .timestamp then
    if r.ownLine ∧ ((r.get "at".toList).all isNull) then
      match lib.resolveAt r with
      | some time => r.insert "at".toList (.str (String.ofList time))
      | none => r
    else r
  else r

/-- The columns that `arrow-json` cannot read. -/
def Column.isManual (c : Column) : Bool :=
  match c.dataType with
  | .fixedSizeList _ _ | .binary | .largeBinary => true
  | _ => false

def Column.unsupportedInner (c : Column) : Option (NdjsonError F) :=
  match c.dataType with
  | .fixedSizeList inner _ => if inner = .float32 then none else some (.vectorUnsupportedInner c.name inner)
  | _ => none

def isNumber : Json F → Bool
  | .int _ | .float _ => true
  | _ => false

def typeName : Json F → Text
  | .null => "null".toList
  | .bool _ => "bool".toList
  | .int _ | .float _ => "number".toList
  | .str _ => "string".toList
  | .arr _ => "array".toList
  | .obj _ => "object".toList

def vectorCell (c : Column) (dim : ℕ) (r : Record F) : Except (NdjsonError F) (Cell F A) :=
  match r.get c.name with
  | none => .error (.vectorWrongType c.name "missing".toList)
  | some (.arr items) =>
    if items.length ≠ dim then .error (.vectorDimensionMismatch c.name dim items.length)
    else
      match items.zipIdx.find? fun p => !isNumber p.1 with
      | some (value, index) => .error (.vectorNonNumeric c.name index value)
      | none => .ok (.vector items)
  | some other => .error (.vectorWrongType c.name (typeName other))

def binaryCell (c : Column) (r : Record F) : Cell F A :=
  match r.get c.name with
  | none | some .null => .null
  | some (.str s) => .bytes (lib.asBytes s)
  | some other => .bytes (lib.toVec other)

def manualCell (c : Column) (r : Record F) : Except (NdjsonError F) (Cell F A) :=
  match c.dataType with
  | .fixedSizeList _ dim => vectorCell c dim r
  | _ => .ok (binaryCell lib c r)

/-- A cell of a column that `arrow-json` reads. -/
def arrowCell (c : Column) (r : Record F) : Except (NdjsonError F) (Cell F A) :=
  match lib.read c (r.get c.name) with
  | some cell => .ok cell
  | none => .error .arrow

def splice : Schema → List (List (Cell F A)) → List (List (Cell F A)) → List (List (Cell F A))
  | [], _, _ => []
  | c :: schema, manual, native =>
    if c.isManual then manual.headD [] :: splice schema manual.tail native
    else native.headD [] :: splice schema manual native.tail

/-- `parse_ndjson`, the batches one after the other: an array for each column. -/
def parseNdjson (records : List (Record F)) (schema : Schema) : Except (NdjsonError F) (List (List (Cell F A))) := do
  let records := records.map (populateAt lib schema)
  match schema.findSome? Column.unsupportedInner with
  | some e => .error e
  | none =>
    let native ← (schema.filter (!·.isManual)).mapM fun c => records.mapM (arrowCell lib c)
    if schema.all (!·.isManual) then return native
    else if !records.all (·.ownLine) then .error .parse
    else
      let manual ← (schema.filter (·.isManual)).mapM fun c => records.mapM (manualCell lib c)
      let columns := splice schema manual native
      if records.isEmpty ∨ lib.tryNew schema columns then return columns else .error .arrow

/-! ### The request -/

inductive Refusal (F : Type) where
  | schemaEvolveFailed
  | badRequestBody (e : NdjsonError F)
  | ingestFailed

def schemaFor (calls : Calls) (schema : Schema) (records : List (Record F)) : Option Schema :=
  if records.all (·.ownLine) then evolveSchema calls schema records else some schema

/-- A request with schema evolution on, for a table of a schema: the schema that the rows are written with, and an array
for each of its columns. -/
def ingest (calls : Calls) (schema : Schema) (records : List (Record F)) :
    Except (Refusal F) (Schema × List (List (Cell F A))) :=
  match schemaFor calls schema records with
  | none => .error .schemaEvolveFailed
  | some schema =>
    match parseNdjson lib records schema with
    | .error e => .error (.badRequestBody e)
    | .ok columns => if calls.write then .ok (schema, columns) else .error .ingestFailed

/-! ### What is to be kept -/

def form (c : Column) (value : Option (Json F)) : Option (Cell F A) :=
  match c.dataType with
  | .fixedSizeList _ _ =>
    match value with
    | some (.arr items) => some (.vector items)
    | _ => none
  | .binary | .largeBinary =>
    match value with
    | none | some .null => some .null
    | some (.str s) => some (.bytes (lib.asBytes s))
    | some other => some (.bytes (lib.toVec other))
  | _ => lib.read c value

/-- Row `i` has `x` in the column `c`. -/
def HasCell (schema : Schema) (columns : List (List (Cell F A))) (i : ℕ) (c : Column) (x : Cell F A) : Prop :=
  ∃ (j : ℕ) (array : List (Cell F A)), schema[j]? = some c ∧ columns[j]? = some array ∧ array[i]? = some x

/-- **No field is dropped**: each one that is not null is in the column of its name or inside the row's `props`. -/
def Kept (schema : Schema) (columns : List (List (Cell F A))) (records : List (Record F)) : Prop :=
  ∀ (i : ℕ) (r : Record F), records[i]? = some r → ∀ (k : Text) (v : Json F), (k, v) ∈ r.fields → v ≠ .null →
    (∃ c x, c.name = k ∧ HasCell schema columns i c x ∧ form lib c (some v) = some x) ∨
      ∃ c x, c.name = "props".toList ∧ HasCell schema columns i c x ∧ (k, v) ∈ lib.spells x

def IsNew (schema : Schema) (name : Text) : Prop :=
  name ∉ schema.map (fun c => lower c.name) ∧ isSafeColumnIdent name = true

instance (schema : Schema) : DecidablePred (IsNew schema) := fun _ => instDecidableAnd

def Calls.Adds (calls : Calls) (column : Text) : Prop :=
  ∃ n ≤ maxAttempts, calls.alter column n = .ok ∧ ∀ m < n, calls.alter column m = .locked

/-- **The key gets a column**: every record is on a line of its own, the catalog adds the column, and before the key's
first place the body has no other spelling of it and fewer than `32` new names. -/
def Promoted (calls : Calls) (schema : Schema) (records : List (Record F)) (k : Text) : Prop :=
  (∀ r ∈ records, r.ownLine = true) ∧ calls.Adds k ∧ IsNew schema (lower k) ∧
    ∃ pre post, records.flatMap Record.keys = pre ++ k :: post ∧ lower k ∉ pre.map lower ∧
      ((pre.map lower).toFinset.filter (IsNew schema)).card < maxNewColumns

/-- **The condition**: each field that is not null is a column of the table, gets one, or is in what the record itself
has for `props`. -/
def Fits (calls : Calls) (schema : Schema) (records : List (Record F)) : Prop :=
  ∀ r ∈ records, ∀ (k : Text) (v : Json F), (k, v) ∈ r.fields → v ≠ .null →
    k ∈ schema.map Column.name ∨ Promoted calls schema records k ∨ ∃ c ∈ schema, c.name = "props".toList ∧
        ∃ x, form lib c (r.get "props".toList) = some x ∧ (k, v) ∈ lib.spells x

section Scan

variable {known : List Text} {s : Scan}

theorem scanKeys_append (hs : s.toAdd.length < maxNewColumns) (keys rest : List Text) :
    scanKeys known (keys ++ rest) s =
      if maxNewColumns ≤ (scanKeys known keys s).toAdd.length then scanKeys known keys s
      else scanKeys known rest (scanKeys known keys s) := by
  induction keys generalizing s with
  | nil => simp [scanKeys, Nat.not_le.2 hs]
  | cons key keys ih =>
    simp only [cons_append, scanKeys]
    split
    · exact ih hs
    · split
      · exact ih hs
      · by_cases hcap : maxNewColumns ≤ (s.toAdd ++ [key]).length
        · simp only [hcap, if_true]
        · simp only [hcap, if_false]
          exact ih (by simpa using hcap)

theorem scanRecords_eq (hs : s.toAdd.length < maxNewColumns) (records : List (Record F)) :
    scanRecords known records s = scanKeys known (records.flatMap Record.keys) s := by
  induction records generalizing s with
  | nil => rfl
  | cons r records ih =>
    rw [flatMap_cons, scanKeys_append hs]
    simp only [scanRecords]
    split
    · rfl
    · rename_i hcap
      exact ih (by simpa using hcap)

end Scan

/-- The names that a scan has still to see, after `seen`. -/
def unseen (schema : Schema) (seen names : List Text) : Finset Text :=
  (names.toFinset.filter (IsNew schema)) \ seen.toFinset

theorem unseen_skip {schema : Schema} {seen names : List Text} {n : Text} (h : ¬ IsNew schema n ∨ n ∈ seen) :
    unseen schema seen (n :: names) = unseen schema seen names := by
  ext a
  simp only [unseen, Finset.mem_sdiff, Finset.mem_filter, mem_toFinset, mem_cons]
  constructor
  · rintro ⟨⟨rfl | ha, hnew⟩, hseen⟩
    · exact absurd hnew (h.resolve_right hseen)
    · exact ⟨⟨ha, hnew⟩, hseen⟩
  · rintro ⟨⟨ha, hnew⟩, hseen⟩
    exact ⟨⟨.inr ha, hnew⟩, hseen⟩

theorem card_unseen_add {schema : Schema} {seen names : List Text} {n : Text} (hnew : IsNew schema n)
    (hn : n ∉ seen) : (unseen schema seen (n :: names)).card = (unseen schema (seen ++ [n]) names).card + 1 := by
  have heq : unseen schema seen (n :: names) = insert n (unseen schema (seen ++ [n]) names) := by
    ext a
    simp only [unseen, Finset.mem_sdiff, Finset.mem_filter, mem_toFinset, mem_cons, Finset.mem_insert,
      mem_append, not_mem_nil, or_false, not_or]
    constructor
    · rintro ⟨⟨ha, h⟩, hseen⟩
      by_cases han : a = n
      · exact .inl han
      · exact .inr ⟨⟨ha.resolve_left han, h⟩, hseen, han⟩
    · rintro (rfl | ⟨⟨ha, h⟩, hseen, -⟩)
      · exact ⟨⟨.inl rfl, hnew⟩, hn⟩
      · exact ⟨⟨.inr ha, h⟩, hseen⟩
  rw [heq, Finset.card_insert_of_notMem]
  simp [unseen]

/-- The scan of `keys` from `s` on comes to a first spelling `k` of a new name while there is room. -/
def Finds (schema : Schema) (keys : List Text) (s : Scan) (k : Text) : Prop :=
  IsNew schema (lower k) ∧ lower k ∉ s.seen ∧ ∃ pre post, keys = pre ++ k :: post ∧ lower k ∉ pre.map lower ∧
      s.toAdd.length + (unseen schema s.seen (pre.map lower)).card < maxNewColumns

section Finds

variable {schema : Schema} {keys : List Text} {s : Scan} {key k : Text}

theorem finds_skip (h : ¬ IsNew schema (lower key) ∨ lower key ∈ s.seen) :
    Finds schema (key :: keys) s k ↔ Finds schema keys s k := by
  constructor
  · rintro ⟨hnew, hseen, pre, post, heq, hpre, hcard⟩
    cases pre with
    | nil =>
      obtain ⟨rfl, -⟩ := List.cons.inj heq
      exact absurd hnew (h.resolve_right hseen)
    | cons p pre =>
      obtain ⟨rfl, hkeys⟩ := List.cons.inj heq
      rw [map_cons, unseen_skip h] at hcard
      exact ⟨hnew, hseen, pre, post, hkeys, fun hmem => hpre (mem_cons_of_mem _ hmem), hcard⟩
  · rintro ⟨hnew, hseen, pre, post, rfl, hpre, hcard⟩
    refine ⟨hnew, hseen, key :: pre, post, rfl, ?_, by rwa [map_cons, unseen_skip h]⟩
    rw [map_cons, mem_cons, not_or]
    refine ⟨fun heq => ?_, hpre⟩
    rw [← heq] at h
    exact h.elim (· hnew) hseen

theorem finds_add (hkey : IsNew schema (lower key)) (hmem : lower key ∉ s.seen) (hs : s.toAdd.length < maxNewColumns) :
    Finds schema (key :: keys) s k ↔ k = key ∨ Finds schema keys ⟨s.toAdd ++ [key], s.seen ++ [lower key]⟩ k := by
  have hcount (pre : List Text) : (unseen schema s.seen ((key :: pre).map lower)).card =
      (unseen schema (s.seen ++ [lower key]) (pre.map lower)).card + 1 := by
    rw [map_cons, card_unseen_add hkey hmem]
  constructor
  · rintro ⟨hnew, hseen, pre, post, heq, hpre, hcard⟩
    cases pre with
    | nil => exact .inl (List.cons.inj heq).1.symm
    | cons p pre =>
      obtain ⟨rfl, hkeys⟩ := List.cons.inj heq
      rw [map_cons, mem_cons, not_or] at hpre
      rw [hcount] at hcard
      refine .inr ⟨hnew, by simp [hseen, hpre.1], pre, post, hkeys, hpre.2, ?_⟩
      simp only [length_append, length_singleton]
      omega
  · rintro (rfl | ⟨hnew, hseen, pre, post, rfl, hpre, hcard⟩)
    · refine ⟨hkey, hmem, [], keys, rfl, by simp, ?_⟩
      simpa [unseen] using hs
    · rw [mem_append, mem_singleton, not_or] at hseen
      simp only [length_append, length_singleton] at hcard
      refine ⟨hnew, hseen.1, key :: pre, post, rfl, by simp [hseen.2, hpre], ?_⟩
      rw [hcount]
      omega

theorem not_finds_full (hs : maxNewColumns ≤ s.toAdd.length) : ¬ Finds schema keys s k := by
  rintro ⟨-, -, pre, post, -, -, hcard⟩
  omega

theorem mem_scanKeys (hs : s.toAdd.length < maxNewColumns) :
    k ∈ (scanKeys (schema.map fun c => lower c.name) keys s).toAdd ↔ k ∈ s.toAdd ∨ Finds schema keys s k := by
  induction keys generalizing s with
  | nil => simp [scanKeys, Finds]
  | cons key keys ih =>
    simp only [scanKeys]
    split
    · rename_i h
      rw [ih hs, finds_skip (h.imp_left fun hknown hnew => hnew.1 hknown)]
    · rename_i hmem
      rw [not_or] at hmem
      split
      · rename_i h
        rw [ih hs, finds_skip (.inl fun hnew => by simp [hnew.2] at h)]
      · rename_i hsafe
        rw [finds_add ⟨hmem.1, by simpa using hsafe⟩ hmem.2 hs, ← or_assoc, ← mem_singleton, ← mem_append]
        split
        · rename_i hcap
          exact (or_iff_left (not_finds_full hcap)).symm
        · rename_i hcap
          exact ih (by simpa using hcap)

end Finds

/-! ### What the schema becomes -/

variable {calls : Calls} {schema schema' : Schema} {records : List (Record F)}

theorem alterLoop_iff (answers : ℕ → Answer) (attempt left : ℕ) : alterLoop answers attempt left = true ↔
      ∃ n ≤ left, answers (attempt + n) = .ok ∧ ∀ m < n, answers (attempt + m) = .locked := by
  induction left generalizing attempt with
  | zero =>
    unfold alterLoop
    cases hanswer : answers attempt <;> simp [hanswer]
  | succ left ih =>
    unfold alterLoop
    cases hanswer : answers attempt with
    | ok => exact iff_of_true rfl ⟨0, by omega, hanswer, by simp⟩
    | failed =>
      refine iff_of_false (by simp) ?_
      rintro ⟨n, -, hok, hlocked⟩
      cases n with
      | zero => simp [hanswer] at hok
      | succ n => simpa [hanswer] using hlocked 0 (by omega)
    | locked =>
      simp only [ih]
      constructor
      · rintro ⟨n, hn, hok, hlocked⟩
        refine ⟨n + 1, by omega, by rwa [Nat.add_comm n 1, ← Nat.add_assoc], ?_⟩
        intro m hm
        cases m with
        | zero => exact hanswer
        | succ m => rw [Nat.add_comm m 1, ← Nat.add_assoc]; exact hlocked m (by omega)
      · rintro ⟨n, hn, hok, hlocked⟩
        cases n with
        | zero => simp [hanswer] at hok
        | succ n =>
          refine ⟨n, by omega, by rwa [Nat.add_assoc, Nat.add_comm 1 n], ?_⟩
          intro m hm
          rw [Nat.add_assoc, Nat.add_comm 1 m]
          exact hlocked (m + 1) (by omega)

theorem adds_iff (calls : Calls) (column : Text) : calls.adds column = true ↔ calls.Adds column := by
  rw [Calls.adds, alterLoop_iff]
  simp only [Nat.zero_add]
  rfl

theorem evolveSchema_eq (h : evolveSchema calls schema records = some schema') :
    schema' = schema ++ ((scanRecords (schema.map fun c => lower c.name) records ⟨[], []⟩).toAdd.filter
      calls.adds).map newColumn := by
  unfold evolveSchema at h
  split at h
  · rename_i hempty
    rw [List.isEmpty_iff] at hempty
    subst hempty
    cases h
    simp [scanRecords]
  · dsimp only at h
    split at h
    · rename_i hempty
      rw [List.isEmpty_iff] at hempty
      cases h
      simp [hempty]
    · split at h
      · exact (Option.some.inj h).symm
      · cases h

variable {c : Column}

theorem mem_schemaFor (h : schemaFor calls schema records = some schema') :
    c ∈ schema' ↔ c ∈ schema ∨ ∃ k, Promoted calls schema records k ∧ newColumn k = c := by
  have hstart : (⟨[], []⟩ : Scan).toAdd.length < maxNewColumns := by decide
  unfold schemaFor at h
  split at h
  · rename_i hall
    rw [all_eq_true] at hall
    rw [evolveSchema_eq h, mem_append, mem_map]
    refine or_congr_right (exists_congr fun k => and_congr_left fun _ => ?_)
    rw [mem_filter, adds_iff, scanRecords_eq hstart, mem_scanKeys hstart]
    simp only [Finds, Promoted, unseen, not_mem_nil, false_or, length_nil, Nat.zero_add, toFinset_nil,
      Finset.sdiff_empty, not_false_eq_true, true_and]
    exact ⟨fun ⟨hfinds, hadds⟩ => ⟨hall, hadds, hfinds⟩, fun ⟨_, hadds, hfinds⟩ => ⟨hfinds, hadds⟩⟩
  · rename_i hall
    cases h
    refine (or_iff_left ?_).symm
    rintro ⟨k, hpromoted, -⟩
    exact hall (all_eq_true.2 hpromoted.1)

theorem Promoted.ne_props {k : Text} (h : Promoted calls schema records k) : k ≠ "props".toList := by
  rintro rfl
  exact absurd h.2.2.1.2 (by decide)

/-! ### What an accepted body becomes -/

theorem forall₂_splice {P : Column → List (Cell F A) → Prop} {manual native : List (List (Cell F A))}
    (hmanual : List.Forall₂ P (schema.filter (·.isManual)) manual)
    (hnative : List.Forall₂ P (schema.filter (!·.isManual)) native) :
    List.Forall₂ P schema (splice schema manual native) := by
  induction schema generalizing manual native with
  | nil => exact .nil
  | cons c schema ih =>
    by_cases hc : c.isManual
    · rw [filter_cons_of_pos hc] at hmanual
      rw [filter_cons_of_neg (by simp [hc])] at hnative
      cases hmanual with
      | cons hhead htail =>
        simp only [splice, hc, if_true]
        exact .cons hhead (ih htail hnative)
    · rw [filter_cons_of_neg hc] at hmanual
      rw [filter_cons_of_pos (by simp [hc])] at hnative
      cases hnative with
      | cons hhead htail =>
        simp only [splice, hc]
        exact .cons hhead (ih hmanual htail)

variable {r : Record F} {x : Cell F A}

theorem form_of_manualCell (hc : c.isManual) (h : manualCell lib c r = .ok x) : form lib c (r.get c.name) = some x := by
  unfold manualCell at h
  unfold form
  unfold Column.isManual at hc
  cases hty : c.dataType with
  | fixedSizeList inner dim =>
    simp only [hty, vectorCell] at h
    split at h
    · cases h
    · rename_i items heq
      split at h
      · cases h
      · split at h
        · cases h
        · cases h
          simp only [heq]
    · cases h
  | binary | largeBinary =>
    simp only [hty, binaryCell, Except.ok.injEq] at h
    subst h
    dsimp only
    split <;> rfl
  | timestamp | utf8 | float32 | other => simp [hty] at hc

theorem form_of_arrowCell (hc : ¬ c.isManual) (h : arrowCell lib c r = .ok x) : form lib c (r.get c.name) = some x := by
  have hread : lib.read c (r.get c.name) = some x := by
    unfold arrowCell at h
    split at h
    · rename_i heq
      cases h
      exact heq
    · cases h
  unfold Column.isManual at hc
  unfold form
  cases hty : c.dataType with
  | fixedSizeList inner dim | binary | largeBinary => simp [hty] at hc
  | timestamp | utf8 | float32 | other => exact hread

theorem forall₂_arrays {p : Column → Bool} {f : Column → Record F → Except (NdjsonError F) (Cell F A)}
    {arrays : List (List (Cell F A))}
    (h : ((schema.filter p).mapM fun c => records.mapM (f c)) = .ok arrays)
    (hf : ∀ c r x, p c = true → f c r = .ok x → form lib c (r.get c.name) = some x) :
    List.Forall₂ (fun c array => List.Forall₂ (fun r x => form lib c (r.get c.name) = some x) records array)
      (schema.filter p) arrays := by
  have hp : ∀ c ∈ schema.filter p, p c = true := fun c hc => (mem_filter.1 hc).2
  have hboth := (forall₂_and_left _ _).2 ⟨hp, Fallible.mapM_eq_ok_iff.1 h⟩
  refine hboth.imp ?_
  rintro c array ⟨hc, harray⟩
  exact (Fallible.mapM_eq_ok_iff.1 harray).imp fun r x hx => hf c r x hc hx

variable {columns : List (List (Cell F A))}

/-- **An accepted body**: every column has, for every record, what it stores for the value under its name. -/
theorem parseNdjson_ok (h : parseNdjson lib records schema = .ok columns) :
    List.Forall₂ (fun c array => List.Forall₂ (fun r x => form lib c (r.get c.name) = some x)
      (records.map (populateAt lib schema)) array) schema columns := by
  unfold parseNdjson at h
  dsimp only at h
  generalize records.map (populateAt lib schema) = records at h ⊢
  split at h
  · cases h
  · cases hnative : ((schema.filter (!·.isManual)).mapM fun c => records.mapM (arrowCell lib c)) with
    | error e => rw [hnative] at h; cases h
    | ok native =>
      have hn := forall₂_arrays lib hnative fun c r x hc hx => form_of_arrowCell lib (by simpa using hc) hx
      rw [hnative] at h
      change (if _ then _ else _) = _ at h
      split at h
      · rename_i hall
        cases h
        rwa [filter_eq_self.2 (all_eq_true.1 hall)] at hn
      · split at h
        · cases h
        · cases hmanual : ((schema.filter (·.isManual)).mapM fun c => records.mapM (manualCell lib c)) with
          | error e => rw [hmanual] at h; cases h
          | ok manual =>
            have hm := forall₂_arrays lib hmanual fun c r x hc hx => form_of_manualCell lib hc hx
            rw [hmanual] at h
            change (if _ then _ else _) = _ at h
            split at h
            · cases h
              exact forall₂_splice hm hn
            · cases h

/-! ### The condition -/

theorem get_insert_of_ne {key k : Text} {value : Json F} (h : k ≠ key) : (r.insert key value).get k = r.get k := by
  unfold Record.get Record.insert
  dsimp only
  induction r.fields with
  | nil => simp [lookup_cons, beq_false_of_ne h]
  | cons p fields ih =>
    by_cases hp : p.1 = key
    · rw [filter_cons_of_neg (by simp [hp]), ih, lookup_cons, beq_false_of_ne (hp ▸ h)]
    · rw [filter_cons_of_pos (by simp [hp]), cons_append, lookup_cons, lookup_cons, ih]

theorem get_populateAt {k : Text} (h : k ≠ "at".toList ∨ ∃ v, r.get k = some v ∧ v ≠ .null) :
    (populateAt lib schema r).get k = r.get k := by
  unfold populateAt
  split
  · split
    · rename_i hat
      split
      · refine get_insert_of_ne ?_
        rcases h with h | ⟨v, hget, hv⟩
        · exact h
        · rintro rfl
          rw [hget] at hat
          cases v <;> simp_all [isNull]
      · rfl
    · rfl
  · rfl

theorem hasCell_of_parse (h : parseNdjson lib records schema = .ok columns) {i : ℕ}
    (hr : records[i]? = some r) (hc : c ∈ schema) :
    ∃ x, HasCell schema columns i c x ∧ form lib c ((populateAt lib schema r).get c.name) = some x := by
  have hall := parseNdjson_ok lib h
  obtain ⟨j, hj, rfl⟩ := mem_iff_getElem.1 hc
  have hj' : j < columns.length := hall.length_eq ▸ hj
  have hcells := hall.get hj hj'
  have hi : i < (records.map (populateAt lib schema)).length := by
    rw [length_map]
    exact (List.getElem?_eq_some_iff.1 hr).1
  have hi' : i < columns[j].length := hcells.length_eq ▸ hi
  refine ⟨columns[j][i], ⟨j, columns[j], by simp, by simp, by simp⟩, ?_⟩
  have hcell := hcells.get hi hi'
  simp only [get_eq_getElem, getElem_map] at hcell
  rwa [(List.getElem?_eq_some_iff.1 hr).2] at hcell

theorem form_of_hasCell (h : parseNdjson lib records schema = .ok columns) {i : ℕ}
    (hr : records[i]? = some r) (hx : HasCell schema columns i c x) :
    form lib c ((populateAt lib schema r).get c.name) = some x := by
  have hall := parseNdjson_ok lib h
  obtain ⟨j, array, hc, harray, hcell⟩ := hx
  obtain ⟨hj, rfl⟩ := List.getElem?_eq_some_iff.1 hc
  obtain ⟨hj', rfl⟩ := List.getElem?_eq_some_iff.1 harray
  obtain ⟨hi', rfl⟩ := List.getElem?_eq_some_iff.1 hcell
  have hcells := hall.get hj hj'
  obtain ⟨hi, rfl⟩ := List.getElem?_eq_some_iff.1 hr
  have hcell := hcells.get (by simpa using hi) hi'
  simpa using hcell

theorem HasCell.mem {i : ℕ} (h : HasCell schema columns i c x) : c ∈ schema := by
  obtain ⟨j, -, hc, -, -⟩ := h
  exact mem_of_getElem? hc

theorem ingest_ok (h : ingest lib calls schema records = .ok (schema', columns)) :
    schemaFor calls schema records = some schema' ∧ parseNdjson lib records schema' = .ok columns := by
  unfold ingest at h
  cases hschema : schemaFor calls schema records with
  | none => rw [hschema] at h; cases h
  | some evolved =>
    rw [hschema] at h
    dsimp only at h
    cases hparse : parseNdjson lib records evolved with
    | error e => rw [hparse] at h; cases h
    | ok arrays =>
      rw [hparse] at h
      dsimp only at h
      split at h
      · cases h
        exact ⟨rfl, hparse⟩
      · cases h

/-- **What an accepted request keeps**: it drops no field exactly when the body fits. -/
theorem kept_iff_fits {columns : List (List (Cell F A))}
    (h : ingest lib calls schema records = .ok (schema', columns)) :
    Kept lib schema' columns records ↔ Fits lib calls schema records := by
  obtain ⟨hschema, hparse⟩ := ingest_ok lib h
  constructor
  · intro hkept r hr k v hkv hv
    obtain ⟨i, hi⟩ := mem_iff_getElem?.1 hr
    rcases hkept i r hi k v hkv hv with ⟨c, x, rfl, hcell, -⟩ | ⟨c, x, hname, hcell, hspells⟩
    · rcases (mem_schemaFor hschema).1 hcell.mem with hc | ⟨k', hpromoted, rfl⟩
      · exact .inl (mem_map_of_mem hc)
      · exact .inr (.inl hpromoted)
    · rcases (mem_schemaFor hschema).1 hcell.mem with hc | ⟨k', hpromoted, rfl⟩
      · refine .inr (.inr ⟨c, hc, hname, x, ?_, hspells⟩)
        have hform := form_of_hasCell lib hparse hi hcell
        rwa [hname, get_populateAt lib (.inl (by decide))] at hform
      · exact absurd hname hpromoted.ne_props
  · intro hfits i r hi k v hkv hv
    have hr : r ∈ records := mem_of_getElem? hi
    have hget : r.get k = some v := Record.get_of_mem hkv
    have hown (c : Column) (hc : c ∈ schema') (hname : c.name = k) :
        ∃ c x, c.name = k ∧ HasCell schema' columns i c x ∧ form lib c (some v) = some x := by
      obtain ⟨x, hcell, hform⟩ := hasCell_of_parse lib hparse hi hc
      rw [hname, get_populateAt lib (.inr ⟨v, hget, hv⟩), hget] at hform
      exact ⟨c, x, hname, hcell, hform⟩
    rcases hfits r hr k v hkv hv with hk | hpromoted | ⟨c, hc, hname, x, hx, hspells⟩
    · obtain ⟨c, hc, hname⟩ := mem_map.1 hk
      exact .inl (hown c ((mem_schemaFor hschema).2 (.inl hc)) hname)
    · exact .inl (hown _ ((mem_schemaFor hschema).2 (.inr ⟨k, hpromoted, rfl⟩)) rfl)
    · obtain ⟨y, hcell, hform⟩ := hasCell_of_parse lib hparse hi ((mem_schemaFor hschema).2 (.inl hc))
      rw [hname, get_populateAt lib (.inl (by decide)), hx] at hform
      cases hform
      exact .inr ⟨c, x, hname, hcell, hspells⟩

/-! #### Records of strings -/

def stringLib : Lib Unit String where
  read _ value :=
    match value with
    | none | some .null => some .null
    | some (.str s) => some (.native s)
    | some _ => none
  tryNew _ _ := true
  resolveAt _ := none
  toVec _ := []
  asBytes s := s.toUTF8.toList
  spells _ := []

def good : Calls := ⟨fun _ _ => .ok, true, true⟩

/-- `{name: value}` -/
def single (name : Text) (value : String) : Record Unit := ⟨[(name, .str value)], true, by simp⟩

/-- `{"user":"7"}` -/
theorem kept_iff_fits_user : ∃ schema' columns,
    ingest stringLib good defaultTableSchema [single "user".toList "7"] = .ok (schema', columns) ∧
      (Kept stringLib schema' columns [single "user".toList "7"] ↔
        Fits stringLib good defaultTableSchema [single "user".toList "7"]) := by
  have h : ingest stringLib good defaultTableSchema [single "user".toList "7"] =
      .ok (defaultTableSchema ++ [newColumn "user".toList], [[.null], [.null], [.null], [.null], [.native "7"]]) := rfl
  exact ⟨_, _, h, kept_iff_fits stringLib h⟩

/-- **A key with a dash** gets no column: the request succeeds, and its value is nowhere. -/
theorem drops_dashed : ∃ schema' columns,
    ingest stringLib good defaultTableSchema [single "user-id".toList "7"] = .ok (schema', columns) ∧
      ¬ Kept stringLib schema' columns [single "user-id".toList "7"] := by
  have h : ingest stringLib good defaultTableSchema [single "user-id".toList "7"] =
      .ok (defaultTableSchema, [[.null], [.null], [.null], [.null]]) := rfl
  refine ⟨_, _, h, fun hkept => ?_⟩
  rcases hkept 0 _ rfl "user-id".toList (.str "7") (mem_singleton_self _) (by simp) with
    ⟨c, x, hname, hcell, -⟩ | ⟨c, x, -, -, hspells⟩
  · have hnone : ∀ c ∈ defaultTableSchema, c.name ≠ "user-id".toList := by decide
    exact hnone c hcell.mem hname
  · cases hspells

end Ndjson
