/-
**Stored schemas.**

The SQLite catalog keeps the schema of a table as a JSON document: for every column its name, a text
for its type, and whether it is nullable.
-/

import Pensieve.Fallible
import Pensieve.Rows
import Pensieve.Runs
import Pensieve.TenantScope

namespace TableSchema

open List
open Catalog (Json TenantId TableId SnapshotId SchemaSnapshotId Uuid)

/-! ### Arrow's types -/

inductive TimeUnit where
  | second
  | millisecond
  | microsecond
  | nanosecond
  deriving DecidableEq

inductive IntervalUnit where
  | yearMonth
  | dayTime
  | monthDayNano
  deriving DecidableEq

inductive UnionMode where
  | sparse
  | dense
  deriving DecidableEq

mutual
inductive DataType where
  | null
  | boolean
  | int8
  | int16
  | int32
  | int64
  | uInt8
  | uInt16
  | uInt32
  | uInt64
  | float16
  | float32
  | float64
  | timestamp (unit : TimeUnit) (tz : Option String)
  | date32
  | date64
  | time32 (unit : TimeUnit)
  | time64 (unit : TimeUnit)
  | duration (unit : TimeUnit)
  | interval (unit : IntervalUnit)
  | binary
  | fixedSizeBinary (width : Int)
  | largeBinary
  | binaryView
  | utf8
  | largeUtf8
  | utf8View
  | list (item : Field)
  | listView (item : Field)
  | fixedSizeList (item : Field) (dim : Int)
  | largeList (item : Field)
  | largeListView (item : Field)
  | struct (fields : Fields)
  | union (typeIds : List Int) (fields : Fields) (mode : UnionMode)
  | dictionary (key value : DataType)
  | decimal128 (precision scale : Int)
  | decimal256 (precision scale : Int)
  | map (entries : Field) (sorted : Bool)
  | runEndEncoded (runEnds values : Field)
  deriving DecidableEq

inductive Field where
  | mk (name : String) (dataType : DataType) (nullable : Bool) (metadata : List (String × String))
  deriving DecidableEq

inductive Fields where
  | nil
  | cons (field : Field) (fields : Fields)
  deriving DecidableEq
end

namespace Field

def name : Field → String
  | .mk name _ _ _ => name

def dataType : Field → DataType
  | .mk _ dataType _ _ => dataType

def isNullable : Field → Bool
  | .mk _ _ nullable _ => nullable

def new (name : String) (dataType : DataType) (nullable : Bool) : Field := .mk name dataType nullable []

variable (n : String) (t : DataType) (b : Bool) (m : List (String × String))

@[simp] theorem name_mk : (mk n t b m).name = n := rfl
@[simp] theorem dataType_mk : (mk n t b m).dataType = t := rfl
@[simp] theorem isNullable_mk : (mk n t b m).isNullable = b := rfl
@[simp] theorem name_new : (new n t b).name = n := rfl
@[simp] theorem dataType_new : (new n t b).dataType = t := rfl
@[simp] theorem isNullable_new : (new n t b).isNullable = b := rfl

end Field

abbrev Schema := List Field

def Schema.columns (schema : Schema) : List (String × DataType × Bool) :=
  schema.map fun f => (f.name, f.dataType, f.isNullable)

def Schema.names (schema : Schema) : List String := schema.map Field.name

inductive CatalogError where
  | tableNotFound (database name : String)
  | sql (message : String)
  deriving DecidableEq

/-! ### Texts of types -/

def splitSign : List Char → Bool × List Char
  | '-' :: digits => (true, digits)
  | '+' :: digits => (false, digits)
  | digits => (false, digits)

def parseI32 (s : List Char) : Option Int :=
  let (negative, digits) := splitSign s
  if digits = [] ∨ ¬ digits.all Char.isDigit then none
  else
    let n : Int := if negative then -(Nat.ofDigitChars 10 digits 0 : Int) else Nat.ofDigitChars 10 digits 0
    if -2 ^ 31 ≤ n ∧ n < 2 ^ 31 then some n else none

/-- The text of a type. `debug` is Arrow's own rendering of it. -/
def arrowTypeToString (debug : DataType → String) (ty : DataType) : String :=
  match ty with
  | .boolean => "bool"
  | .int32 => "int"
  | .int64 => "long"
  | .float64 => "real"
  | .utf8 | .largeUtf8 => "string"
  | .timestamp .nanosecond _ => "timestamp"
  | .binary | .largeBinary => "dynamic"
  | .fixedSizeList inner dim =>
    if inner.dataType = .float32 then "vector(" ++ toString dim ++ ")" else "arrow:" ++ debug ty
  | other => "arrow:" ++ debug other

def stringToArrowType (s : String) : Except CatalogError DataType :=
  if s = "bool" then .ok .boolean
  else if s = "int" then .ok .int32
  else if s = "long" then .ok .int64
  else if s = "real" then .ok .float64
  else if s = "string" then .ok .utf8
  else if s = "timestamp" then .ok (.timestamp .nanosecond none)
  else if s = "dynamic" then .ok .binary
  else if "vector(".toList <+: s.toList ∧ s.toList.getLast? = some ')' then
    let inner := (s.toList.drop 7).dropLast
    match parseI32 (Tenancy.trim inner) with
    | none => .error (.sql ("vector(N): N must be a positive integer, got '" ++ String.ofList inner ++ "'"))
    | some dim =>
      if dim ≤ 0 then .error (.sql ("vector(N): N must be > 0, got " ++ toString dim))
      else .ok (.fixedSizeList (.new "item" .float32 false) dim)
  else .error (.sql ("unsupported column type in schema: " ++ s))

/-! ### The document -/

variable {F : Type}

def asBool : Json F → Option Bool
  | .bool b => some b
  | _ => none

def okOrElse {α : Type} (x : Option α) (message : String) : Except CatalogError α :=
  match x with
  | some a => .ok a
  | none => .error (.sql message)

def fieldToJson (debug : DataType → String) (f : Field) : Json F :=
  .obj [("name", .str f.name), ("type", .str (arrowTypeToString debug f.dataType)), ("nullable", .bool f.isNullable)]

def schemaToJson (debug : DataType → String) (schema : Schema) : Json F :=
  .obj [("fields", .arr (schema.map (fieldToJson debug)))]

def jsonToField (f : Json F) : Except CatalogError Field := do
  let name ← okOrElse ((f.get "name").bind Json.asStr) "field missing name"
  let ty ← okOrElse ((f.get "type").bind Json.asStr) "field missing type"
  let nullable := ((f.get "nullable").bind asBool).getD true
  let dataType ← stringToArrowType ty
  return .new name dataType nullable

def jsonToSchema (json : Json F) : Except CatalogError Schema := do
  let fields ← okOrElse ((json.get "fields").bind Json.asArray) "malformed schema json: missing fields"
  fields.mapM jsonToField

/-- The column that `ALTER TABLE ADD COLUMN` appends. -/
def columnJson (columnName columnType : String) : Json F :=
  .obj [("name", .str columnName), ("type", .str columnType), ("nullable", .bool true)]

/-- `schema_json.get_mut("fields")` and a `push`. -/
def pushField (json field : Json F) : Except CatalogError (Json F) :=
  match json with
  | .obj entries =>
    match (entries.lookup "fields").bind Json.asArray with
    | some items =>
      .ok (.obj (entries.map fun e => if e.1 = "fields" then (e.1, .arr (items ++ [field])) else e))
    | none => .error (.sql "existing schema has no `fields` array")
  | _ => .error (.sql "existing schema has no `fields` array")

def hasColumn (json : Json F) (columnName : String) : Bool :=
  match (json.get "fields").bind Json.asArray with
  | some fields => fields.any fun f => (f.get "name").bind Json.asStr == some columnName
  | none => false

/-- What `alter_table_add_column` does to the document. -/
def addColumn (json : Json F) (columnName columnType : String) : Except CatalogError (Json F) :=
  if hasColumn json columnName then .error (.sql ("column " ++ columnName ++ " already exists"))
  else pushField json (columnJson columnName columnType)

/-! ### Reading a text back -/

/-- **The types that a text stands for.** -/
def DataType.Stored : DataType → Prop
  | .boolean | .int32 | .int64 | .float64 | .utf8 | .binary => True
  | .timestamp unit tz => unit = .nanosecond ∧ tz = none
  | .fixedSizeList item dim => item = .new "item" .float32 false ∧ 0 < dim ∧ dim < 2 ^ 31
  | _ => False

instance : DecidablePred DataType.Stored := fun t => by
  cases t <;> unfold DataType.Stored <;> infer_instance

theorem parseI32_lt {s : List Char} {n : Int} (h : parseI32 s = some n) : n < 2 ^ 31 := by
  unfold parseI32 at h
  dsimp only at h
  split_ifs at h
  all_goals
    cases h
    omega

theorem stored_of_stringToArrowType {s : String} {t : DataType} (h : stringToArrowType s = .ok t) : t.Stored := by
  unfold stringToArrowType at h
  iterate 7
    split at h
    · cases h
      trivial
  split at h
  · dsimp only at h
    split at h
    · cases h
    next dim hdim =>
      split at h
      · cases h
      next hpos =>
        cases h
        exact ⟨rfl, by omega, parseI32_lt hdim⟩
  · cases h

theorem splitSign_eq_self {s : List Char} (h : ∀ c ∈ s, c ≠ '-' ∧ c ≠ '+') : splitSign s = (false, s) := by
  unfold splitSign
  split
  next ds => exact absurd rfl (h '-' mem_cons_self).1
  next ds => exact absurd rfl (h '+' mem_cons_self).2
  next => rfl

theorem parseI32_toDigits {n : ℕ} (hn : (n : Int) < 2 ^ 31) : parseI32 (Nat.toDigits 10 n) = some (n : Int) := by
  have hdigit : ∀ c ∈ Nat.toDigits 10 n, c.isDigit = true := fun c hc =>
    Nat.isDigit_of_mem_toDigits (by omega) (by omega) hc
  have hsign : ∀ c ∈ Nat.toDigits 10 n, c ≠ '-' ∧ c ≠ '+' := by
    intro c hc
    constructor
    · rintro rfl
      exact absurd (hdigit _ hc) (by decide)
    · rintro rfl
      exact absurd (hdigit _ hc) (by decide)
  have hall : (Nat.toDigits 10 n).all Char.isDigit = true := all_eq_true.2 hdigit
  have hvalue : Nat.ofDigitChars 10 (Nat.toDigits 10 n) 0 = n := Nat.ofDigitChars_ten_toDigits
  unfold parseI32
  rw [splitSign_eq_self hsign]
  simp only [hall, Nat.toDigits_ne_nil, not_true_eq_false, or_self, if_false, hvalue]
  simp only [Bool.false_eq_true, if_false]
  exact if_pos (by omega)

theorem trim_eq_self {s : List Char} (h : ∀ c ∈ s, Discover.isWhitespace c = false) : Tenancy.trim s = s := by
  have hdrop : ∀ l : List Char, (∀ c ∈ l, Discover.isWhitespace c = false) →
      l.dropWhile Discover.isWhitespace = l := by
    intro l hl
    cases l with
    | nil => rfl
    | cons c l => exact dropWhile_cons_of_neg (by simp [hl c mem_cons_self])
  unfold Tenancy.trim
  rw [hdrop s h, hdrop s.reverse fun c hc => h c (mem_reverse.1 hc), reverse_reverse]

theorem isWhitespace_of_isDigit {c : Char} (h : c.isDigit = true) : Discover.isWhitespace c = false := by
  have hrange : 48 ≤ c.toNat ∧ c.toNat ≤ 57 := by
    simp only [Char.isDigit, Bool.and_eq_true, decide_eq_true_eq, ge_iff_le, UInt32.le_iff_toNat_le] at h
    exact h
  simp only [Discover.isWhitespace, Bool.or_eq_false_iff, Bool.and_eq_false_iff, beq_eq_false_iff_ne,
    decide_eq_false_iff_not]
  omega

theorem stringToArrowType_vector {dim : Int} (hpos : 0 < dim) (hlt : dim < 2 ^ 31) :
    stringToArrowType ("vector(" ++ toString dim ++ ")") = .ok (.fixedSizeList (.new "item" .float32 false) dim) := by
  obtain ⟨n, rfl⟩ := Int.eq_ofNat_of_zero_le hpos.le
  have htoList : ("vector(" ++ toString (n : Int) ++ ")").toList = "vector(".toList ++ Nat.toDigits 10 n ++ [')'] := by
    rw [String.toList_append, String.toList_append]
    simp [toString, Int.repr, Nat.toList_repr]
  have hne : ∀ l : String, l.toList.head? ≠ some 'v' → ("vector(" ++ toString (n : Int) ++ ")") ≠ l := by
    rintro l hl rfl
    exact hl (by rw [htoList]; rfl)
  have hinner : ((("vector(" ++ toString (n : Int) ++ ")").toList.drop 7).dropLast) = Nat.toDigits 10 n := by
    rw [htoList, append_assoc]
    exact dropLast_concat
  have htrim : Tenancy.trim (Nat.toDigits 10 n) = Nat.toDigits 10 n :=
    trim_eq_self fun c hc => isWhitespace_of_isDigit (Nat.isDigit_of_mem_toDigits (by omega) (by omega) hc)
  unfold stringToArrowType
  rw [if_neg (hne _ (by decide)), if_neg (hne _ (by decide)), if_neg (hne _ (by decide)), if_neg (hne _ (by decide)),
    if_neg (hne _ (by decide)), if_neg (hne _ (by decide)), if_neg (hne _ (by decide)), if_pos]
  · dsimp only
    rw [hinner, htrim, parseI32_toDigits hlt]
    exact if_neg (not_le.2 hpos)
  · rw [htoList]
    refine ⟨⟨_, (append_assoc _ _ _).symm⟩, ?_⟩
    rw [getLast?_append]
    rfl

theorem stringToArrowType_arrowTypeToString (debug : DataType → String) (t : DataType) :
    stringToArrowType (arrowTypeToString debug t) = .ok t ↔ t.Stored := by
  constructor
  · exact stored_of_stringToArrowType
  · intro h
    cases t with
    | timestamp unit tz =>
      obtain ⟨rfl, rfl⟩ := h
      rfl
    | fixedSizeList item dim =>
      obtain ⟨rfl, hpos, hlt⟩ := h
      exact stringToArrowType_vector hpos hlt
    | boolean | int32 | int64 | float64 | utf8 | binary => rfl
    | _ => exact h.elim

/-! ### Reading a document back -/

theorem okOrElse_eq_ok {α : Type} {x : Option α} {message : String} {a : α} :
    okOrElse x message = .ok a ↔ x = some a := by
  cases x <;> simp [okOrElse]

theorem toOption_eq_some {ε α : Type} {x : Except ε α} {a : α} : x.toOption = some a ↔ x = .ok a := by
  cases x <;> simp [Except.toOption]

theorem jsonToField_fieldToJson {debug : DataType → String} {f g : Field} :
    jsonToField (fieldToJson debug f : Json F) = .ok g ↔
      ∃ t, stringToArrowType (arrowTypeToString debug f.dataType) = .ok t ∧ g = .new f.name t f.isNullable := by
  have hunfold : jsonToField (fieldToJson debug f : Json F) =
      (stringToArrowType (arrowTypeToString debug f.dataType) >>= fun t => .ok (.new f.name t f.isNullable)) := rfl
  rw [hunfold, Fallible.bind_eq_ok]
  simp only [Except.ok.injEq, eq_comm]

theorem jsonToSchema_schemaToJson (debug : DataType → String) (schema : Schema) :
    (∃ out, jsonToSchema (schemaToJson debug schema : Json F) = .ok out ∧ out.columns = schema.columns) ↔
      ∀ f ∈ schema, f.dataType.Stored := by
  have hunfold : jsonToSchema (schemaToJson debug schema : Json F) =
      (schema.map (fieldToJson debug)).mapM (jsonToField (F := F)) := rfl
  rw [hunfold]
  constructor
  · rintro ⟨out, hout, hcolumns⟩ f hf
    rw [Fallible.mapM_eq_ok_iff, forall₂_map_left_iff] at hout
    unfold Schema.columns at hcolumns
    clear hunfold
    induction hout with
    | nil => cases hf
    | cons hhead _ ih =>
      simp only [map_cons, List.cons.injEq] at hcolumns
      obtain ⟨t, ht, rfl⟩ := jsonToField_fieldToJson.1 hhead
      rcases mem_cons.1 hf with rfl | hf
      · rw [← (stringToArrowType_arrowTypeToString debug f.dataType), ht]
        simp_all
      · exact ih hcolumns.2 hf
  · intro hstored
    refine ⟨schema.map fun f => .new f.name f.dataType f.isNullable, ?_, ?_⟩
    · rw [Fallible.mapM_eq_ok_iff, forall₂_map_left_iff, forall₂_map_right_iff, forall₂_same]
      intro f hf
      exact jsonToField_fieldToJson.2 ⟨_, (stringToArrowType_arrowTypeToString debug _).2 (hstored f hf), rfl⟩
    · simp [Schema.columns, map_map, Function.comp_def]

theorem lookup_map_fields {entries : List (String × Json F)} {v w : Json F} (h : entries.lookup "fields" = some v) :
    (entries.map fun e => if e.1 = "fields" then (e.1, w) else e).lookup "fields" = some w := by
  induction entries with
  | nil => cases h
  | cons e entries ih =>
    obtain ⟨k, x⟩ := e
    by_cases hk : k = "fields"
    · subst hk
      simp
    · have hbeq : ("fields" == k) = false := beq_eq_false_iff_ne.2 fun h' => hk h'.symm
      rw [lookup_cons, hbeq] at h
      rw [map_cons, if_neg hk, lookup_cons, hbeq]
      exact ih h

variable {schema : Schema}

variable {json : Json F}

theorem jsonToSchema_pushField {json' field : Json F} {f : Field}
    (hread : jsonToSchema json = .ok schema) (hpush : pushField json field = .ok json')
    (hf : jsonToField field = .ok f) : jsonToSchema json' = .ok (schema ++ [f]) := by
  unfold pushField at hpush
  split at hpush
  next entries =>
    split at hpush
    next items hitems =>
      cases hpush
      obtain ⟨items', hitems', hmap⟩ := Fallible.bind_eq_ok.1 hread
      rw [okOrElse_eq_ok] at hitems'
      have heq : items = items' := Option.some.inj (hitems.symm.trans hitems')
      subst heq
      obtain ⟨v, hlookup, hv⟩ := Option.bind_eq_some_iff.1 hitems
      have hget : ((Json.obj (entries.map fun e => if e.1 = "fields" then (e.1, Json.arr (items ++ [field])) else e)).get
          "fields").bind Json.asArray = some (items ++ [field]) := by
        rw [Json.get, lookup_map_fields hlookup]
        rfl
      refine Fallible.bind_eq_ok.2 ⟨items ++ [field], okOrElse_eq_ok.2 hget, ?_⟩
      rw [Fallible.mapM_eq_ok_iff] at hmap ⊢
      exact rel_append hmap (.cons hf .nil)
    next => cases hpush
  next => cases hpush

theorem name_of_jsonToField {f : Field} (h : jsonToField json = .ok f) :
    (json.get "name").bind Json.asStr = some f.name := by
  obtain ⟨name, hname, h⟩ := Fallible.bind_eq_ok.1 h
  obtain ⟨ty, -, h⟩ := Fallible.bind_eq_ok.1 h
  obtain ⟨t, -, h⟩ := Fallible.bind_eq_ok.1 h
  cases h
  exact okOrElse_eq_ok.1 hname

variable {name : String}

theorem hasColumn_of_mem_names (h : jsonToSchema json = .ok schema)
    (hmem : name ∈ schema.names) : hasColumn json name = true := by
  obtain ⟨items, hitems, hmap⟩ := Fallible.bind_eq_ok.1 h
  unfold hasColumn
  rw [okOrElse_eq_ok.1 hitems]
  rw [Fallible.mapM_eq_ok_iff] at hmap
  clear h hitems
  induction hmap with
  | nil => cases hmem
  | cons hhead _ ih =>
    rcases mem_cons.1 hmem with rfl | hmem
    · simp [name_of_jsonToField hhead]
    · simp only [any_cons, Bool.or_eq_true]
      exact .inr (ih hmem)

variable {columnName columnType : String}

theorem jsonToSchema_addColumn {json' : Json F} {t : DataType}
    (hread : jsonToSchema json = .ok schema) (hadd : addColumn json columnName columnType = .ok json')
    (htype : stringToArrowType columnType = .ok t) :
    columnName ∉ schema.names ∧ jsonToSchema json' = .ok (schema ++ [.new columnName t true]) := by
  unfold addColumn at hadd
  split at hadd
  · cases hadd
  next hfree =>
    have hcolumn : jsonToField (columnJson columnName columnType : Json F) = .ok (.new columnName t true) := by
      show (stringToArrowType columnType >>= fun t => Except.ok (Field.new columnName t true)) = _
      rw [htype]
      rfl
    exact ⟨fun hmem => hfree (hasColumn_of_mem_names hread hmem), jsonToSchema_pushField hread hadd hcolumn⟩

/-! ### The catalog -/

structure DatabaseRow where
  id : Uuid
  tenantId : TenantId
  name : String

structure TableRow where
  id : TableId
  tenantId : TenantId
  databaseId : Uuid
  name : String
  currentSnapshotId : Option SnapshotId
  schemaSnapshotId : Option SchemaSnapshotId

structure SchemaSnapshotRow (F : Type) where
  id : SchemaSnapshotId
  tenantId : TenantId
  tableId : TableId
  arrowSchema : Json F

structure TableRef where
  id : TableId
  databaseId : Uuid
  name : String
  currentSnapshotId : SnapshotId
  schemaSnapshotId : SchemaSnapshotId
  schema : Schema

/-- The rows that tables and their schemas live in. `nextId` is the next fresh identifier. -/
structure SqliteCatalog (F : Type) where
  databases : List DatabaseRow
  tables : List TableRow
  schemaSnapshots : List (SchemaSnapshotRow F)
  nextId : Uuid

namespace SqliteCatalog

variable (c : SqliteCatalog F)

def empty : SqliteCatalog F := ⟨[], [], [], 0⟩

def createDatabase (tenant : TenantId) (name : String) : Except CatalogError (SqliteCatalog F) :=
  if c.databases.any fun d => d.tenantId = tenant ∧ d.name = name then
    .error (.sql "UNIQUE constraint failed: databases.tenant_id, databases.name")
  else .ok { c with
    databases := c.databases ++ [⟨c.nextId, tenant, name⟩]
    nextId := c.nextId + 1 }

def createTable (debug : DataType → String) (tenant : TenantId) (databaseId : Uuid) (name : String)
    (schema : Schema) : Except CatalogError (TableId × SqliteCatalog F) :=
  match c.databases.find? fun d => d.id = databaseId with
  | none => .error (.sql ("database " ++ toString databaseId ++ " not found"))
  | some d =>
    if d.tenantId ≠ tenant then
      .error (.sql ("database " ++ toString databaseId ++ " does not belong to tenant " ++ toString tenant))
    else if c.tables.any fun t => t.tenantId = tenant ∧ t.databaseId = databaseId ∧ t.name = name then
      .error (.sql "UNIQUE constraint failed: tables.tenant_id, tables.database_id, tables.name")
    else .ok (c.nextId, { c with
      -- the row is inserted without its pointers, which are set when the two snapshots are there
      tables := c.tables ++ [⟨c.nextId, tenant, databaseId, name, some (c.nextId + 2), some (c.nextId + 1)⟩]
      schemaSnapshots := c.schemaSnapshots ++ [⟨c.nextId + 1, tenant, c.nextId, schemaToJson debug schema⟩]
      nextId := c.nextId + 3 })

def findTable (tenant : TenantId) (database name : String) : Option TableRow :=
  c.tables.find? fun t => t.tenantId = tenant ∧ t.name = name ∧
    c.databases.any fun d => d.id = t.databaseId ∧ d.tenantId = tenant ∧ d.name = database

def schemaSnapshot (t : TableRow) : Option (SchemaSnapshotRow F) :=
  t.schemaSnapshotId.bind fun id => c.schemaSnapshots.find? fun ss => ss.id = id

def lookupTable (tenant : TenantId) (database name : String) : Except CatalogError TableRef :=
  match c.findTable tenant database name with
  | none => .error (.tableNotFound database name)
  | some t => do
      let ss ← okOrElse (c.schemaSnapshot t) "error decoding column arrow_schema: unexpected null"
      let schema ← jsonToSchema ss.arrowSchema
      let current ← okOrElse t.currentSnapshotId "table has no current snapshot (bootstrap row)"
      let schemaSnapshotId ← okOrElse t.schemaSnapshotId "table has no schema snapshot"
      return ⟨t.id, t.databaseId, name, current, schemaSnapshotId, schema⟩

def alterTableAddColumn (tableId : TableId) (columnName columnType : String) :
    Except CatalogError (SchemaSnapshotId × SqliteCatalog F) := do
  let _ ← stringToArrowType columnType
  let t ← okOrElse (c.tables.find? fun t => t.id = tableId) ("table " ++ toString tableId ++ " not found")
  let ss ← okOrElse (c.schemaSnapshot t) ("table " ++ toString tableId ++ " not found")
  let schemaJson ← addColumn ss.arrowSchema columnName columnType
  return (c.nextId, { c with
    schemaSnapshots := c.schemaSnapshots ++ [⟨c.nextId, t.tenantId, tableId, schemaJson⟩]
    tables := c.tables.map fun r =>
      if r.id = tableId ∧ r.schemaSnapshotId = t.schemaSnapshotId then { r with schemaSnapshotId := some c.nextId } else r
    nextId := c.nextId + 1 })

def dropTable (tenant : TenantId) (database name : String) : Bool × SqliteCatalog F :=
  match c.findTable tenant database name with
  | none => (false, c)
  | some t => (true, { c with
      schemaSnapshots := c.schemaSnapshots.filter fun ss => ss.tableId ≠ t.id
      tables := c.tables.filter fun r => r.id ≠ t.id })

end SqliteCatalog

inductive Call where
  | createDatabase (tenant : TenantId) (name : String)
  | createTable (tenant : TenantId) (databaseId : Uuid) (name : String) (schema : Schema)
  | alterTableAddColumn (tableId : TableId) (columnName columnType : String)
  | dropTable (tenant : TenantId) (database name : String)

def step (debug : DataType → String) (c : SqliteCatalog F) : Call → Option (SqliteCatalog F)
  | .createDatabase tenant name => (c.createDatabase tenant name).toOption
  | .createTable tenant databaseId name schema => ((c.createTable debug tenant databaseId name schema).toOption).map Prod.snd
  | .alterTableAddColumn tableId columnName columnType =>
    ((c.alterTableAddColumn tableId columnName columnType).toOption).map Prod.snd
  | .dropTable tenant database name => some (c.dropTable tenant database name).2

/-! ### Identifiers and names are unique -/

/-- **The catalog is in order**: identifiers and names are unique, and every table points at a schema of its own. -/
structure Inv (c : SqliteCatalog F) : Prop where
  databaseIds : ∀ d ∈ c.databases, d.id < c.nextId
  tableIds : ∀ t ∈ c.tables, t.id < c.nextId
  snapshotIds : ∀ ss ∈ c.schemaSnapshots, ss.id < c.nextId
  databaseIdsNodup : (c.databases.map DatabaseRow.id).Nodup
  databaseNames : (c.databases.map fun d => (d.tenantId, d.name)).Nodup
  tableIdsNodup : (c.tables.map TableRow.id).Nodup
  tableNames : (c.tables.map fun t => (t.tenantId, t.databaseId, t.name)).Nodup
  snapshotIdsNodup : (c.schemaSnapshots.map SchemaSnapshotRow.id).Nodup
  current : ∀ t ∈ c.tables, t.currentSnapshotId.isSome
  pointed : ∀ t ∈ c.tables, ∃ ss ∈ c.schemaSnapshots, t.schemaSnapshotId = some ss.id ∧ ss.tableId = t.id

theorem inv_empty : Inv (SqliteCatalog.empty : SqliteCatalog F) := by
  constructor <;> simp [SqliteCatalog.empty]

theorem nodup_map_append {R K : Type} {key : R → K} {rows : List R} {r : R} (h : (rows.map key).Nodup)
    (hr : ∀ q ∈ rows, key q ≠ key r) : ((rows ++ [r]).map key).Nodup := by
  rw [map_append, nodup_append]
  refine ⟨h, nodup_singleton _, ?_⟩
  rintro k hk k' hk' rfl
  obtain ⟨q, hq, rfl⟩ := mem_map.1 hk
  exact hr q hq (mem_singleton.1 hk')

variable {c c' : SqliteCatalog F} {debug : DataType → String}

variable {tenant : TenantId}

theorem Inv.createDatabase (h : Inv c) (hstep : c.createDatabase tenant name = .ok c') : Inv c' := by
  unfold SqliteCatalog.createDatabase at hstep
  split at hstep
  · cases hstep
  next hfree =>
    cases hstep
    refine { h with databaseIds := ?_, tableIds := ?_, snapshotIds := ?_, databaseIdsNodup := ?_, databaseNames := ?_ }
    · intro d hd
      rcases mem_append.1 hd with hd | hd
      · exact Nat.lt_succ_of_lt (h.databaseIds d hd)
      · rw [mem_singleton.1 hd]
        exact Nat.lt_succ_self _
    · exact fun t ht => Nat.lt_succ_of_lt (h.tableIds t ht)
    · exact fun ss hss => Nat.lt_succ_of_lt (h.snapshotIds ss hss)
    · exact nodup_map_append h.databaseIdsNodup fun d hd => Nat.ne_of_lt (h.databaseIds d hd)
    · refine nodup_map_append h.databaseNames fun d hd heq => hfree ?_
      rw [Prod.mk.injEq] at heq
      exact any_eq_true.2 ⟨d, hd, decide_eq_true heq⟩

theorem createTable_eq_ok {databaseId : Uuid} {id : TableId}
    (h : c.createTable debug tenant databaseId name schema = .ok (id, c')) :
    (∃ d ∈ c.databases, d.id = databaseId ∧ d.tenantId = tenant) ∧
      (∀ t ∈ c.tables, ¬(t.tenantId = tenant ∧ t.databaseId = databaseId ∧ t.name = name)) ∧ id = c.nextId ∧
      c' = { c with
        tables := c.tables ++ [⟨c.nextId, tenant, databaseId, name, some (c.nextId + 2), some (c.nextId + 1)⟩]
        schemaSnapshots := c.schemaSnapshots ++ [⟨c.nextId + 1, tenant, c.nextId, schemaToJson debug schema⟩]
        nextId := c.nextId + 3 } := by
  unfold SqliteCatalog.createTable at h
  split at h
  · cases h
  next d hd =>
    split at h
    · cases h
    next htenant =>
      split at h
      · cases h
      next hfree =>
        cases h
        refine ⟨⟨d, mem_of_find?_eq_some hd, by simpa using find?_some hd, not_not.1 htenant⟩,
          fun t ht hclash => hfree (any_eq_true.2 ⟨t, ht, decide_eq_true hclash⟩), rfl, rfl⟩

theorem Inv.createTable (h : Inv c) {databaseId : Uuid} {id : TableId}
    (hstep : c.createTable debug tenant databaseId name schema = .ok (id, c')) : Inv c' := by
  obtain ⟨-, hfree, -, rfl⟩ := createTable_eq_ok hstep
  constructor
  case databaseIds => exact fun d hd => Nat.lt_add_right 3 (h.databaseIds d hd)
  case databaseIdsNodup => exact h.databaseIdsNodup
  case databaseNames => exact h.databaseNames
  case tableIds =>
      intro t ht
      rcases mem_append.1 ht with ht | ht
      · exact Nat.lt_add_right 3 (h.tableIds t ht)
      · rw [mem_singleton.1 ht]
        exact Nat.lt_add_of_pos_right (by omega)
  case snapshotIds =>
      intro ss hss
      rcases mem_append.1 hss with hss | hss
      · exact Nat.lt_add_right 3 (h.snapshotIds ss hss)
      · rw [mem_singleton.1 hss]
        exact Nat.add_lt_add_left (by omega) _
  case tableIdsNodup => exact nodup_map_append h.tableIdsNodup fun t ht => Nat.ne_of_lt (h.tableIds t ht)
  case tableNames =>
      refine nodup_map_append h.tableNames fun t ht heq => hfree t ht ?_
      simpa using heq
  case snapshotIdsNodup =>
      exact nodup_map_append h.snapshotIdsNodup fun ss hss =>
        Nat.ne_of_lt (Nat.lt_succ_of_lt (h.snapshotIds ss hss))
  case current =>
      intro t ht
      rcases mem_append.1 ht with ht | ht
      · exact h.current t ht
      · rw [mem_singleton.1 ht]
        rfl
  case pointed =>
      intro t ht
      rcases mem_append.1 ht with ht | ht
      · obtain ⟨ss, hss, hpoint⟩ := h.pointed t ht
        exact ⟨ss, mem_append_left _ hss, hpoint⟩
      · rw [mem_singleton.1 ht]
        exact ⟨_, mem_append_right _ (mem_singleton_self _), rfl, rfl⟩

variable {ss : SchemaSnapshotRow F}

theorem Inv.schemaSnapshot_eq_some (h : Inv c) {t : TableRow} (hss : ss ∈ c.schemaSnapshots)
    (hpoint : t.schemaSnapshotId = some ss.id) : c.schemaSnapshot t = some ss := by
  unfold SqliteCatalog.schemaSnapshot
  rw [hpoint]
  refine Rows.find?_eq_some_of_unique hss (decide_eq_true rfl) fun q hq hid => ?_
  exact Rows.eq_of_key_eq h.snapshotIdsNodup hq hss (of_decide_eq_true hid)

theorem alterTableAddColumn_eq_ok {tableId : TableId} {columnName columnType : String} {id : SchemaSnapshotId}
    (h : c.alterTableAddColumn tableId columnName columnType = .ok (id, c')) :
    ∃ t ∈ c.tables, t.id = tableId ∧ ∃ ss ∈ c.schemaSnapshots, t.schemaSnapshotId = some ss.id ∧
      ∃ dataType json', stringToArrowType columnType = .ok dataType ∧
        addColumn ss.arrowSchema columnName columnType = .ok json' ∧
        c' = { c with
          schemaSnapshots := c.schemaSnapshots ++ [⟨c.nextId, t.tenantId, tableId, json'⟩]
          tables := c.tables.map fun r =>
            if r.id = tableId ∧ r.schemaSnapshotId = t.schemaSnapshotId then { r with schemaSnapshotId := some c.nextId }
            else r
          nextId := c.nextId + 1 } := by
  obtain ⟨dataType, hdata, h⟩ := Fallible.bind_eq_ok.1 h
  obtain ⟨t, ht, h⟩ := Fallible.bind_eq_ok.1 h
  obtain ⟨ss, hss, h⟩ := Fallible.bind_eq_ok.1 h
  obtain ⟨json', hjson, h⟩ := Fallible.bind_eq_ok.1 h
  cases h
  rw [okOrElse_eq_ok] at ht hss
  obtain ⟨sid, hsid, hfind⟩ := Option.bind_eq_some_iff.1 hss
  have hid : ss.id = sid := by simpa using find?_some hfind
  subst hid
  exact ⟨t, mem_of_find?_eq_some ht, by simpa using find?_some ht, ss, mem_of_find?_eq_some hfind,
    hsid, dataType, json', hdata, hjson, rfl⟩

theorem Inv.alterTableAddColumn (h : Inv c) {tableId : TableId} {id : SchemaSnapshotId}
    (hstep : c.alterTableAddColumn tableId columnName columnType = .ok (id, c')) : Inv c' := by
  obtain ⟨t, ht, hid, ss, hss, hpoint, dataType, json', -, -, rfl⟩ := alterTableAddColumn_eq_ok hstep
  -- the update of a row keeps what the other invariants read of it
  have hkeep : ∀ {K : Type} (key : TableRow → K), (∀ r s, key { r with schemaSnapshotId := s } = key r) →
      (c.tables.map fun r => if r.id = tableId ∧ r.schemaSnapshotId = t.schemaSnapshotId then
        { r with schemaSnapshotId := some c.nextId } else r).map key = c.tables.map key := by
    intro K key hkey
    rw [map_map]
    refine map_congr_left fun r _ => ?_
    dsimp only [Function.comp]
    split
    · exact hkey r _
    · rfl
  constructor
  case databaseIds => exact fun d hd => Nat.lt_succ_of_lt (h.databaseIds d hd)
  case databaseIdsNodup => exact h.databaseIdsNodup
  case databaseNames => exact h.databaseNames
  case tableIds =>
      intro r hr
      obtain ⟨q, hq, rfl⟩ := mem_map.1 hr
      split
      · exact Nat.lt_succ_of_lt (h.tableIds q hq)
      · exact Nat.lt_succ_of_lt (h.tableIds q hq)
  case snapshotIds =>
      intro s hs
      rcases mem_append.1 hs with hs | hs
      · exact Nat.lt_succ_of_lt (h.snapshotIds s hs)
      · rw [mem_singleton.1 hs]
        exact Nat.lt_succ_self _
  case tableIdsNodup =>
      rw [hkeep TableRow.id fun _ _ => rfl]
      exact h.tableIdsNodup
  case tableNames =>
      rw [hkeep (fun t => (t.tenantId, t.databaseId, t.name)) fun _ _ => rfl]
      exact h.tableNames
  case snapshotIdsNodup =>
      exact nodup_map_append h.snapshotIdsNodup fun s hs => Nat.ne_of_lt (h.snapshotIds s hs)
  case current =>
      intro r hr
      obtain ⟨q, hq, rfl⟩ := mem_map.1 hr
      split
      · exact h.current q hq
      · exact h.current q hq
  case pointed =>
      intro r hr
      obtain ⟨q, hq, rfl⟩ := mem_map.1 hr
      split
      next hchange => exact ⟨_, mem_append_right _ (mem_singleton_self _), rfl, hchange.1.symm⟩
      next =>
        obtain ⟨s, hs, hpoint⟩ := h.pointed q hq
        exact ⟨s, mem_append_left _ hs, hpoint⟩

theorem dropTable_cases (c : SqliteCatalog F) (tenant : TenantId) (database name : String) :
    (c.dropTable tenant database name).2 = c ∨
      ∃ t ∈ c.tables, c.findTable tenant database name = some t ∧ (c.dropTable tenant database name).2 = { c with
        schemaSnapshots := c.schemaSnapshots.filter fun ss => ss.tableId ≠ t.id
        tables := c.tables.filter fun r => r.id ≠ t.id } := by
  unfold SqliteCatalog.dropTable
  split
  next => exact .inl rfl
  next t ht => exact .inr ⟨t, mem_of_find?_eq_some ht, ht, rfl⟩

theorem Inv.dropTable (h : Inv c) (tenant : TenantId) (database name : String) :
    Inv (c.dropTable tenant database name).2 := by
  rcases dropTable_cases c tenant database name with heq | ⟨t, -, -, heq⟩
  · rw [heq]
    exact h
  · rw [heq]
    have hrow : ∀ r ∈ c.tables.filter (fun r => r.id ≠ t.id), r ∈ c.tables ∧ r.id ≠ t.id := by
      intro r hr
      simpa using hr
    constructor
    case databaseIds => exact h.databaseIds
    case databaseIdsNodup => exact h.databaseIdsNodup
    case databaseNames => exact h.databaseNames
    case tableIds => exact fun r hr => h.tableIds r (hrow r hr).1
    case snapshotIds => exact fun ss hss => h.snapshotIds ss (mem_of_mem_filter hss)
    case tableIdsNodup => exact h.tableIdsNodup.sublist (filter_sublist.map _)
    case tableNames => exact h.tableNames.sublist (filter_sublist.map _)
    case snapshotIdsNodup => exact h.snapshotIdsNodup.sublist (filter_sublist.map _)
    case current => exact fun r hr => h.current r (hrow r hr).1
    case pointed =>
        intro r hr
        obtain ⟨ss, hss, hpoint, htable⟩ := h.pointed r (hrow r hr).1
        refine ⟨ss, mem_filter.2 ⟨hss, ?_⟩, hpoint, htable⟩
        rw [htable]
        exact decide_eq_true (hrow r hr).2

theorem inv_step {a : Call} (h : Inv c) (hstep : step debug c a = some c') : Inv c' := by
  cases a with
  | createDatabase tenant name => exact h.createDatabase (toOption_eq_some.1 hstep)
  | createTable tenant databaseId name schema =>
    obtain ⟨⟨id, out⟩, hout, rfl⟩ := Option.map_eq_some_iff.1 hstep
    exact h.createTable (toOption_eq_some.1 hout)
  | alterTableAddColumn tableId columnName columnType =>
    obtain ⟨⟨id, out⟩, hout, rfl⟩ := Option.map_eq_some_iff.1 hstep
    exact h.alterTableAddColumn (toOption_eq_some.1 hout)
  | dropTable tenant database name =>
    cases hstep
    exact h.dropTable tenant database name

/-! ### A table that is created -/

def Holds (c : SqliteCatalog F) (d : DatabaseRow) (t : TableRow) (ss : SchemaSnapshotRow F) : Prop :=
  d ∈ c.databases ∧ t ∈ c.tables ∧ ss ∈ c.schemaSnapshots

def Spares (id : TableId) (tenant : TenantId) (database name : String) : Call → Prop
  | .alterTableAddColumn tableId _ _ => tableId ≠ id
  | .dropTable tenant' database' name' => ¬(tenant' = tenant ∧ database' = database ∧ name' = name)
  | _ => True

theorem findTable_eq_some {database : String} {t : TableRow}
    (h : c.findTable tenant database name = some t) : t ∈ c.tables ∧ t.tenantId = tenant ∧ t.name = name ∧
      ∃ d ∈ c.databases, d.id = t.databaseId ∧ d.tenantId = tenant ∧ d.name = database := by
  have htest := find?_some h
  simp only [decide_eq_true_eq, any_eq_true] at htest
  obtain ⟨htenant, hname, d, hd, hdatabase⟩ := htest
  exact ⟨mem_of_find?_eq_some h, htenant, hname, d, hd, hdatabase⟩

theorem Inv.findTable (h : Inv c) {d : DatabaseRow} {t : TableRow} (hd : d ∈ c.databases) (ht : t ∈ c.tables)
    (hid : d.id = t.databaseId) (htenant : d.tenantId = t.tenantId) :
    c.findTable t.tenantId d.name t.name = some t := by
  refine Rows.find?_eq_some_of_unique ht ?_ fun q hq htest => ?_
  · simp only [decide_eq_true_eq, any_eq_true, true_and]
    exact ⟨d, hd, hid, htenant, rfl⟩
  · simp only [decide_eq_true_eq, any_eq_true] at htest
    obtain ⟨hqtenant, hqname, e, he, heid, hetenant, hename⟩ := htest
    have hdatabase : e = d := Rows.eq_of_key_eq h.databaseNames he hd (by rw [hetenant, hename, htenant])
    refine Rows.eq_of_key_eq h.tableNames hq ht ?_
    rw [hqtenant, hqname, ← heid, hdatabase, hid]

theorem Holds.step {a : Call} (h : Inv c) {d : DatabaseRow} {t : TableRow} (hh : Holds c d t ss)
    (hid : d.id = t.databaseId) (htable : ss.tableId = t.id)
    (hspare : Spares t.id t.tenantId d.name t.name a) (hstep : step debug c a = some c') : Holds c' d t ss := by
  obtain ⟨hd, ht, hss⟩ := hh
  cases a with
  | createDatabase tenant name =>
    have hout := toOption_eq_some.1 hstep
    unfold SqliteCatalog.createDatabase at hout
    split at hout
    · cases hout
    · cases hout
      exact ⟨mem_append_left _ hd, ht, hss⟩
  | createTable tenant databaseId name schema =>
    obtain ⟨⟨id, out⟩, hout, rfl⟩ := Option.map_eq_some_iff.1 hstep
    obtain ⟨-, -, -, rfl⟩ := createTable_eq_ok (toOption_eq_some.1 hout)
    exact ⟨hd, mem_append_left _ ht, mem_append_left _ hss⟩
  | alterTableAddColumn tableId columnName columnType =>
    obtain ⟨⟨id, out⟩, hout, rfl⟩ := Option.map_eq_some_iff.1 hstep
    obtain ⟨q, -, -, s, -, -, dataType, json', -, -, rfl⟩ := alterTableAddColumn_eq_ok (toOption_eq_some.1 hout)
    refine ⟨hd, mem_map.2 ⟨t, ht, if_neg fun hchange => hspare hchange.1.symm⟩, mem_append_left _ hss⟩
  | dropTable tenant database name =>
    cases hstep
    rcases dropTable_cases c tenant database name with heq | ⟨q, hq, hfind, heq⟩
    · rw [heq]
      exact ⟨hd, ht, hss⟩
    · rw [heq]
      have hne : t.id ≠ q.id := by
        intro hidq
        have htq : t = q := Rows.eq_of_key_eq h.tableIdsNodup ht hq hidq
        subst htq
        obtain ⟨-, hqtenant, hqname, e, he, heid, hetenant, hename⟩ := findTable_eq_some hfind
        have hed : e = d := Rows.eq_of_key_eq h.databaseIdsNodup he hd (heid.trans hid.symm)
        exact hspare ⟨hqtenant.symm, hed ▸ hename.symm, hqname.symm⟩
      exact ⟨hd, mem_filter.2 ⟨ht, decide_eq_true hne⟩, mem_filter.2 ⟨hss, decide_eq_true (htable ▸ hne)⟩⟩

theorem Inv.lookupTable (h : Inv c) {d : DatabaseRow} {t : TableRow} (hh : Holds c d t ss)
    (hid : d.id = t.databaseId) (htenant : d.tenantId = t.tenantId) (hpoint : t.schemaSnapshotId = some ss.id)
    (schema : Schema) : (∃ ref, c.lookupTable t.tenantId d.name t.name = .ok ref ∧ ref.schema = schema) ↔
      jsonToSchema ss.arrowSchema = .ok schema := by
  obtain ⟨hd, ht, hss⟩ := hh
  obtain ⟨current, hcurrent⟩ := Option.isSome_iff_exists.1 (h.current t ht)
  unfold SqliteCatalog.lookupTable
  rw [h.findTable hd ht hid htenant]
  dsimp only
  rw [h.schemaSnapshot_eq_some hss hpoint, hcurrent, hpoint]
  constructor
  · rintro ⟨ref, href, rfl⟩
    obtain ⟨ss', hss', href⟩ := Fallible.bind_eq_ok.1 href
    cases okOrElse_eq_ok.1 hss'
    obtain ⟨schema, hschema, href⟩ := Fallible.bind_eq_ok.1 href
    cases href
    exact hschema
  · intro hschema
    exact ⟨⟨t.id, t.databaseId, t.name, current, ss.id, schema⟩,
      Fallible.bind_eq_ok.2 ⟨ss, rfl, Fallible.bind_eq_ok.2 ⟨schema, hschema, rfl⟩⟩, rfl⟩

/-- **A lookup after a creation returns the schema exactly when a text stands for each of its types**, whatever happens
to other tables in between. -/
theorem lookup_after_create_iff (debug : DataType → String) {c₁ c₂ : SqliteCatalog F}
    (hc : Runs.Reach (step debug) Runs.Free SqliteCatalog.empty c) {tenant : TenantId} {d : DatabaseRow}
    (hd : d ∈ c.databases) {name : String} {schema : Schema} {id : TableId}
    (hcreate : c.createTable debug tenant d.id name schema = .ok (id, c₁))
    (hrun : Runs.Reach (step debug) (fun _ a => Spares id tenant d.name name a) c₁ c₂) :
    (∃ ref, c₂.lookupTable tenant d.name name = .ok ref ∧ ref.schema.columns = schema.columns) ↔
      ∀ f ∈ schema, f.dataType.Stored := by
  have hinv : Inv c := hc.inv inv_empty fun _ _ _ h _ hstep => inv_step h hstep
  have hinv₁ : Inv c₁ := hinv.createTable hcreate
  obtain ⟨⟨e, he, heid, htenant⟩, -, rfl, rfl⟩ := createTable_eq_ok hcreate
  have hed : e = d := Rows.eq_of_key_eq hinv.databaseIdsNodup he hd heid
  subst hed
  -- the three rows that the lookup reads stay as they are
  have hkept := hrun.inv (I := fun c₂ => Inv c₂ ∧ Holds c₂ e
      ⟨c.nextId, tenant, e.id, name, some (c.nextId + 2), some (c.nextId + 1)⟩
      ⟨c.nextId + 1, tenant, c.nextId, schemaToJson debug schema⟩)
    ⟨hinv₁, hd, mem_append_right _ (mem_singleton_self _), mem_append_right _ (mem_singleton_self _)⟩
    fun s a s' hs hspare hstep => ⟨inv_step hs.1 hstep, hs.2.step hs.1 rfl rfl hspare hstep⟩
  obtain ⟨hinv₂, hholds⟩ := hkept
  rw [← jsonToSchema_schemaToJson (F := F) debug]
  constructor
  · rintro ⟨ref, href, hcolumns⟩
    exact ⟨ref.schema, (hinv₂.lookupTable hholds rfl htenant rfl ref.schema).1 ⟨ref, href, rfl⟩, hcolumns⟩
  · rintro ⟨out, hout, hcolumns⟩
    obtain ⟨ref, href, hschema⟩ := (hinv₂.lookupTable hholds rfl htenant rfl out).2 hout
    exact ⟨ref, href, hschema ▸ hcolumns⟩

def oneDatabase : SqliteCatalog Unit := ⟨[⟨0, 7, "logs"⟩], [], [], 1⟩

def oneTable (debug : DataType → String) (schema : Schema) : SqliteCatalog Unit :=
  ⟨[⟨0, 7, "logs"⟩], [⟨1, 7, 0, "events", some 3, some 2⟩], [⟨2, 7, 1, schemaToJson debug schema⟩], 4⟩

theorem reach_oneDatabase (debug : DataType → String) :
    Runs.Reach (step debug) Runs.Free SqliteCatalog.empty oneDatabase :=
  .step (.createDatabase 7 "logs") .init trivial rfl

theorem lookup_after_create_vector : ∃ ref, (oneTable (fun _ => "") [.new "at" (.timestamp .nanosecond none) true,
        .new "vec" (.fixedSizeList (.new "item" .float32 false) 384) false]).lookupTable 7 "logs" "events" = .ok ref ∧
      ref.schema.columns = [("at", .timestamp .nanosecond none, true),
        ("vec", .fixedSizeList (.new "item" .float32 false) 384, false)] := by
  have hcreate : ∀ schema, oneDatabase.createTable (fun _ => "") 7 0 "events" schema =
      .ok (1, oneTable (fun _ => "") schema) := fun _ => rfl
  exact (lookup_after_create_iff (fun _ => "") (d := ⟨0, 7, "logs"⟩) (reach_oneDatabase _) (mem_singleton_self _)
    (hcreate _) .init).2 (by decide)

/-- A table with a date column can be created, and no lookup ever returns it. -/
theorem date_column_lost :
    ¬∀ (debug : DataType → String) (c c₁ : SqliteCatalog Unit) (tenant : TenantId) (d : DatabaseRow) (name : String)
      (schema : Schema) (id : TableId), Runs.Reach (step debug) Runs.Free SqliteCatalog.empty c → d ∈ c.databases →
        c.createTable debug tenant d.id name schema = .ok (id, c₁) →
        ∃ ref, c₁.lookupTable tenant d.name name = .ok ref ∧ ref.schema.columns = schema.columns := by
  intro h
  obtain ⟨ref, href, -⟩ := h (fun _ => "Date32") oneDatabase
    (oneTable (fun _ => "Date32") [.new "day" .date32 true]) 7 ⟨0, 7, "logs"⟩ "events" [.new "day" .date32 true] 1
    (reach_oneDatabase _) (mem_singleton_self _) rfl
  have herror : (oneTable (fun _ => "Date32") [.new "day" .date32 true]).lookupTable 7 "logs" "events" =
      .error (.sql "unsupported column type in schema: arrow:Date32") := by
    rfl
  rw [herror] at href
  cases href

end TableSchema
