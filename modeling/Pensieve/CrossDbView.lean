/-
**The view of a table across all databases.**

A query that is not scoped to a database reads a table name as a view:  `UNION ALL` of that table in
every database that the caller may see, by name, with the database in front as `__database` and with
nulls for the columns that a database lacks.
-/

import Mathlib.Data.Char
import Mathlib.Data.List.Lex
import Pensieve.ColumnCasts
import Pensieve.Fallible
import Pensieve.Rows
import Pensieve.SqlText

namespace CrossDb

open List
open Fallible

/-! ### Tables -/

structure UnionField where
  name : Text
  dataType : DataType
  deriving DecidableEq

def typeOf? (fields : List UnionField) (col : Text) : Option DataType :=
  (fields.find? (·.name = col)).map UnionField.dataType

/-- A table with its rows, which hold values of the types that the schema gives. -/
structure Table (F : Type) where
  name : Text
  fields : List UnionField
  /-- `config.federated`, by `exclude_from_wildcard` -/
  federated : Option Bool
  rows : List (Text → Value F)
  typed : ∀ r ∈ rows, ∀ f ∈ fields, (r f.name).HasType f.dataType

/-- What the catalog lists: its databases, and the tables of each, unless that fails. -/
structure Catalog (F : Type) where
  databases : Except Text (List Text)
  tables : Text → Except Text (List (Table F))

structure DbTable (F : Type) where
  db : Text
  table : Table F

def internalDatabases : List Text := [['m', 'e', 'm', 'o', 'r', 'y']]

def provenanceColumn : Text := ['_', '_', 'd', 'a', 't', 'a', 'b', 'a', 's', 'e']

inductive Refusal where
  | listDatabases (e : Text)
  | empty
  | noRuntime
  | providers (db e : Text)
  | register (db table : Text)
  | noDatabases (table : Text)
  /-- "table db.table already has a `__database` column, …" -/
  | collision (db table : Text)
  | createView (table : Text)

variable {F : Type}

/-! ### Selection -/

def allows (allowed : Option (List Text)) (db : Text) : Bool :=
  match allowed with
  | none => true
  | some allow => allow.any (· = db)

def optsOut (t : Table F) : Bool := t.federated = some true

def collect (catalog : Catalog F) (allowed : Option (List Text)) : List Text → List (DbTable F) → List (DbTable F)
  | [], out => out
  | db :: dbs, out =>
    if internalDatabases.contains db then collect catalog allowed dbs out
    else if !allows allowed db then collect catalog allowed dbs out
    else
      match catalog.tables db with
      | .ok tables =>
        collect catalog allowed dbs (out ++ (tables.filter fun t => !optsOut t).map (⟨db, ·⟩))
      | .error _ => collect catalog allowed dbs out

def resolveAllDbTables (catalog : Catalog F) (allowed : Option (List Text)) : Except Refusal (List (DbTable F)) :=
  match catalog.databases with
  | .error e => .error (.listDatabases e)
  | .ok dbs => .ok (collect catalog allowed dbs [])

def entriesOf (dbTables : List (DbTable F)) (name : Text) : List (Text × Table F) :=
  ((dbTables.filter (·.table.name = name)).map fun dt => (dt.db, dt.table)).insertionSort fun a b => a.1 ≤ b.1

def groupByTable (dbTables : List (DbTable F)) : List (Text × List (Text × Table F)) :=
  ((dbTables.map (·.table.name)).dedup.insertionSort (· ≤ ·)).map fun name =>
    (name, entriesOf dbTables name)

/-- `fields_of`, for every entry. -/
def fieldsOf (perDb : List (Text × Table F)) : List (Text × List UnionField) := perDb.map fun p => (p.1, p.2.fields)

def addField (out : List UnionField) (f : UnionField) : List UnionField :=
  if out.any (·.name = f.name) then out else out ++ [f]

def supersetColumns (perDb : List (Text × List UnionField)) : List UnionField :=
  (perDb.flatMap (·.2)).foldl addField []

def buildMultidbSchemaMap (dbTables : List (DbTable F)) : List (Text × List Text) :=
  (groupByTable dbTables).map fun p =>
    (p.1, provenanceColumn :: (supersetColumns (fieldsOf p.2)).map UnionField.name)

/-! ### The SQL of a view -/

def quoteIdent (ident : Text) : Text := '"' :: (SqlText.doubled '"' ident ++ ['"'])

def sqlStrLit (s : Text) : Text := '\'' :: (SqlText.doubled '\'' s ++ ['\''])

/-- What stands in a `SELECT`; the arguments are SQL. -/
inductive SelectItem where
  | literal (lit as_ : Text)
  | null (as_ : Text)
  | column (col : Text)
  | castDouble (col as_ : Text)
  | castVarchar (col as_ : Text)

def SelectItem.sql : SelectItem → Text
  | .literal lit as_ => lit ++ " AS ".toList ++ as_
  | .null as_ => "NULL AS ".toList ++ as_
  | .column col => col
  | .castDouble col as_ => "CAST(".toList ++ col ++ " AS DOUBLE) AS ".toList ++ as_
  | .castVarchar col as_ => "CAST(".toList ++ col ++ " AS VARCHAR) AS ".toList ++ as_

structure Branch where
  selects : List SelectItem
  db : Text
  table : Text

def Branch.sql (b : Branch) : Text :=
  "SELECT ".toList ++ List.intercalate ", ".toList (b.selects.map SelectItem.sql) ++
    " FROM ".toList ++ b.db ++ ".".toList ++ b.table

structure ViewSql where
  name : Text
  branches : List Branch

def ViewSql.sql (v : ViewSql) : Text :=
  "CREATE VIEW ".toList ++ v.name ++ " AS ".toList ++
    List.intercalate " UNION ALL ".toList (v.branches.map Branch.sql)

def planOf (perDb : List (Text × List UnionField)) (col : Text) : ColPlan :=
  reconcile (perDb.filterMap fun p => typeOf? p.2 col)

def selectOf (perDb : List (Text × List UnionField)) (fields : List UnionField) (col : Text) : SelectItem :=
  if fields.any (·.name = col) then
    match planOf perDb col with
    | .keep => .column (quoteIdent col)
    | .castDouble => .castDouble (quoteIdent col) (quoteIdent col)
    | .castVarchar => .castVarchar (quoteIdent col) (quoteIdent col)
  else .null (quoteIdent col)

def branchOf (table : Text) (perDb : List (Text × List UnionField)) (p : Text × List UnionField) : Branch where
  selects :=
    .literal (sqlStrLit p.1) (quoteIdent provenanceColumn) ::
      (supersetColumns perDb).map fun f => selectOf perDb p.2 f.name
  db := quoteIdent p.1
  table := quoteIdent table

def buildUnionViewSql (table : Text) (perDb : List (Text × List UnionField)) : Except Refusal ViewSql :=
  if perDb.isEmpty then .error (.noDatabases table)
  else
    match perDb.find? (fun p => p.2.any (·.name = provenanceColumn)) with
    | some p => .error (.collision p.1 table)
    | none => .ok ⟨quoteIdent table, perDb.map (branchOf table perDb)⟩

set_option maxRecDepth 4000 in
example : (buildUnionViewSql "e".toList [("a".toList, [⟨"m".toList, .utf8⟩])]).toOption.map ViewSql.sql =
      some "CREATE VIEW \"e\" AS SELECT 'a' AS \"__database\", \"m\" FROM \"a\".\"e\"".toList := by
  decide

/-! ### The engine -/

def readQuoted (q : Char) : Text → Option Text
  | [] => none
  | c :: cs =>
    if c = q then
      match SqlText.quotedText q cs with
      | some (s, []) => some s
      | _ => none
    else none

inductive Expr where
  | literal (s : Text)
  | null
  | column (col : Text)
  | toDouble (col : Text)
  | toVarchar (col : Text)

structure Item where
  name : Text
  expr : Expr

def SelectItem.read : SelectItem → Option Item
  | .literal lit as_ => do some ⟨← readQuoted '"' as_, .literal (← readQuoted '\'' lit)⟩
  | .null as_ => do some ⟨← readQuoted '"' as_, .null⟩
  | .column col => do some ⟨← readQuoted '"' col, .column (← readQuoted '"' col)⟩
  | .castDouble col as_ => do some ⟨← readQuoted '"' as_, .toDouble (← readQuoted '"' col)⟩
  | .castVarchar col as_ => do some ⟨← readQuoted '"' as_, .toVarchar (← readQuoted '"' col)⟩

def Expr.resolves (casts : Casts F) (fields : List UnionField) : Expr → Bool
  | .literal _ => true
  | .null => true
  | .column col => (typeOf? fields col).isSome
  | .toDouble col => (typeOf? fields col).any DataType.isNumeric
  | .toVarchar col => (typeOf? fields col).any casts.castable

def Expr.value (casts : Casts F) (fields : List UnionField) (r : Text → Value F) : Expr → Value F
  | .literal s => .text s
  | .null => .null
  | .column col => r col
  | .toDouble col => castDouble casts (r col)
  | .toVarchar col => castVarchar casts ((typeOf? fields col).getD .utf8) (r col)

/-- A view as the engine keeps it: its columns, and the tables with what is selected of each. -/
structure View (F : Type) where
  columns : List Text
  branches : List (Table F × List Item)

/-- `UNION ALL` of the branches, by position. -/
def View.rows (casts : Casts F) (v : View F) : List (List (Value F)) :=
  v.branches.flatMap fun b =>
    b.1.rows.map fun r => b.2.map fun i => i.expr.value casts b.1.fields r

structure Context (F : Type) where
  schemas : List Text
  tables : List ((Text × Text) × Table F)
  views : List (Text × View F)

def defaultSchema : Text := ['p', 'u', 'b', 'l', 'i', 'c']

def Context.new : Context F := ⟨[defaultSchema], [], []⟩

def registerTable (ctx : Context F) (dt : DbTable F) : Except Refusal (Context F) :=
  if ctx.schemas.contains dt.db ∧ (dt.db, dt.table.name) ∉ ctx.tables.map Prod.fst then
    .ok { ctx with tables := ctx.tables ++ [((dt.db, dt.table.name), dt.table)] }
  else .error (.register dt.db dt.table.name)

/-- The engine reads the names, finds the table, whose columns must have different names, and checks
every item. -/
def planBranch (casts : Casts F) (ctx : Context F) (b : Branch) : Option (Table F × List Item) := do
  let db ← readQuoted '"' b.db
  let name ← readQuoted '"' b.table
  let t ← ctx.tables.lookup (db, name)
  let items ← b.selects.mapM SelectItem.read
  if (t.fields.map UnionField.name).Nodup ∧ items.all (fun i => i.expr.resolves casts t.fields) then
    some (t, items)
  else none

/-- `CREATE VIEW`: the columns are named by the first branch. -/
def planView (casts : Casts F) (ctx : Context F) (sql : ViewSql) : Option (Text × View F) := do
  let name ← readQuoted '"' sql.name
  let branches ← sql.branches.mapM (planBranch casts ctx)
  if (defaultSchema, name) ∈ ctx.tables.map Prod.fst ∨ name ∈ ctx.views.map Prod.fst then none
  else some (name, ⟨(branches.headD (default_, [])).2.map Item.name, branches⟩)
where
  default_ : Table F := ⟨[], [], none, [], by simp⟩

def createView (casts : Casts F) (ctx : Context F) (table : Text) (sql : ViewSql) : Except Refusal (Context F) :=
  match planView casts ctx sql with
  | some v => .ok { ctx with views := ctx.views ++ [v] }
  | none => .error (.createView table)

/-! ### What is prepared for a query -/

abbrev Federation (F : Type) := List (Table F) → Except Text Unit

def databasesOf (dbTables : List (DbTable F)) : List Text := (dbTables.map DbTable.db).dedup.insertionSort (· ≤ ·)

def registerAll : List (DbTable F) → Context F → Except Refusal (Context F)
  | [], ctx => .ok ctx
  | dt :: dts, ctx => registerTable ctx dt >>= registerAll dts

def registerFederated (runtime : Federation F) (fed : List (DbTable F)) :
    List Text → Context F → Except Refusal (Context F)
  | [], ctx => .ok ctx
  | db :: dbs, ctx =>
    let own := fed.filter (·.db = db)
    match runtime (own.map DbTable.table) with
    | .error e => .error (.providers db e)
    | .ok _ => registerAll own ctx >>= registerFederated runtime fed dbs

def createViews (casts : Casts F) : List (Text × List (Text × Table F)) → Context F → Except Refusal (Context F)
  | [], ctx => .ok ctx
  | (name, perDb) :: groups, ctx =>
    buildUnionViewSql name (fieldsOf perDb) >>= fun sql =>
      createView casts ctx name sql >>= createViews casts groups

def isFederated (dt : DbTable F) : Bool := dt.table.federated.isSome

def registerMultidbContext (casts : Casts F) (federation : Option (Federation F))
    (dbTables : List (DbTable F)) : Except Refusal (Context F) :=
  let ctx : Context F := { Context.new with schemas := defaultSchema :: databasesOf dbTables }
  let fed := dbTables.filter isFederated
  let withFederated :=
    match databasesOf fed, federation with
    | [], _ => .ok ctx
    | _ :: _, none => .error .noRuntime
    | dbs, some runtime => registerFederated runtime fed dbs ctx
  withFederated >>= registerAll (dbTables.filter (!isFederated ·)) >>= createViews casts (groupByTable dbTables)

def serve (casts : Casts F) (federation : Option (Federation F)) (catalog : Catalog F)
    (allowed : Option (List Text)) : Except Refusal (List (Text × List Text) × Context F) :=
  resolveAllDbTables catalog allowed >>= fun dbTables =>
    if dbTables.isEmpty then .error .empty
    else
      registerMultidbContext casts federation dbTables >>= fun ctx =>
        .ok (buildMultidbSchemaMap dbTables, ctx)

/-! ### What is to be seen -/

/-- The database is not internal and is allowed, its tables can be listed, and the table is one of
them and does not opt out. -/
def Open (catalog : Catalog F) (allowed : Option (List Text)) (db : Text) (t : Table F) : Prop :=
  db ∉ internalDatabases ∧ allows allowed db = true ∧
    ∃ tables, catalog.tables db = .ok tables ∧ t ∈ tables ∧ t.federated ≠ some true

def Shown (catalog : Catalog F) (allowed : Option (List Text)) (db : Text) (t : Table F) : Prop :=
  ∃ dbs, catalog.databases = .ok dbs ∧ db ∈ dbs ∧ Open catalog allowed db t

def typesOf (members : List (Text × Table F)) (col : Text) : List DataType :=
  members.filterMap fun m => typeOf? m.2.fields col

/-- A cell of the view: a null if the table lacks the column, and else the stored value under the
plan of the column. -/
def cell (casts : Casts F) (members : List (Text × Table F)) (t : Table F) (r : Text → Value F)
    (col : Text) : Value F :=
  match typeOf? t.fields col with
  | none => .null
  | some type => (reconcile (typesOf members col)).cast casts type (r col)

def outerRow (casts : Casts F) (members : List (Text × Table F)) (columns : List Text)
    (m : Text × Table F) (r : Text → Value F) : List (Value F) :=
  .text m.1 :: columns.map (cell casts members m.2 r)

/-- **The union of the tables `members`**: its columns are the database and those of the tables, its
rows are those of every table, once each; a column is kept if it has one type, is of doubles if its
types are numbers, and is of texts otherwise. -/
structure ExactUnion (casts : Casts F) (members : List (Text × Table F)) (columns : List Text)
    (view : View F) : Prop where
  header : view.columns = provenanceColumn :: columns
  columns_nodup : (provenanceColumn :: columns).Nodup
  mem_columns : ∀ c, c ∈ columns ↔ ∃ m ∈ members, ∃ f ∈ m.2.fields, f.name = c
  rows : view.rows casts = members.flatMap fun m => m.2.rows.map (outerRow casts members columns m)
  kept : ∀ c, reconcile (typesOf members c) = .keep ↔ ∀ t ∈ typesOf members c, ∀ u ∈ typesOf members c, t = u
  doubles : ∀ c, reconcile (typesOf members c) = .castDouble ↔
    reconcile (typesOf members c) ≠ .keep ∧ ∀ t ∈ typesOf members c, t.isNumeric = true
  same : ∀ c, ∀ m ∈ members, ∀ m' ∈ members, ∀ r ∈ m.2.rows, ∀ r' ∈ m'.2.rows,
    ∀ t ∈ typeOf? m.2.fields c, ∀ t' ∈ typeOf? m'.2.fields c,
    Comparable casts (reconcile (typesOf members c)) (r c) →
    Comparable casts (reconcile (typesOf members c)) (r' c) →
    ((cell casts members m.2 r c).Same casts (cell casts members m'.2 r' c) ↔
      SameStored casts (reconcile (typesOf members c)) t (r c) t' (r' c))
  recover : ∀ c, ∀ m ∈ members, ∀ t ∈ typeOf? m.2.fields c, ∃ read : Value F → Value F,
    ∀ r ∈ m.2.rows, Recoverable casts (reconcile (typesOf members c)) t (r c) → read (cell casts members m.2 r c) = r c

theorem eq_map_of_forall₂ {α β : Type} {R : α → β → Prop} {f : α → β} {l : List α} {l' : List β}
    (h : List.Forall₂ R l l') (hf : ∀ a ∈ l, ∀ b, R a b → b = f a) : l' = l.map f := by
  induction h with
  | nil => rfl
  | cons hab _ ih =>
    rw [map_cons, hf _ (mem_cons_self ..) _ hab, ih fun a ha => hf a (mem_cons_of_mem _ ha)]

/-! ### The selection is of what is to be seen -/

variable {dt : DbTable F}

theorem mem_collect {catalog : Catalog F} {allowed : Option (List Text)} {dbs : List Text}
    {out : List (DbTable F)} :
    dt ∈ collect catalog allowed dbs out ↔ dt ∈ out ∨ dt.db ∈ dbs ∧ Open catalog allowed dt.db dt.table := by
  induction dbs generalizing out with
  | nil => simp [collect]
  | cons db dbs ih =>
    -- a database that adds nothing: `dt` is not of it
    have hskip (hnot : dt.db = db → ¬ Open catalog allowed dt.db dt.table) :
        dt ∈ collect catalog allowed dbs out ↔ dt ∈ out ∨ dt.db ∈ db :: dbs ∧ Open catalog allowed dt.db dt.table := by
      rw [ih, mem_cons]
      constructor
      · rintro (h | ⟨hdb, h⟩)
        · exact .inl h
        · exact .inr ⟨.inr hdb, h⟩
      · rintro (h | ⟨hdb | hdb, h⟩)
        · exact .inl h
        · exact absurd h (hnot hdb)
        · exact .inr ⟨hdb, h⟩
    unfold collect
    split
    · rename_i hint
      refine hskip ?_
      rintro rfl ⟨hnot, -⟩
      exact hnot (by simpa using hint)
    · rename_i hint
      split
      · rename_i hdeny
        refine hskip ?_
        rintro rfl ⟨-, hallow, -⟩
        simp [hallow] at hdeny
      · rename_i hdeny
        split
        · rename_i tables htables
          rw [ih, mem_append, mem_cons]
          constructor
          · rintro ((h | h) | ⟨hdb, h⟩)
            · exact .inl h
            · obtain ⟨t, ht, rfl⟩ := mem_map.1 h
              obtain ⟨htm, hopt⟩ := mem_filter.1 ht
              refine .inr ⟨.inl rfl, by simpa using hint, by simpa using hdeny, tables, htables, htm, ?_⟩
              simpa [optsOut] using hopt
            · exact .inr ⟨.inr hdb, h⟩
          · rintro (h | ⟨hdb | hdb, h⟩)
            · exact .inl (.inl h)
            · obtain ⟨-, -, tables', htables', htm, hopt⟩ := h
              rw [hdb, htables] at htables'
              cases htables'
              refine .inl (.inr (mem_map.2 ⟨dt.table, mem_filter.2 ⟨htm, ?_⟩, ?_⟩))
              · simpa [optsOut] using hopt
              · rw [← hdb]
            · exact .inr ⟨hdb, h⟩
        · rename_i e hfail
          refine hskip ?_
          rintro rfl ⟨-, -, tables, htables, -⟩
          cases htables.symm.trans hfail

variable {dbTables : List (DbTable F)}

theorem mem_resolve {catalog : Catalog F} {allowed : Option (List Text)}
    (h : resolveAllDbTables catalog allowed = .ok dbTables) : dt ∈ dbTables ↔ Shown catalog allowed dt.db dt.table := by
  unfold resolveAllDbTables at h
  split at h
  · cases h
  · rename_i dbs hdbs
    cases h
    rw [mem_collect]
    constructor
    · rintro (hnil | ⟨hdb, hopen⟩)
      · cases hnil
      · exact ⟨dbs, hdbs, hdb, hopen⟩
    · rintro ⟨dbs', hdbs', hdb, hopen⟩
      cases hdbs.symm.trans hdbs'
      exact .inr ⟨hdb, hopen⟩

theorem mem_entriesOf {name : Text} {m : Text × Table F} :
    m ∈ entriesOf dbTables name ↔ ⟨m.1, m.2⟩ ∈ dbTables ∧ m.2.name = name := by
  unfold entriesOf
  rw [mem_insertionSort, mem_map]
  constructor
  · rintro ⟨dt, hdt, rfl⟩
    obtain ⟨hmem, hname⟩ := mem_filter.1 hdt
    exact ⟨hmem, by simpa using hname⟩
  · rintro ⟨hmem, hname⟩
    exact ⟨_, mem_filter.2 ⟨hmem, by simpa using hname⟩, rfl⟩

theorem groupByTable_names (dbTables : List (DbTable F)) : ((groupByTable dbTables).map Prod.fst).Nodup ∧
      ∀ name, name ∈ (groupByTable dbTables).map Prod.fst ↔ ∃ dt ∈ dbTables, dt.table.name = name := by
  have hmap : (groupByTable dbTables).map Prod.fst = (dbTables.map (·.table.name)).dedup.insertionSort (· ≤ ·) := by
    unfold groupByTable
    rw [map_map]
    exact map_id _
  rw [hmap]
  constructor
  · exact (perm_insertionSort ..).nodup_iff.2 (nodup_dedup _)
  · intro name
    rw [mem_insertionSort, mem_dedup, mem_map]

theorem lookup_groupByTable {name : Text} (hdt : dt ∈ dbTables) (hname : dt.table.name = name) :
    (name, entriesOf dbTables name) ∈ groupByTable dbTables := by
  unfold groupByTable
  refine mem_map.2 ⟨name, ?_, rfl⟩
  rw [mem_insertionSort, mem_dedup, mem_map]
  exact ⟨dt, hdt, hname⟩

/-! ### The columns -/

variable {fields : List UnionField}

theorem supersetColumns_fold {out : List UnionField} (hout : (out.map UnionField.name).Nodup) :
    ((fields.foldl addField out).map UnionField.name).Nodup ∧ ∀ c, c ∈ (fields.foldl addField out).map UnionField.name ↔
        c ∈ out.map UnionField.name ∨ ∃ f ∈ fields, f.name = c := by
  induction fields generalizing out with
  | nil => simpa using hout
  | cons f fields ih =>
    rw [foldl_cons]
    have hstep : ((addField out f).map UnionField.name).Nodup ∧
        ∀ c, c ∈ (addField out f).map UnionField.name ↔ c ∈ out.map UnionField.name ∨ f.name = c := by
      unfold addField
      split
      · rename_i hseen
        obtain ⟨g, hg, hname⟩ := any_eq_true.1 hseen
        have hmem : f.name ∈ out.map UnionField.name := mem_map.2 ⟨g, hg, by simpa using hname⟩
        refine ⟨hout, fun c => ⟨.inl, ?_⟩⟩
        rintro (h | rfl)
        · exact h
        · exact hmem
      · rename_i hnew
        have hnot : f.name ∉ out.map UnionField.name := by
          intro hmem
          obtain ⟨g, hg, hname⟩ := mem_map.1 hmem
          exact hnew (any_eq_true.2 ⟨g, hg, by simpa using hname⟩)
        constructor
        · rw [map_append, nodup_append']
          exact ⟨hout, nodup_singleton _, by simpa using hnot⟩
        · intro c
          rw [map_append, mem_append]
          simp [eq_comm]
    obtain ⟨hnodup, hmem⟩ := ih hstep.1
    refine ⟨hnodup, fun c => ?_⟩
    rw [hmem, hstep.2]
    constructor
    · rintro ((h | h) | ⟨g, hg, h⟩)
      · exact .inl h
      · exact .inr ⟨f, mem_cons_self .., h⟩
      · exact .inr ⟨g, mem_cons_of_mem _ hg, h⟩
    · rintro (h | ⟨g, hg, h⟩)
      · exact .inl (.inl h)
      · rcases mem_cons.1 hg with rfl | hg
        · exact .inl (.inr h)
        · exact .inr ⟨g, hg, h⟩

theorem supersetColumns_names (members : List (Text × Table F)) :
    ((supersetColumns (fieldsOf members)).map UnionField.name).Nodup ∧
      ∀ c, c ∈ (supersetColumns (fieldsOf members)).map UnionField.name ↔
        ∃ m ∈ members, ∃ f ∈ m.2.fields, f.name = c := by
  have hnil : (([] : List UnionField).map UnionField.name).Nodup := nodup_nil
  obtain ⟨hnodup, hmem⟩ : ((supersetColumns (fieldsOf members)).map UnionField.name).Nodup ∧ _ :=
    supersetColumns_fold hnil
  refine ⟨hnodup, fun c => (hmem c).trans ?_⟩
  simp only [fieldsOf, map_nil, not_mem_nil, false_or, mem_flatMap, mem_map]
  constructor
  · rintro ⟨f, ⟨p, ⟨m, hm, rfl⟩, hf⟩, hc⟩
    exact ⟨m, hm, f, hf, hc⟩
  · rintro ⟨m, hm, f, hf, hc⟩
    exact ⟨f, ⟨_, ⟨m, hm, rfl⟩, hf⟩, hc⟩

theorem planOf_fieldsOf (members : List (Text × Table F)) (col : Text) :
    planOf (fieldsOf members) col = reconcile (typesOf members col) := by
  unfold planOf fieldsOf typesOf
  rw [filterMap_map]
  rfl

theorem typeOf?_isSome {col : Text} : (typeOf? fields col).isSome = fields.any (·.name = col) := by
  rw [typeOf?, Option.isSome_map, isSome_find?]

/-! ### Reading the SQL -/

theorem readQuoted_quoteIdent (s : Text) : readQuoted '"' (quoteIdent s) = some s := by
  have h : SqlText.quotedText '"' (SqlText.doubled '"' s ++ ['"']) = some (s, []) :=
    SqlText.quotedText_doubled s (by simp [SqlText.NoQuote])
  simp [readQuoted, quoteIdent, h]

theorem readQuoted_sqlStrLit (s : Text) : readQuoted '\'' (sqlStrLit s) = some s := by
  have h : SqlText.quotedText '\'' (SqlText.doubled '\'' s ++ ['\'']) = some (s, []) :=
    SqlText.quotedText_doubled s (by simp [SqlText.NoQuote])
  simp [readQuoted, sqlStrLit, h]

def exprOf (perDb : List (Text × List UnionField)) (fields : List UnionField) (col : Text) : Expr :=
  if fields.any (·.name = col) then
    match planOf perDb col with
    | .keep => .column col
    | .castDouble => .toDouble col
    | .castVarchar => .toVarchar col
  else .null

def itemsOf (perDb : List (Text × List UnionField)) (p : Text × List UnionField) : List Item :=
  ⟨provenanceColumn, .literal p.1⟩ :: (supersetColumns perDb).map fun f => ⟨f.name, exprOf perDb p.2 f.name⟩

theorem read_selectOf (perDb : List (Text × List UnionField)) (fields : List UnionField) (col : Text) :
    (selectOf perDb fields col).read = some ⟨col, exprOf perDb fields col⟩ := by
  unfold selectOf exprOf
  split
  · cases planOf perDb col <;> simp [SelectItem.read, readQuoted_quoteIdent]
  · simp [SelectItem.read, readQuoted_quoteIdent]

theorem read_branchOf (table : Text) (perDb : List (Text × List UnionField)) (p : Text × List UnionField) :
    (branchOf table perDb p).selects.mapM SelectItem.read = some (itemsOf perDb p) := by
  have hliteral : (SelectItem.literal (sqlStrLit p.1) (quoteIdent provenanceColumn)).read =
      some ⟨provenanceColumn, .literal p.1⟩ := by
    simp [SelectItem.read, readQuoted_quoteIdent, readQuoted_sqlStrLit]
  have hrest := mapM_map_eq (fun f : UnionField => read_selectOf perDb p.2 f.name)
    (supersetColumns perDb)
  unfold branchOf itemsOf
  rw [mapM_cons, hliteral, hrest]
  rfl

variable {casts : Casts F}

theorem planBranch_branchOf {ctx : Context F} {table : Text}
    {perDb : List (Text × List UnionField)} {p : Text × List UnionField} {b : Table F × List Item}
    (h : planBranch casts ctx (branchOf table perDb p) = some b) :
    ctx.tables.lookup (p.1, table) = some b.1 ∧ b.2 = itemsOf perDb p := by
  have hdb : readQuoted '"' (branchOf table perDb p).db = some p.1 := readQuoted_quoteIdent p.1
  have htable : readQuoted '"' (branchOf table perDb p).table = some table := readQuoted_quoteIdent table
  unfold planBranch at h
  simp only [hdb, htable, read_branchOf, Option.bind_eq_bind, Option.bind_some] at h
  cases hlookup : ctx.tables.lookup (p.1, table) with
  | none => simp [hlookup] at h
  | some t =>
    simp only [hlookup, Option.bind_some] at h
    split at h
    · cases h
      exact ⟨rfl, rfl⟩
    · cases h

theorem value_itemsOf (casts : Casts F) (members : List (Text × Table F)) (m : Text × Table F) (r : Text → Value F) :
    (itemsOf (fieldsOf members) (m.1, m.2.fields)).map (fun i => i.expr.value casts m.2.fields r) =
      outerRow casts members ((supersetColumns (fieldsOf members)).map UnionField.name) m r := by
  unfold itemsOf outerRow
  rw [map_cons, map_map, map_map]
  congr 1
  refine map_congr_left fun f _ => ?_
  simp only [Function.comp_apply]
  unfold exprOf cell
  rw [← typeOf?_isSome]
  cases htype : typeOf? m.2.fields f.name with
  | none => rfl
  | some type =>
    rw [planOf_fieldsOf]
    simp only [Option.isSome_some, if_true]
    cases reconcile (typesOf members f.name) with
    | keep | castDouble => rfl
    | castVarchar => simp [Expr.value, htype, ColPlan.cast]

/-! ### What the engine has made -/

structure Created (casts : Casts F) (tables : List ((Text × Text) × Table F))
    (g : Text × List (Text × Table F)) (v : Text × View F) : Prop where
  name : v.1 = g.1
  no_collision : ∀ m ∈ g.2, ∀ f ∈ m.2.fields, f.name ≠ provenanceColumn
  nonempty : g.2 ≠ []
  branches : List.Forall₂ (fun m b => tables.lookup (m.1, g.1) = some b.1 ∧
    b.2 = itemsOf (fieldsOf g.2) (m.1, m.2.fields)) g.2 v.2.branches
  columns : v.2.columns = provenanceColumn :: (supersetColumns (fieldsOf g.2)).map UnionField.name

variable {g : Text × List (Text × Table F)} {v : Text × View F}

theorem created_of_planView {ctx : Context F} {sql : ViewSql}
    (hsql : buildUnionViewSql g.1 (fieldsOf g.2) = .ok sql)
    (hplan : planView casts ctx sql = some v) : Created casts ctx.tables g v := by
  unfold buildUnionViewSql at hsql
  split at hsql
  · cases hsql
  · rename_i hne
    split at hsql
    · cases hsql
    · rename_i hfind
      cases hsql
      unfold planView at hplan
      simp only [readQuoted_quoteIdent, Option.bind_eq_bind, Option.bind_some] at hplan
      obtain ⟨branches, hbranches, hplan⟩ := Option.bind_eq_some_iff.1 hplan
      split at hplan
      · cases hplan
      · cases hplan
        have hnonempty : g.2 ≠ [] := fun h => hne (by simp [h, fieldsOf])
        have hforall : List.Forall₂ (fun m b => ctx.tables.lookup (m.1, g.1) = some b.1 ∧
            b.2 = itemsOf (fieldsOf g.2) (m.1, m.2.fields)) g.2 branches := by
          have hmap := mapM_eq_some_iff.1 hbranches
          rw [forall₂_map_left_iff] at hmap
          unfold fieldsOf at hmap
          rw [forall₂_map_left_iff] at hmap
          exact hmap.imp fun m b hb => planBranch_branchOf hb
        refine ⟨rfl, ?_, hnonempty, hforall, ?_⟩
        · intro m hm f hf heq
          have hnone := find?_eq_none.1 hfind (m.1, m.2.fields)
            (mem_map.2 ⟨m, hm, rfl⟩)
          exact hnone (any_eq_true.2 ⟨f, hf, by simpa using heq⟩)
        · obtain ⟨m, rest, hg⟩ := exists_cons_of_ne_nil hnonempty
          rw [hg] at hforall ⊢
          cases hforall with
          | cons hhead _ =>
            simp only [headD_cons, hhead.2, itemsOf, map_cons, map_map]
            rfl

theorem Created.rows {tables : List ((Text × Text) × Table F)} (h : Created casts tables g v)
    (hlookup : ∀ m ∈ g.2, tables.lookup (m.1, g.1) = some m.2) : v.2.rows casts = g.2.flatMap fun m => m.2.rows.map
      (outerRow casts g.2 ((supersetColumns (fieldsOf g.2)).map UnionField.name) m) := by
  have hbranches : v.2.branches = g.2.map fun m => (m.2, itemsOf (fieldsOf g.2) (m.1, m.2.fields)) := by
    refine eq_map_of_forall₂ h.branches fun m hm b hb => ?_
    have ht : b.1 = m.2 := Option.some.inj (hb.1.symm.trans (hlookup m hm))
    exact Prod.ext ht hb.2
  unfold View.rows
  rw [hbranches, flatMap_map]
  refine flatMap_congr fun m _ => map_congr_left fun r _ => ?_
  exact value_itemsOf casts g.2 m r

/-! ### What is registered -/

def entry (dt : DbTable F) : (Text × Text) × Table F := ((dt.db, dt.table.name), dt.table)

variable {ctx ctx' : Context F}

theorem registerTable_ok (h : registerTable ctx dt = .ok ctx') : ctx'.tables = ctx.tables ++ [entry dt] ∧
      ((ctx.tables.map Prod.fst).Nodup → (ctx'.tables.map Prod.fst).Nodup) ∧ ctx'.views = ctx.views := by
  unfold registerTable at h
  split at h
  · rename_i hfree
    cases h
    refine ⟨rfl, fun hnodup => ?_, rfl⟩
    rw [map_append, nodup_append']
    exact ⟨hnodup, nodup_singleton _, by simpa using hfree.2⟩
  · cases h

theorem registerAll_ok {dts : List (DbTable F)}
    (h : registerAll dts ctx = .ok ctx') : ctx'.tables = ctx.tables ++ dts.map entry ∧
      ((ctx.tables.map Prod.fst).Nodup → (ctx'.tables.map Prod.fst).Nodup) ∧ ctx'.views = ctx.views := by
  induction dts generalizing ctx with
  | nil =>
    cases h
    exact ⟨by simp, id, rfl⟩
  | cons dt dts ih =>
    cases hone : registerTable ctx dt with
    | error e =>
      rw [registerAll, hone] at h
      cases h
    | ok mid =>
      rw [registerAll, hone] at h
      obtain ⟨htables, hnodup, hviews⟩ := registerTable_ok hone
      obtain ⟨htables', hnodup', hviews'⟩ := ih h
      exact ⟨by rw [htables', htables]; simp, fun h0 => hnodup' (hnodup h0), hviews'.trans hviews⟩

theorem registerFederated_ok {runtime : Federation F} {fed : List (DbTable F)} {dbs : List Text} (h : registerFederated runtime fed dbs ctx = .ok ctx') :
    ctx'.tables = ctx.tables ++ (dbs.flatMap fun db => fed.filter (·.db = db)).map entry ∧
      ((ctx.tables.map Prod.fst).Nodup → (ctx'.tables.map Prod.fst).Nodup) ∧ ctx'.views = ctx.views := by
  induction dbs generalizing ctx with
  | nil =>
    cases h
    exact ⟨by simp, id, rfl⟩
  | cons db dbs ih =>
    unfold registerFederated at h
    dsimp only at h
    split at h
    · cases h
    · cases hown : registerAll (fed.filter (·.db = db)) ctx with
      | error e =>
        rw [hown] at h
        cases h
      | ok mid =>
        rw [hown] at h
        obtain ⟨htables, hnodup, hviews⟩ := registerAll_ok hown
        obtain ⟨htables', hnodup', hviews'⟩ := ih h
        exact ⟨by rw [htables', htables]; simp, fun h0 => hnodup' (hnodup h0), hviews'.trans hviews⟩

theorem createViews_ok {groups : List (Text × List (Text × Table F))} (h : createViews casts groups ctx = .ok ctx') :
    ctx'.tables = ctx.tables ∧ ∃ vs, ctx'.views = ctx.views ++ vs ∧
      List.Forall₂ (Created casts ctx.tables) groups vs := by
  induction groups generalizing ctx with
  | nil =>
    cases h
    exact ⟨rfl, [], by simp, .nil⟩
  | cons g groups ih =>
    obtain ⟨name, perDb⟩ := g
    cases hsql : buildUnionViewSql name (fieldsOf perDb) with
    | error e =>
      rw [createViews, hsql] at h
      cases h
    | ok sql =>
      cases hplan : planView casts ctx sql with
      | none =>
        have hview : createView casts ctx name sql = .error (.createView name) := by
          simp [createView, hplan]
        rw [createViews, hsql] at h
        change createView casts ctx name sql >>= createViews casts groups = _ at h
        rw [hview] at h
        cases h
      | some v =>
        have hview : createView casts ctx name sql = .ok { ctx with views := ctx.views ++ [v] } := by
          simp [createView, hplan]
        rw [createViews, hsql] at h
        change createView casts ctx name sql >>= createViews casts groups = _ at h
        rw [hview] at h
        obtain ⟨htables, vs, hviews, hall⟩ := ih h
        refine ⟨htables, v :: vs, by rw [hviews]; simp, .cons ?_ hall⟩
        exact created_of_planView (g := (name, perDb)) hsql hplan

theorem register_ok {federation : Option (Federation F)} {ctx : Context F}
    (h : registerMultidbContext casts federation dbTables = .ok ctx) :
    ctx.tables.Perm (dbTables.map entry) ∧ (ctx.tables.map Prod.fst).Nodup ∧
      List.Forall₂ (Created casts ctx.tables) (groupByTable dbTables) ctx.views := by
  unfold registerMultidbContext at h
  obtain ⟨mid', hmid', hviews⟩ := bind_eq_ok.1 h
  obtain ⟨mid, hmid, hlocal⟩ := bind_eq_ok.1 hmid'
  -- the federated tables come first, database by database
  have hfed : mid.tables.Perm ((dbTables.filter isFederated).map entry) ∧
      (mid.tables.map Prod.fst).Nodup ∧ mid.views = [] := by
    split at hmid
    · rename_i hnone
      cases hmid
      have hempty : dbTables.filter isFederated = [] := by
        have hlen := (perm_insertionSort (· ≤ ·)
          ((dbTables.filter isFederated).map DbTable.db).dedup).length_eq
        unfold databasesOf at hnone
        rw [hnone] at hlen
        have hdedup := eq_nil_of_length_eq_zero hlen.symm
        exact map_eq_nil_iff.1 ((dedup_eq_nil _).1 hdedup)
      rw [hempty]
      exact ⟨.nil, nodup_nil, rfl⟩
    · cases hmid
    · obtain ⟨htables, hnodup, hmidviews⟩ := registerFederated_ok hmid
      refine ⟨?_, hnodup nodup_nil, hmidviews⟩
      rw [htables]
      have hdbs : (databasesOf (dbTables.filter isFederated)).Nodup :=
        (perm_insertionSort ..).nodup_iff.2 (nodup_dedup _)
      refine (Rows.flatMap_filter_perm hdbs fun dt hdt => ?_).map entry
      unfold databasesOf
      rw [mem_insertionSort, mem_dedup]
      exact mem_map.2 ⟨dt, hdt, rfl⟩
  obtain ⟨hfedtables, hfednodup, hfedviews⟩ := hfed
  obtain ⟨htables, hnodup, hmidviews⟩ := registerAll_ok hlocal
  obtain ⟨hsame, vs, hvs, hall⟩ := createViews_ok hviews
  rw [hmidviews, hfedviews] at hvs
  rw [hsame, hvs]
  refine ⟨?_, hnodup hfednodup, hall⟩
  rw [htables]
  refine (hfedtables.append_right _).trans ?_
  rw [← map_append]
  exact (filter_append_perm isFederated dbTables).map entry

/-! ### The view that is served -/

structure Members (catalog : Catalog F) (allowed : Option (List Text)) (name : Text)
    (members : List (Text × Table F)) : Prop where
  nodup : (members.map Prod.fst).Nodup
  mem : ∀ db t, (db, t) ∈ members ↔ Shown catalog allowed db t ∧ t.name = name

theorem nodup_entriesOf (h : ((dbTables.map entry).map Prod.fst).Nodup)
    (name : Text) : ((entriesOf dbTables name).map Prod.fst).Nodup := by
  have hperm : ((entriesOf dbTables name).map Prod.fst).Perm
      ((dbTables.filter (·.table.name = name)).map DbTable.db) := by
    unfold entriesOf
    have := (perm_insertionSort (fun a b : Text × Table F => a.1 ≤ b.1)
      ((dbTables.filter (·.table.name = name)).map fun dt => (dt.db, dt.table))).map Prod.fst
    rw [map_map] at this
    exact this
  rw [hperm.nodup_iff]
  rw [map_map] at h
  have hpairs := h.sublist ((filter_sublist (p := (·.table.name = name)) (l := dbTables)).map
    (Prod.fst ∘ entry))
  refine List.Nodup.of_map (fun db => (db, name)) ?_
  rw [map_map]
  convert hpairs using 1
  refine map_congr_left fun dt hdt => ?_
  have hname : dt.table.name = name := by simpa using (mem_filter.1 hdt).2
  simp [entry, hname]

theorem typeOf?_mem {c : Text} {t : DataType} (h : t ∈ typeOf? fields c) :
    ∃ f ∈ fields, f.name = c ∧ f.dataType = t := by
  obtain ⟨f, hf, rfl⟩ := Option.map_eq_some_iff.1 h
  exact ⟨f, mem_of_find?_eq_some hf, by simpa using find?_some hf, rfl⟩

theorem cell_of_typeOf? {members : List (Text × Table F)} {t : Table F}
    {r : Text → Value F} {c : Text} {type : DataType} (h : type ∈ typeOf? t.fields c) :
    cell casts members t r c = (reconcile (typesOf members c)).cast casts type (r c) := by
  have htype : typeOf? t.fields c = some type := h
  simp only [cell, htype]

theorem Created.exactUnion {casts : Casts F} {tables : List ((Text × Text) × Table F)}
    (h : Created casts tables g v) (hlookup : ∀ m ∈ g.2, tables.lookup (m.1, g.1) = some m.2) :
    ExactUnion casts g.2 ((supersetColumns (fieldsOf g.2)).map UnionField.name) v.2 := by
  obtain ⟨hnodup, hmem⟩ := supersetColumns_names g.2
  exact {
    header := h.columns
    columns_nodup := by
      refine nodup_cons.2 ⟨fun hprov => ?_, hnodup⟩
      obtain ⟨m, hm, f, hf, hname⟩ := (hmem _).1 hprov
      exact h.no_collision m hm f hf hname
    mem_columns := hmem
    rows := h.rows hlookup
    kept := fun c => reconcile_eq_keep_iff
    doubles := fun c => reconcile_eq_castDouble_iff
    same := by
      intro c m hm m' hm' r hr r' hr' t ht t' ht' hcomp hcomp'
      rw [cell_of_typeOf? ht, cell_of_typeOf? ht']
      exact same_cast_iff hcomp hcomp'
    recover := by
      intro c m hm t ht
      obtain ⟨read, hread⟩ := exists_recover casts (reconcile (typesOf g.2 c)) t
      refine ⟨read, fun r hr hrec => ?_⟩
      obtain ⟨f, hf, rfl, rfl⟩ := typeOf?_mem ht
      rw [cell_of_typeOf? ht]
      exact hread _ (m.2.typed r hr f hf) hrec }

theorem keys_of_forall₂ {α β : Type} {R : Text × α → Text × β → Prop} {l : List (Text × α)}
    {l' : List (Text × β)} (h : List.Forall₂ R l l') (hkey : ∀ a b, R a b → b.1 = a.1) :
    l'.map Prod.fst = l.map Prod.fst := by
  induction h with
  | nil => rfl
  | cons hab _ ih => rw [map_cons, map_cons, hkey _ _ hab, ih]

/-- Two lists of pairs under the same keys: what is under a key of the one is related to what is under
it in the other. -/
theorem lookup_of_forall₂ {α β : Type} {R : Text × α → Text × β → Prop} {l : List (Text × α)}
    {l' : List (Text × β)} (h : List.Forall₂ R l l') (hkey : ∀ a b, R a b → b.1 = a.1)
    (hnodup : (l.map Prod.fst).Nodup) {a : Text × α} (ha : a ∈ l) :
    ∃ b, R a (a.1, b) ∧ l'.lookup a.1 = some b := by
  induction h with
  | nil => cases ha
  | @cons x y l l' hxy _ ih =>
    have hy := hkey _ _ hxy
    rw [map_cons, nodup_cons] at hnodup
    rcases mem_cons.1 ha with rfl | ha
    · refine ⟨y.2, ?_, ?_⟩
      · rw [← hy]
        exact hxy
      · rw [← hy]
        exact lookup_cons_self
    · obtain ⟨b, hR, hb⟩ := ih hnodup.2 ha
      refine ⟨b, hR, ?_⟩
      have hne : a.1 ≠ y.1 := by
        intro heq
        exact hnodup.1 (mem_map.2 ⟨a, ha, heq.trans hy⟩)
      rw [lookup_cons, beq_false_of_ne hne]
      exact hb

theorem lookup_eq_none {β : Type} {l : List (Text × β)} {k : Text} (h : k ∉ l.map Prod.fst) : l.lookup k = none := by
  rw [lookup_eq_none_iff]
  intro p hp
  have hne : k ≠ p.1 := fun heq => h (mem_map.2 ⟨p, hp, heq.symm⟩)
  simpa using hne

/-- **A view that is served is the union.**  The `*` view of a name is the union of the tables of that
name that are to be seen, the schema map lists its columns in their order, and there is neither if
there is no such table.  Among the values that casts keep are the integers up to fifty-three bits and
all floats, as doubles, and integers and texts, as texts. -/
theorem exactUnion_of_serve {casts : Casts F} {federation : Option (Federation F)}
    {catalog : Catalog F} {allowed : Option (List Text)} {schemas : List (Text × List Text)}
    {ctx : Context F} (h : serve casts federation catalog allowed = .ok (schemas, ctx)) :
    (∀ name, ∃ members, Members catalog allowed name members ∧
      (members = [] → ctx.views.lookup name = none ∧ schemas.lookup name = none) ∧
      (members ≠ [] → ∃ view columns, ctx.views.lookup name = some view ∧
        schemas.lookup name = some view.columns ∧ ExactUnion casts members columns view)) ∧
    (∀ n : ℤ, n.natAbs ≤ 2 ^ 53 → (Value.int n : Value F).IsDouble casts) ∧
    (∀ x : F, (Value.float x : Value F).IsDouble casts) ∧
    (∀ t : DataType, t = .utf8 ∨ t.range.isSome = true → TextFaithful casts t) := by
  obtain ⟨dbTables, hresolve, h⟩ := bind_eq_ok.1 h
  split at h
  · cases h
  obtain ⟨ctx', hregister, h⟩ := bind_eq_ok.1 h
  cases h
  obtain ⟨hperm, hnodup, hcreated⟩ := register_ok hregister
  obtain ⟨hgroups, hmem⟩ := groupByTable_names dbTables
  have hkeys : ((dbTables.map entry).map Prod.fst).Nodup := (hperm.map Prod.fst).nodup_iff.1 hnodup
  refine ⟨fun name => ⟨entriesOf dbTables name, ?_, ?_, ?_⟩, fun n => isDouble_int, fun x => True.intro, ?_⟩
  · refine ⟨nodup_entriesOf hkeys name, fun db t => ?_⟩
    rw [mem_entriesOf, mem_resolve hresolve]
  · -- no table has the name
    intro hempty
    have hnot : name ∉ (groupByTable dbTables).map Prod.fst := by
      rw [hmem]
      rintro ⟨dt, hdt, hname⟩
      have hentry : (dt.db, dt.table) ∈ entriesOf dbTables name := mem_entriesOf.2 ⟨hdt, hname⟩
      rw [hempty] at hentry
      cases hentry
    constructor
    · refine lookup_eq_none fun hview => hnot ?_
      rw [← keys_of_forall₂ hcreated fun _ _ h => h.name]
      exact hview
    · refine lookup_eq_none fun hschema => hnot ?_
      unfold buildMultidbSchemaMap at hschema
      rw [map_map] at hschema
      exact hschema
  · intro hne
    obtain ⟨m, hm⟩ := exists_mem_of_ne_nil _ hne
    obtain ⟨hmdb, hmname⟩ := mem_entriesOf.1 hm
    have hgroup := lookup_groupByTable hmdb hmname
    obtain ⟨view, hview, hlookup⟩ := lookup_of_forall₂ hcreated (fun _ _ h => h.name) hgroups hgroup
    have hentries : ∀ m ∈ entriesOf dbTables name, ctx.tables.lookup (m.1, name) = some m.2 := by
      intro m hm
      obtain ⟨hdb, hname⟩ := mem_entriesOf.1 hm
      refine Rows.lookup_of_mem hnodup (hperm.mem_iff.2 (mem_map.2 ⟨_, hdb, ?_⟩))
      simp [entry, hname]
    refine ⟨view, _, hlookup, ?_, hview.exactUnion hentries⟩
    have hschema : (name, view.columns) ∈ buildMultidbSchemaMap dbTables :=
      mem_map.2 ⟨_, hgroup, by rw [hview.columns]⟩
    refine Rows.lookup_of_mem ?_ hschema
    unfold buildMultidbSchemaMap
    rw [map_map]
    exact hgroups
  · rintro t (rfl | ht)
    · exact textFaithful_utf8
    · obtain ⟨b, hb⟩ := Option.isSome_iff_exists.1 ht
      exact textFaithful_int hb

/-! ### Databases whose integers are counted in doubles -/

def sampleCasts : Casts ℚ where
  number := .finite
  ofInt n := f64OfInt n
  ofDecimal u s := u / 10 ^ s
  textOfFloat _ _ := []
  textOfDecimal _ _ := []
  textOfOther _ bytes := bytes
  castable _ := true
  number_ofInt _ := rfl

def sampleTable (type : DataType) (federated : Option Bool) (values : List (Value ℚ))
    (h : ∀ v ∈ values, v.HasType type) : Table ℚ where
  name := ['t']
  fields := [⟨['n'], type⟩]
  federated := federated
  rows := values.map fun v _ => v
  typed := by
    intro r hr f hf
    obtain ⟨v, hv, rfl⟩ := mem_map.1 hr
    cases mem_singleton.1 hf
    exact h v hv

def sampleInts : Table ℚ :=
  sampleTable .int64 none [.int (2 ^ 53), .int (2 ^ 53 + 1)] (by simp [Value.HasType, DataType.range])

def sampleRemote : Table ℚ := sampleTable .float64 (some true) [.float 1] (by simp [Value.HasType])

/-- The tables of `c` cannot be listed. -/
def sampleCatalog : Catalog ℚ where
  databases := .ok [['b'], ['a'], ['c']]
  tables db :=
    if db = ['a'] then .ok [sampleInts]
    else if db = ['b'] then
      .ok [sampleTable .float64 none [.float (5 / 2)] (by simp [Value.HasType]), sampleRemote]
    else .error []

theorem exactUnion_of_serve_sample : ∃ schemas ctx members view columns,
      serve sampleCasts none sampleCatalog none = .ok (schemas, ctx) ∧
      Members sampleCatalog none ['t'] members ∧ (['a'], sampleInts) ∈ members ∧
      ctx.views.lookup ['t'] = some view ∧ schemas.lookup ['t'] = some view.columns ∧
      ExactUnion sampleCasts members columns view := by
  have hserve : ∃ schemas ctx, serve sampleCasts none sampleCatalog none = .ok (schemas, ctx) := ⟨_, _, rfl⟩
  obtain ⟨schemas, ctx, hok⟩ := hserve
  obtain ⟨members, hmembers, -, hview⟩ := (exactUnion_of_serve hok).1 ['t']
  have hshown : Shown sampleCatalog none ['a'] sampleInts :=
    ⟨_, rfl, by decide, by decide, rfl, _, rfl, mem_singleton_self _, by decide⟩
  have hints : (['a'], sampleInts) ∈ members := (hmembers.mem _ _).2 ⟨hshown, rfl⟩
  obtain ⟨view, columns, hlookup, hschema, hunion⟩ := hview (ne_nil_of_mem hints)
  exact ⟨schemas, ctx, members, view, columns, hok, hmembers, hints, hlookup, hschema, hunion⟩

/-- Two integers of one table become one double, and the table that opts out is left out. -/
theorem integers_collide : ∃ schemas ctx view, serve sampleCasts none sampleCatalog none = .ok (schemas, ctx) ∧
      ctx.views.lookup ['t'] = some view ∧
      view.rows sampleCasts = [[.text ['a'], .float (2 ^ 53 : ℤ)], [.text ['a'], .float (2 ^ 53 : ℤ)],
        [.text ['b'], .float (5 / 2)]] ∧ ¬ (Value.int (2 ^ 53)).Same sampleCasts (.int (2 ^ 53 + 1)) := by
  refine ⟨_, _, _, rfl, rfl, rfl, fun h => ?_⟩
  have hnum : Number.finite ((2 ^ 53 : ℤ) : ℚ) = .finite ((2 ^ 53 + 1 : ℤ) : ℚ) := h
  exact absurd (Int.cast_injective (Number.finite.inj hnum)) (by decide)

end CrossDb
