/-
**Queries and tenants.**

Every row of the catalog belongs to a tenant, and most catalog calls come twice: with the tenant as
an argument, and without, for the default tenant.
-/

import Mathlib.Data.Char
import Mathlib.Data.List.Lex
import Mathlib.Data.List.Sort
import Pensieve.ExploreScope

namespace Tenancy

open List
open Catalog (TenantId Uuid TableId ExtentId)
open Discover (Text Principal Role isWhitespace)

/-! ### The catalog -/

/-- `DEFAULT_TENANT`, the nil UUID. -/
def defaultTenant : TenantId := 0

structure DatabaseRow where
  id : Uuid
  tenantId : TenantId
  name : Text
  deriving DecidableEq

/-- What a query knows of a table; `federated` says that its rows are remote, and whether the wildcard skips it. -/
structure TableRef where
  id : TableId
  name : Text
  columns : List Text
  federated : Option Bool
  deriving DecidableEq

/-- `columns` is empty until the schema of the table has been committed. -/
structure TableRow where
  id : TableId
  tenantId : TenantId
  databaseId : Uuid
  name : Text
  columns : Option (List Text)
  federated : Option Bool
  deriving DecidableEq

structure ExtentRow (M : Type) where
  id : ExtentId
  tenantId : TenantId
  tableId : TableId
  deleted : Bool
  manifest : M

structure GraphBinding where
  edgeTable : Text
  nodeTable : Text
  idCol : Text
  srcCol : Text
  dstCol : Text
  typeCol : Text
  labelCol : Text
  deriving DecidableEq

structure GraphRow where
  tenantId : TenantId
  database : Text
  name : Text
  binding : GraphBinding
  deriving DecidableEq

structure Catalog (M : Type) where
  databases : List DatabaseRow
  tables : List TableRow
  graphs : List GraphRow
  extents : List (ExtentRow M)

variable {M P A W : Type}

def TableRow.toRef (row : TableRow) : Option TableRef :=
  row.columns.map fun columns => ⟨row.id, row.name, columns, row.federated⟩

namespace Catalog

def listDatabasesInTenant (c : Catalog M) (tenant : TenantId) : List Text :=
  ((c.databases.filter (·.tenantId = tenant)).map (·.name)).insertionSort (· ≤ ·)

def listTablesInDatabaseInTenant (c : Catalog M) (tenant : TenantId) (database : Text) : List TableRef :=
  let ids := ((c.databases.filter (·.tenantId = tenant)).filter (·.name = database)).map (·.id)
  (((c.tables.filter (·.tenantId = tenant)).filter fun row => ids.contains row.databaseId).filterMap
    TableRow.toRef).insertionSort fun a b => a.name ≤ b.name

def listTablesInDatabase (c : Catalog M) (database : Text) : List TableRef :=
  c.listTablesInDatabaseInTenant defaultTenant database

def listExtentsInTenant (c : Catalog M) (keeps : P → M → Bool) (tenant : TenantId) (table : TableId) (prune : P) :
    List (ExtentRow M) :=
  ((c.extents.filter (·.tenantId = tenant)).filter fun e => e.tableId = table && !e.deleted).filter fun e =>
    keeps prune e.manifest

def listExtents (c : Catalog M) (keeps : P → M → Bool) (table : TableId) (prune : P) : List (ExtentRow M) :=
  c.listExtentsInTenant keeps defaultTenant table prune

def listGraphsInTenant (c : Catalog M) (tenant : TenantId) (database : Text) : List GraphRow :=
  ((c.graphs.filter (·.tenantId = tenant)).filter (·.database = database)).insertionSort fun a b => a.name ≤ b.name

def getGraphInTenant (c : Catalog M) (tenant : TenantId) (database name : Text) : Option GraphRow :=
  (c.graphs.filter (·.tenantId = tenant)).find? fun g => g.database = database && g.name = name

end Catalog

/-! ### Requests -/

structure Request where
  /-- the `x-database` header -/
  database : Option Text
  contentType : Option Text
  /-- the `x-graph` header -/
  graph : Option Text
  principal : Option Principal
  body : Text

def trim (s : Text) : Text := ((s.dropWhile isWhitespace).reverse.dropWhile isWhitespace).reverse

def isAllDatabases (header : Option Text) : Bool := header.map trim = some ['*']

/-- The database that a request names, `default` if it names none. -/
def Request.databaseName (req : Request) : Text := (req.database.filter (· ≠ [])).getD "default".toList

def Request.tenant (req : Request) : TenantId := (req.principal.map (·.tenant)).getD defaultTenant

def Request.allowedDatabases (req : Request) : Option (List Text) := req.principal.bind (·.allowedDatabases)

structure Refusal where
  status : ℕ
  code : String
  message : String
  deriving DecidableEq

/-! ### Sources -/

structure DbTable where
  db : Text
  table : TableRef
  deriving DecidableEq

inductive Sources
  | single (tables : List TableRef)
  | multi (tables : List DbTable)
  deriving DecidableEq

def internalDatabases : List Text := ["memory".toList]

def resolveAllDbTables (c : Catalog M) (tenant : TenantId) (allowed : Option (List Text)) : List DbTable :=
  (c.listDatabasesInTenant tenant).flatMap fun db =>
    if internalDatabases.contains db then []
    else if !(match allowed with
      | none => true
      | some allow => allow.any (· = db)) then []
    else ((c.listTablesInDatabaseInTenant tenant db).filter fun t => t.federated ≠ some true).map (DbTable.mk db)

abbrev SchemaMap := List (Text × List Text)

def buildSchemaMap (tables : List TableRef) : SchemaMap := tables.map fun t => (t.name, t.columns)

def provenanceColumn : Text := "__database".toList

def supersetColumns (columns : List Text) : List Text :=
  columns.foldl (fun seen col => if seen.contains col then seen else seen ++ [col]) []

def buildMultidbSchemaMap (dbTables : List DbTable) : SchemaMap :=
  ((dbTables.map fun dt => dt.table.name).dedup.insertionSort (· ≤ ·)).map fun name =>
    let perDb := (dbTables.filter fun dt => dt.table.name = name).insertionSort fun a b => a.db ≤ b.db
    (name, provenanceColumn :: supersetColumns (perDb.flatMap fun dt => dt.table.columns))

def resolveSources (c : Catalog M) (req : Request) : Except Refusal (Sources × SchemaMap) :=
  if isAllDatabases req.database then
    let dbTables := resolveAllDbTables c req.tenant req.allowedDatabases
    if dbTables = [] then .error ⟨404, "database_empty", "no accessible databases contain any tables"⟩
    else .ok (.multi dbTables, buildMultidbSchemaMap dbTables)
  else
    let tables := c.listTablesInDatabase req.databaseName
    if tables = [] then
      .error ⟨404, "database_empty", s!"no tables in database {String.ofList req.databaseName}"⟩
    else .ok (.single tables, buildSchemaMap tables)

/-- What a registered table gives its scans: extents of its own, or the remote rows of a tenant. -/
inductive Provider (M P : Type)
  | extents (list : P → List (ExtentRow M))
  | remote (tenant : TenantId)

/-- A table that the query can name: by its name, or in the cross-database scope as `db.table`. -/
structure BaseTable (M P : Type) where
  schema : Option Text
  table : TableRef
  provider : Provider M P

/-- `PensieveTable::scan` lists the extents of the table; a federated table asks the remote of the tenant. -/
def register (c : Catalog M) (keeps : P → M → Bool) (tenant : TenantId) (schema : Option Text) (t : TableRef) :
    BaseTable M P :=
  ⟨schema, t, match t.federated with
    | some _ => .remote tenant
    | none => .extents (c.listExtents keeps t.id)⟩

def Sources.register (c : Catalog M) (keeps : P → M → Bool) (tenant : TenantId) : Sources → List (BaseTable M P)
  | .single tables =>
    ((tables.filter (·.federated.isSome)) ++ tables.filter (·.federated.isNone)).map
      (Tenancy.register c keeps tenant none)
  | .multi tables =>
    ((tables.filter (·.table.federated.isSome)) ++ tables.filter (·.table.federated.isNone)).map fun dt =>
      Tenancy.register c keeps tenant (some dt.db) dt.table

/-- **The tables that a query can name**; none, if it is refused before. -/
def baseTables (c : Catalog M) (keeps : P → M → Bool) (req : Request) : List (BaseTable M P) :=
  match resolveSources c req with
  | .error _ => []
  | .ok (sources, _) => sources.register c keeps req.tenant

/-! ### The handler -/

/-- The frontends and the query engine.  `execute` registers the tables, with the union views that the cross-database
scope derives from them, and runs the SQL. -/
structure Engine (M P A W : Type) where
  kqlToSql : Text → SchemaMap → Except String Text
  parseCypherWrite : Text → Text → Except String (Option W)
  cypherToKql : Text → GraphBinding → Except String Text
  execute : Text → Bool → List (BaseTable M P) → Except Refusal A

inductive Response (A W : Type)
  | answer (a : A)
  | write (database : Text) (binding : GraphBinding) (w : W)

def checkDatabaseScope (principal : Principal) (database : Text) : Except Refusal Unit :=
  if principal.allows database then .ok ()
  else .error ⟨403, "forbidden", s!"token not scoped to database `{String.ofList database}`"⟩

def resolveGraphBinding (c : Catalog M) (tenant : TenantId) (xGraph : Option Text) (database : Text) :
    Except Refusal GraphBinding := do
  let (db, name) ← match (xGraph.map trim).filter (· ≠ []) with
    | some spec =>
      match spec.span (· ≠ '/') with
      | (d, _ :: g) => .ok (d, g)
      | (_, []) => .ok (database, spec)
    | none =>
      match c.listGraphsInTenant tenant database with
      | [g] => .ok (database, g.name)
      | _ => .error ⟨400, "graph_resolution_error", "specify a graph via the x-graph header (\"<db>/<graph>\")"⟩
  match c.getGraphInTenant tenant db name with
  | some g => .ok g.binding
  | none => .error ⟨400, "graph_resolution_error", s!"graph not found: {String.ofList name}"⟩

def frontend (E : Engine M P A W) (c : Catalog M) (req : Request) (raw : Text) (schemas : SchemaMap) :
    Except Refusal (Text ⊕ GraphBinding × W) :=
  let contentType := req.contentType.getD "application/sql".toList
  if "application/x-kql".toList.isPrefixOf contentType then
    match E.kqlToSql raw schemas with
    | .ok sql => .ok (.inl sql)
    | .error e => .error ⟨400, "kql_parse_error", s!"KQL parse: {e}"⟩
  else if "application/x-cypher".toList.isPrefixOf contentType then do
    let binding ← resolveGraphBinding c req.tenant req.graph req.databaseName
    match E.parseCypherWrite raw binding.idCol with
    | .ok (some write) =>
      if req.principal.any fun p => p.role.rank < Role.write.rank then
        .error ⟨403, "forbidden", "Cypher CREATE/MERGE requires write role"⟩
      else .ok (.inr (binding, write))
    | .error e => .error ⟨400, "cypher_parse_error", s!"Cypher parse: {e}"⟩
    | .ok none =>
      match E.cypherToKql raw binding >>= fun kql => E.kqlToSql kql schemas with
      | .ok sql => .ok (.inl sql)
      | .error e => .error ⟨400, "cypher_parse_error", s!"Cypher parse: {e}"⟩
  else .ok (.inl raw)

/-- **The query handler.** -/
def queryHandler (E : Engine M P A W) (keeps : P → M → Bool) (c : Catalog M) (req : Request) :
    Except Refusal (Response A W) := do
  let allDb := isAllDatabases req.database
  match req.principal with
  | some p => if allDb then .ok () else checkDatabaseScope p req.databaseName
  | none => .ok ()
  let raw := trim req.body
  if raw = [] then .error ⟨400, "empty_query", "empty query body"⟩
  let (sources, schemas) ← resolveSources c req
  match ← frontend E c req raw schemas with
  | .inr (binding, write) => .ok (.write req.databaseName binding write)
  | .inl sql => (E.execute sql allDb (sources.register c keeps req.tenant)).map .answer

/-! ### Two catalogs -/

structure AgreeOn (tenant : TenantId) (c c' : Catalog M) : Prop where
  databases : c.databases.filter (·.tenantId = tenant) = c'.databases.filter (·.tenantId = tenant)
  tables : c.tables.filter (·.tenantId = tenant) = c'.tables.filter (·.tenantId = tenant)
  graphs : c.graphs.filter (·.tenantId = tenant) = c'.graphs.filter (·.tenantId = tenant)
  extents : c.extents.filter (·.tenantId = tenant) = c'.extents.filter (·.tenantId = tenant)

section Agree

variable {c c' : Catalog M} {t : TenantId}

theorem AgreeOn.listTables (h : AgreeOn t c c') (database : Text) :
    c.listTablesInDatabaseInTenant t database = c'.listTablesInDatabaseInTenant t database := by
  rw [Catalog.listTablesInDatabaseInTenant, Catalog.listTablesInDatabaseInTenant, h.databases, h.tables]

theorem AgreeOn.listExtents (h : AgreeOn t c c') (keeps : P → M → Bool) (table : TableId) :
    c.listExtentsInTenant keeps t table = c'.listExtentsInTenant keeps t table := by
  funext prune
  rw [Catalog.listExtentsInTenant, Catalog.listExtentsInTenant, h.extents]

theorem AgreeOn.resolveAll (h : AgreeOn t c c') (allowed : Option (List Text)) :
    resolveAllDbTables c t allowed = resolveAllDbTables c' t allowed := by
  have hdbs : c.listDatabasesInTenant t = c'.listDatabasesInTenant t := by
    rw [Catalog.listDatabasesInTenant, Catalog.listDatabasesInTenant, h.databases]
  rw [resolveAllDbTables, resolveAllDbTables, hdbs]
  simp only [h.listTables]

theorem AgreeOn.graphBinding (h : AgreeOn t c c') (xGraph : Option Text) (database : Text) :
    resolveGraphBinding c t xGraph database = resolveGraphBinding c' t xGraph database := by
  have hlist : ∀ db, c.listGraphsInTenant t db = c'.listGraphsInTenant t db := fun db => by
    rw [Catalog.listGraphsInTenant, Catalog.listGraphsInTenant, h.graphs]
  have hget : ∀ db name, c.getGraphInTenant t db name = c'.getGraphInTenant t db name := fun db name => by
    rw [Catalog.getGraphInTenant, Catalog.getGraphInTenant, h.graphs]
  rw [resolveGraphBinding, resolveGraphBinding]
  simp only [hlist, hget]

theorem AgreeOn.resolveSources (h : AgreeOn defaultTenant c c') {req : Request}
    (hreq : req.tenant = defaultTenant) : resolveSources c req = resolveSources c' req := by
  rw [Tenancy.resolveSources, Tenancy.resolveSources, hreq, h.resolveAll, Catalog.listTablesInDatabase,
    Catalog.listTablesInDatabase, h.listTables]

theorem AgreeOn.register (h : AgreeOn defaultTenant c c') (keeps : P → M → Bool) (tenant : TenantId)
    (sources : Sources) : sources.register c keeps tenant = sources.register c' keeps tenant := by
  have hone : Tenancy.register c keeps tenant = Tenancy.register c' keeps tenant := by
    funext schema table
    rw [Tenancy.register, Tenancy.register]
    have hlist : c.listExtents keeps table.id = c'.listExtents keeps table.id := h.listExtents keeps table.id
    rw [hlist]
  cases sources <;> rw [Sources.register, Sources.register, hone]

theorem queryHandler_congr (E : Engine M P A W) (keeps : P → M → Bool) (h : AgreeOn defaultTenant c c')
    {req : Request} (hreq : req.tenant = defaultTenant) :
    queryHandler E keeps c req = queryHandler E keeps c' req := by
  have hfrontend : ∀ raw schemas, frontend E c req raw schemas = frontend E c' req raw schemas := by
    intro raw schemas
    rw [frontend, frontend, hreq, h.graphBinding]
  rw [queryHandler, queryHandler, h.resolveSources hreq]
  simp only [hfrontend, h.register]

end Agree

/-! ### Isolation -/

def OfTenant (c : Catalog M) (t : TenantId) (table : TableRef) : Prop :=
  ∃ row ∈ c.tables, row.tenantId = t ∧ row.toRef = some table

def Provider.Of (c : Catalog M) (keeps : P → M → Bool) (t : TenantId) (table : TableRef) : Provider M P → Prop
  | .extents list => ∀ prune, list prune = c.listExtentsInTenant keeps t table.id prune
  | .remote tenant => tenant = t

/-- **The queries of a tenant stay inside it**: whatever they name is a table of the tenant, and is read there; the
answer depends on the rows of the tenant only; and a table has the same rows by the name of its database as in the
cross-database scope. -/
structure Isolated (t : TenantId) : Prop where
  inside : ∀ (M P : Type) (keeps : P → M → Bool) (c : Catalog M) (req : Request), req.tenant = t →
    ∀ b ∈ baseTables c keeps req, OfTenant c t b.table ∧ b.provider.Of c keeps t b.table
  apart : ∀ (M P A W : Type) (E : Engine M P A W) (keeps : P → M → Bool) (c c' : Catalog M) (req : Request),
    req.tenant = t → AgreeOn t c c' → queryHandler E keeps c req = queryHandler E keeps c' req
  alike : ∀ (M P : Type) (keeps : P → M → Bool) (c : Catalog M) (req req' : Request), req.tenant = t →
    req'.tenant = t → isAllDatabases req.database = true → isAllDatabases req'.database = false →
      ∀ b ∈ baseTables c keeps req, b.schema = some req'.databaseName →
        ∃ b' ∈ baseTables c keeps req', b'.table = b.table ∧ b'.provider = b.provider

section Default

variable {c : Catalog M} {keeps : P → M → Bool} {req : Request}

theorem mem_listTables {t : TenantId} {database : Text} {table : TableRef} :
    table ∈ c.listTablesInDatabaseInTenant t database ↔ ∃ row ∈ c.tables, row.tenantId = t ∧
      (∃ d ∈ c.databases, d.tenantId = t ∧ d.name = database ∧ d.id = row.databaseId) ∧ row.toRef = some table := by
  simp only [Catalog.listTablesInDatabaseInTenant, mem_insertionSort, mem_filterMap, mem_filter,
    decide_eq_true_eq, contains_iff_mem, mem_map]
  constructor
  · rintro ⟨row, ⟨⟨hrow, ht⟩, d, ⟨⟨hd, hdt⟩, hname⟩, hid⟩, href⟩
    exact ⟨row, hrow, ht, ⟨d, hd, hdt, hname, hid⟩, href⟩
  · rintro ⟨row, hrow, ht, ⟨d, hd, hdt, hname, hid⟩, href⟩
    exact ⟨row, ⟨⟨hrow, ht⟩, d, ⟨⟨hd, hdt⟩, hname⟩, hid⟩, href⟩

theorem ofTenant_of_listed {t : TenantId} {database : Text} {table : TableRef}
    (h : table ∈ c.listTablesInDatabaseInTenant t database) : OfTenant c t table := by
  obtain ⟨row, hrow, ht, -, href⟩ := mem_listTables.1 h
  exact ⟨row, hrow, ht, href⟩

theorem mem_resolveAll {t : TenantId} {allowed : Option (List Text)} {dt : DbTable}
    (h : dt ∈ resolveAllDbTables c t allowed) : dt.table ∈ c.listTablesInDatabaseInTenant t dt.db := by
  obtain ⟨db, -, hdt⟩ := mem_flatMap.1 h
  split_ifs at hdt
  · cases hdt
  · cases hdt
  · obtain ⟨table, htable, rfl⟩ := mem_map.1 hdt
    exact (mem_filter.1 htable).1

variable {sources : Sources} {b : BaseTable M P}

theorem mem_register {t : TenantId} : b ∈ sources.register c keeps t ↔ match sources with
      | .single tables => ∃ table ∈ tables, Tenancy.register c keeps t none table = b
      | .multi tables => ∃ dt ∈ tables, Tenancy.register c keeps t (some dt.db) dt.table = b := by
  have hsplit : ∀ o : Option Bool, o.isSome = true ∨ o.isNone = true := fun o => by cases o <;> simp
  cases sources with
  | single tables | multi tables =>
    simp only [Sources.register, mem_map, mem_append, mem_filter, ← and_or_left, hsplit, and_true]

theorem resolveSources_single (hall : isAllDatabases req.database = false) {schemas : SchemaMap}
    (h : resolveSources c req = .ok (sources, schemas)) :
    sources = .single (c.listTablesInDatabase req.databaseName) := by
  rw [resolveSources, hall, if_neg Bool.false_ne_true] at h
  dsimp only at h
  split_ifs at h
  cases h
  rfl

theorem resolveSources_multi (hall : isAllDatabases req.database = true) {schemas : SchemaMap}
    (h : resolveSources c req = .ok (sources, schemas)) :
    sources = .multi (resolveAllDbTables c req.tenant req.allowedDatabases) := by
  rw [resolveSources, if_pos hall] at h
  dsimp only at h
  split_ifs at h
  cases h
  rfl

theorem mem_baseTables_single (hall : isAllDatabases req.database = false) : b ∈ baseTables c keeps req ↔
      ∃ table ∈ c.listTablesInDatabase req.databaseName, register c keeps req.tenant none table = b := by
  rw [baseTables]
  cases h : resolveSources c req with
  | error e =>
    rw [resolveSources, hall, if_neg Bool.false_ne_true] at h
    dsimp only at h
    split_ifs at h with hnil
    simp [hnil]
  | ok r =>
    obtain ⟨sources, schemas⟩ := r
    dsimp only
    rw [resolveSources_single hall h, mem_register]

theorem mem_baseTables_multi (hall : isAllDatabases req.database = true) :
    b ∈ baseTables c keeps req ↔ ∃ dt ∈ resolveAllDbTables c req.tenant req.allowedDatabases,
      register c keeps req.tenant (some dt.db) dt.table = b := by
  rw [baseTables]
  cases h : resolveSources c req with
  | error e =>
    rw [resolveSources, if_pos hall] at h
    dsimp only at h
    split_ifs at h with hnil
    simp [hnil]
  | ok r =>
    obtain ⟨sources, schemas⟩ := r
    dsimp only
    rw [resolveSources_multi hall h, mem_register]

theorem provider_of_default (schema : Option Text) (table : TableRef) :
    (register c keeps defaultTenant schema table).provider.Of c keeps defaultTenant table := by
  rw [register]
  cases table.federated with
  | none => exact fun _ => rfl
  | some _ => rfl

theorem inside_default (hreq : req.tenant = defaultTenant) (hb : b ∈ baseTables c keeps req) :
    OfTenant c defaultTenant b.table ∧ b.provider.Of c keeps defaultTenant b.table := by
  cases hall : isAllDatabases req.database with
  | false =>
    obtain ⟨table, htable, rfl⟩ := (mem_baseTables_single hall).1 hb
    rw [hreq]
    exact ⟨ofTenant_of_listed htable, provider_of_default none table⟩
  | true =>
    obtain ⟨dt, hdt, rfl⟩ := (mem_baseTables_multi hall).1 hb
    rw [hreq] at hdt ⊢
    exact ⟨ofTenant_of_listed (mem_resolveAll hdt), provider_of_default (some dt.db) dt.table⟩

theorem alike_default {req' : Request} (hreq : req.tenant = defaultTenant)
    (hreq' : req'.tenant = defaultTenant) (hall : isAllDatabases req.database = true)
    (hall' : isAllDatabases req'.database = false) (hb : b ∈ baseTables c keeps req)
    (hschema : b.schema = some req'.databaseName) :
    ∃ b' ∈ baseTables c keeps req', b'.table = b.table ∧ b'.provider = b.provider := by
  obtain ⟨dt, hdt, rfl⟩ := (mem_baseTables_multi hall).1 hb
  have hdb : dt.db = req'.databaseName := Option.some.inj hschema
  rw [hreq] at hdt
  have hlisted : dt.table ∈ c.listTablesInDatabase req'.databaseName := hdb ▸ mem_resolveAll hdt
  exact ⟨_, (mem_baseTables_single hall').2 ⟨dt.table, hlisted, rfl⟩, rfl, by rw [hreq, hreq']; rfl⟩

end Default

/-! ### Another tenant -/

/-- Two tenants, each with a database `prod` that has a table `logs` of one extent. -/
def twoTenants (a b : TenantId) : Catalog Unit where
  databases := [⟨1, a, "prod".toList⟩, ⟨2, b, "prod".toList⟩]
  tables := [⟨10, a, 1, "logs".toList, some [], none⟩, ⟨20, b, 2, "logs".toList, some [], none⟩]
  graphs := []
  extents := [⟨100, a, 10, false, ()⟩, ⟨200, b, 20, false, ()⟩]

/-- A query of a tenant about `prod`. -/
def aboutProd (t : TenantId) : Request :=
  ⟨some "prod".toList, none, none, some ⟨t, .read, none, none⟩, "SELECT * FROM logs".toList⟩

theorem names_default (t : TenantId) (keeps : Unit → Unit → Bool) :
    ∃ b ∈ baseTables (twoTenants defaultTenant t) keeps (aboutProd t), b.table.id = 10 := by
  refine ⟨_, (mem_baseTables_single rfl).2 ⟨⟨10, "logs".toList, [], none⟩, mem_listTables.2 ?_, rfl⟩, rfl⟩
  exact ⟨_, mem_cons_self, rfl, ⟨_, mem_cons_self, rfl, rfl, rfl⟩, rfl⟩

theorem not_ofTenant {t : TenantId} (ht : t ≠ defaultTenant) {table : TableRef} (hid : table.id = 10) :
    ¬OfTenant (twoTenants defaultTenant t) t table := by
  rintro ⟨row, hrow, htenant, href⟩
  simp only [twoTenants, mem_cons, not_mem_nil, or_false] at hrow
  rcases hrow with rfl | rfl
  · exact ht htenant.symm
  · cases href
    cases hid

theorem not_isolated {t : TenantId} (ht : t ≠ defaultTenant) : ¬Isolated t := by
  intro h
  obtain ⟨b, hb, hid⟩ := names_default t fun _ _ => true
  exact not_ofTenant ht hid (h.inside Unit Unit _ _ (aboutProd t) rfl b hb).1

/-- **The queries of a tenant stay inside it exactly if it is the default tenant.** -/
theorem isolated_iff (t : TenantId) : Isolated t ↔ t = defaultTenant := by
  constructor
  · intro h
    by_contra ht
    exact not_isolated ht h
  · rintro rfl
    exact ⟨fun _ _ _ _ _ hreq _ hb => inside_default hreq hb,
      fun _ _ _ _ E keeps _ _ _ hreq hagree => queryHandler_congr E keeps hagree hreq,
      fun _ _ _ _ _ _ hreq hreq' hall hall' _ hb hschema => alike_default hreq hreq' hall hall' hb hschema⟩

/-- **A query that reads another tenant**: tenant 1 asks for `logs` in its database `prod`, and what it names there is
the table of the default tenant, which it has no row for. -/
theorem reads_default_tenant : (∃ b ∈ baseTables (twoTenants 0 1) (fun _ _ => true : Unit → Unit → Bool) (aboutProd 1),
      ¬OfTenant (twoTenants 0 1) 1 b.table) ∧ ¬Isolated 1 := by
  obtain ⟨b, hb, hid⟩ := names_default 1 fun _ _ => true
  exact ⟨⟨b, hb, not_ofTenant (by decide) hid⟩, not_isolated (by decide)⟩

end Tenancy
