/-
**Snapshot transactions on the catalog database.**

The catalog keeps four relations that matter to a snapshot:  `tables` (with the pointer
`current_snapshot_id`), `snapshots`, `manifests` and `extents`.
-/

import Pensieve.CatalogTypes
import Pensieve.Fallible
import Pensieve.OpLog

namespace Catalog

open List
open Fallible (bind_eq_ok)

variable {J : Type}

/-! ### The relations -/

structure TableRow where
  id : TableId
  tenantId : TenantId
  currentSnapshotId : Option SnapshotId
  schemaSnapshotId : Option SchemaSnapshotId
  deriving DecidableEq

structure SnapshotRow where
  id : SnapshotId
  tenantId : TenantId
  tableId : TableId
  parentId : Option SnapshotId
  sequenceNumber : ℕ
  schemaSnapshotId : SchemaSnapshotId
  deriving DecidableEq

structure ManifestRow where
  id : Uuid
  tenantId : TenantId
  snapshotId : SnapshotId
  extentCount : ℕ
  deriving DecidableEq

/-- A row of `extents`: the manifest it was inserted from, and the columns that only the database
keeps. -/
structure ExtentRow (J : Type) where
  manifest : ExtentManifest J
  tenantId : TenantId
  manifestId : Uuid
  deletedAt : Option DateTime
  deriving DecidableEq

structure Db (J : Type) where
  tables : List TableRow
  snapshots : List SnapshotRow
  manifests : List ManifestRow
  extents : List (ExtentRow J)
  deriving DecidableEq

/-! ### Errors of the database -/

/-- What the database driver reports, as far as the code tells its errors apart. -/
inductive DbError where
  | uniqueViolation (index : String)
  /-- a message with `database is locked` or `database table is locked` -/
  | transientLock
  | other (message : String)
  deriving DecidableEq

def DbError.message : DbError → String
  | .uniqueViolation index => "UNIQUE constraint failed: " ++ index
  | .transientLock => "database is locked"
  | .other message => message

inductive Backend where
  | sqlite
  | postgres
  deriving DecidableEq

def isTransientLock : DbError → Bool
  | .transientLock => true
  | _ => false

/-- `ce` of the SQLite crate, `sql_err` of the Postgres crate. -/
def Backend.sqlErr : Backend → DbError → CatalogError
  | .sqlite, e => if isTransientLock e then .conflict else .sql e.message
  | .postgres, e => .sql e.message

/-- The mapping used for the insert into `snapshots` only. -/
def Backend.sqlErrOrConflict (b : Backend) : DbError → CatalogError
  | .uniqueViolation _ => .conflict
  | e => b.sqlErr e

inductive Stmt where
  | beginTx
  | selectParent
  | insertSnapshot
  | insertManifest
  | insertExtent (index : ℕ)
  | softDelete
  | compareAndSet
  | commitTx
  deriving DecidableEq

abbrev Faults := Stmt → Option DbError

def noFaults : Faults := fun _ => none

def checkFault (faults : Faults) (stmt : Stmt) (report : DbError → CatalogError) : Except CatalogError Unit :=
  match faults stmt with
  | some e => .error (report e)
  | none => .ok ()

/-! ### Transactions -/

/-- `SqliteSnapshotTxn` and `PgSnapshotTxn`: operations gathered in memory before the commit. -/
structure SnapshotTxn (J : Type) where
  tenant : TenantId
  tableId : TableId
  parentSnapshotId : SnapshotId
  schemaSnapshotId : SchemaSnapshotId
  added : List (ExtentManifest J)
  removed : List ExtentId
  deriving DecidableEq

/-- `begin_snapshot_in_tenant`: read the pointers of the table, open nothing. -/
def beginSnapshot (db : Db J) (tenant : TenantId) (tableId : TableId) : Except CatalogError (SnapshotTxn J) :=
  match db.tables.find? fun t => t.tenantId = tenant ∧ t.id = tableId with
  | none => .error (.sql s!"table {tableId} not found in tenant {tenant} for begin_snapshot")
  | some t =>
    match t.currentSnapshotId, t.schemaSnapshotId with
    | none, _ => .error (.sql "table has no current_snapshot_id")
    | some _, none => .error (.sql "table has no schema_snapshot_id")
    | some parent, some schemaSnap =>
      .ok { tenant, tableId, parentSnapshotId := parent, schemaSnapshotId := schemaSnap, added := [], removed := [] }

def SnapshotTxn.addExtent (txn : SnapshotTxn J) (m : ExtentManifest J) : SnapshotTxn J :=
  { txn with added := txn.added ++ [m] }

def SnapshotTxn.removeExtents (txn : SnapshotTxn J) (extents : List ExtentId) : SnapshotTxn J :=
  { txn with removed := txn.removed ++ extents }

/-! ### The statements of a commit -/

/-- The identifiers and the clock reading that a commit draws while it runs. -/
structure Draws where
  newSnapId : SnapshotId
  manifestId : Uuid
  now : DateTime
  deriving DecidableEq

/-- `SELECT sequence_number FROM snapshots WHERE id = ?` -/
def selectParentSeq (db : Db J) (parent : SnapshotId) : Except CatalogError ℕ :=
  match db.snapshots.find? fun s => s.id = parent with
  | some s => .ok s.sequenceNumber
  | none => .error (.sql s!"parent snapshot {parent} not found")

/-- `INSERT INTO snapshots`, under its primary key and `UNIQUE (table_id, sequence_number)`. -/
def insertSnapshot (b : Backend) (db : Db J) (row : SnapshotRow) : Except CatalogError (Db J) :=
  if ∃ s ∈ db.snapshots, s.id = row.id then
    .error (b.sqlErrOrConflict (.uniqueViolation "snapshots.id"))
  else if ∃ s ∈ db.snapshots, s.tableId = row.tableId ∧ s.sequenceNumber = row.sequenceNumber then
    .error (b.sqlErrOrConflict (.uniqueViolation "snapshots.table_id, snapshots.sequence_number"))
  else
    .ok { db with snapshots := db.snapshots ++ [row] }

def insertManifest (b : Backend) (db : Db J) (row : ManifestRow) : Except CatalogError (Db J) :=
  if ∃ m ∈ db.manifests, m.id = row.id then
    .error (b.sqlErr (.uniqueViolation "manifests.id"))
  else
    .ok { db with manifests := db.manifests ++ [row] }

def insertExtent (b : Backend) (db : Db J) (row : ExtentRow J) : Except CatalogError (Db J) :=
  if ∃ e ∈ db.extents, e.manifest.id = row.manifest.id then
    .error (b.sqlErr (.uniqueViolation "extents.id"))
  else
    .ok { db with extents := db.extents ++ [row] }

def extentRow (tenant : TenantId) (manifestId : Uuid) (m : ExtentManifest J) : ExtentRow J :=
  { manifest := m, tenantId := tenant, manifestId, deletedAt := none }

/-- The loop over the added extents; `index` counts them for the outside failures. -/
def insertExtents (b : Backend) (faults : Faults) (tenant : TenantId) (manifestId : Uuid) :
    ℕ → Db J → List (ExtentManifest J) → Except CatalogError (Db J)
  | _, db, [] => .ok db
  | index, db, m :: ms => do
      checkFault faults (.insertExtent index) b.sqlErr
      let db' ← insertExtent b db (extentRow tenant manifestId m)
      insertExtents b faults tenant manifestId (index + 1) db' ms

def markDeleted (tenant : TenantId) (removed : List ExtentId) (now : DateTime) (e : ExtentRow J) : ExtentRow J :=
  if e.tenantId = tenant ∧ e.deletedAt = none ∧ e.manifest.id ∈ removed then
    { e with deletedAt := some now }
  else e

/-- `UPDATE extents SET deleted_at = ? WHERE tenant_id = ? AND deleted_at IS NULL AND id IN (…)`.
How many rows it hit is not looked at. -/
def softDelete (db : Db J) (tenant : TenantId) (removed : List ExtentId) (now : DateTime) : Db J :=
  { db with extents := db.extents.map (markDeleted tenant removed now) }

/-- Whether the compare-and-set applies to a row of `tables`. -/
def casHits (txn : SnapshotTxn J) (t : TableRow) : Bool :=
  t.tenantId = txn.tenant ∧ t.id = txn.tableId ∧ t.currentSnapshotId = some txn.parentSnapshotId

def advance (txn : SnapshotTxn J) (newSnapId : SnapshotId) (t : TableRow) : TableRow :=
  if casHits txn t then { t with currentSnapshotId := some newSnapId } else t

/-- `UPDATE tables SET current_snapshot_id = ? WHERE … AND current_snapshot_id = ?`, with the check
of the number of rows affected. -/
def compareAndSet (db : Db J) (txn : SnapshotTxn J) (newSnapId : SnapshotId) : Except CatalogError (Db J) :=
  if (db.tables.filter (casHits txn)).length ≠ 1 then
    .error .conflict
  else
    .ok { db with tables := db.tables.map (advance txn newSnapId) }

def SnapshotTxn.snapshotRow (txn : SnapshotTxn J) (d : Draws) (parentSeq : ℕ) : SnapshotRow :=
  { id := d.newSnapId, tenantId := txn.tenant, tableId := txn.tableId,
    parentId := some txn.parentSnapshotId, sequenceNumber := parentSeq + 1,
    schemaSnapshotId := txn.schemaSnapshotId }

def SnapshotTxn.manifestRow (txn : SnapshotTxn J) (d : Draws) : ManifestRow :=
  { id := d.manifestId, tenantId := txn.tenant, snapshotId := d.newSnapId, extentCount := txn.added.length }

def softDeleteRemoved (b : Backend) (faults : Faults) (db : Db J) (txn : SnapshotTxn J)
    (now : DateTime) : Except CatalogError (Db J) :=
  if txn.removed = [] then .ok db
  else do
    checkFault faults .softDelete b.sqlErr
    pure (softDelete db txn.tenant txn.removed now)

/-- The body of `commit`, on the working copy of the transaction. -/
def commitTx (b : Backend) (faults : Faults) (db : Db J) (txn : SnapshotTxn J) (d : Draws) :
    Except CatalogError (Db J) := do
  checkFault faults .beginTx b.sqlErr
  checkFault faults .selectParent b.sqlErr
  let parentSeq ← selectParentSeq db txn.parentSnapshotId
  checkFault faults .insertSnapshot b.sqlErrOrConflict
  let db₁ ← insertSnapshot b db (txn.snapshotRow d parentSeq)
  checkFault faults .insertManifest b.sqlErr
  let db₂ ← insertManifest b db₁ (txn.manifestRow d)
  let db₃ ← insertExtents b faults txn.tenant d.manifestId 0 db₂ txn.added
  let db₄ ← softDeleteRemoved b faults db₃ txn d.now
  checkFault faults .compareAndSet b.sqlErr
  let db₅ ← compareAndSet db₄ txn d.newSnapId
  checkFault faults .commitTx b.sqlErr
  pure db₅

/-- `commit`: the working copy becomes the database when every statement went through; otherwise it
is dropped, which rolls the transaction back. -/
def commit (b : Backend) (faults : Faults) (db : Db J) (txn : SnapshotTxn J) (d : Draws) :
    Except CatalogError SnapshotId × Db J :=
  match commitTx b faults db txn d with
  | .ok db' => (.ok d.newSnapId, db')
  | .error e => (.error e, db)

/-! ### What a listing reads -/

/-- Whether a row is live in a table: `tenant_id = ? AND table_id = ? AND deleted_at IS NULL`. -/
def ExtentRow.isLive (tenant : TenantId) (tableId : TableId) (e : ExtentRow J) : Bool :=
  e.tenantId = tenant ∧ e.manifest.tableId = tableId ∧ e.deletedAt = none

def liveExtents (db : Db J) (tenant : TenantId) (tableId : TableId) : List (ExtentManifest J) :=
  (db.extents.filter (ExtentRow.isLive tenant tableId)).map ExtentRow.manifest

def snapshotsOf (db : Db J) (tableId : TableId) : List SnapshotRow := db.snapshots.filter fun s => s.tableId = tableId

/-! ### One lemma for each statement -/

variable {faults : Faults}

theorem checkFault_eq_ok {stmt : Stmt} {report : DbError → CatalogError}
    {u : Unit} : checkFault faults stmt report = .ok u ↔ faults stmt = none := by
  unfold checkFault
  cases faults stmt <;> simp

theorem checkFault_noFaults (stmt : Stmt) (report : DbError → CatalogError) :
    checkFault noFaults stmt report = .ok () := rfl

variable {db : Db J}

theorem selectParentSeq_eq_ok {parent : SnapshotId} {n : ℕ} (h : selectParentSeq db parent = .ok n) :
    ∃ s ∈ db.snapshots, s.id = parent ∧ s.sequenceNumber = n := by
  unfold selectParentSeq at h
  split at h
  · rename_i s hs
    cases h
    exact ⟨s, mem_of_find?_eq_some hs, by simpa using find?_some hs, rfl⟩
  · cases h

variable {b : Backend}

variable {db' : Db J}

theorem insertSnapshot_eq_ok {row : SnapshotRow} (h : insertSnapshot b db row = .ok db') :
    (∀ s ∈ db.snapshots, s.id ≠ row.id) ∧
    (∀ s ∈ db.snapshots, s.tableId = row.tableId → s.sequenceNumber ≠ row.sequenceNumber) ∧
    db' = { db with snapshots := db.snapshots ++ [row] } := by
  unfold insertSnapshot at h
  split at h
  · cases h
  · rename_i hid
    split at h
    · cases h
    · rename_i hseq
      cases h
      push Not at hid hseq
      exact ⟨hid, hseq, rfl⟩

theorem insertManifest_eq_ok {row : ManifestRow} (h : insertManifest b db row = .ok db') :
    db' = { db with manifests := db.manifests ++ [row] } := by
  unfold insertManifest at h
  split at h
  · cases h
  · cases h
    rfl

theorem insertExtent_eq_ok {b : Backend} {row : ExtentRow J} (h : insertExtent b db row = .ok db') :
    (∀ e ∈ db.extents, e.manifest.id ≠ row.manifest.id) ∧
    db' = { db with extents := db.extents ++ [row] } := by
  unfold insertExtent at h
  split at h
  · cases h
  · rename_i hid
    cases h
    push Not at hid
    exact ⟨hid, rfl⟩

/-- The identifiers of the rows of `extents`, deleted ones included. -/
def extentIds (db : Db J) : List ExtentId := db.extents.map fun e => e.manifest.id

theorem insertExtents_eq_ok {tenant : TenantId} {manifestId : Uuid} {index : ℕ}
    {ms : List (ExtentManifest J)}
    (h : insertExtents b faults tenant manifestId index db ms = .ok db') :
    ((extentIds db).Nodup → (extentIds db ++ ms.map ExtentManifest.id).Nodup) ∧
    db' = { db with extents := db.extents ++ ms.map (extentRow tenant manifestId) } := by
  induction ms generalizing index db with
  | nil =>
    cases h
    simp
  | cons m ms ih =>
    obtain ⟨_, -, h⟩ := bind_eq_ok.mp h
    obtain ⟨db₁, hins, h⟩ := bind_eq_ok.mp h
    obtain ⟨hfresh, rfl⟩ := insertExtent_eq_ok hins
    obtain ⟨hnd, rfl⟩ := ih h
    refine ⟨fun hdb => ?_, by simp⟩
    have hone : (extentIds db ++ [m.id]).Nodup := by
      refine nodup_append'.mpr ⟨hdb, by simp, ?_⟩
      simpa [disjoint_singleton, extentIds, extentRow] using hfresh
    have hsplit : extentIds db ++ (m :: ms).map ExtentManifest.id =
        extentIds db ++ [m.id] ++ ms.map ExtentManifest.id := by simp
    rw [hsplit]
    have := hnd (by simpa [extentIds, extentRow] using hone)
    simpa [extentIds, extentRow] using this

variable {txn : SnapshotTxn J}

theorem compareAndSet_eq_ok {newSnapId : SnapshotId} (h : compareAndSet db txn newSnapId = .ok db') :
    (∃ t ∈ db.tables, casHits txn t) ∧
    db' = { db with tables := db.tables.map (advance txn newSnapId) } := by
  unfold compareAndSet at h
  split at h
  · cases h
  · rename_i hlen
    cases h
    push Not at hlen
    obtain ⟨t, ht⟩ := length_eq_one_iff.mp hlen
    have hmem : t ∈ db.tables.filter (casHits txn) := by simp [ht]
    exact ⟨⟨t, (mem_filter.mp hmem).1, (mem_filter.mp hmem).2⟩, rfl⟩

/-! ### What a commit does -/

theorem markDeleted_nil (tenant : TenantId) (now : DateTime) (e : ExtentRow J) : markDeleted tenant [] now e = e := by
  simp [markDeleted]

theorem softDeleteRemoved_eq_ok {now : DateTime} (h : softDeleteRemoved b faults db txn now = .ok db') :
    db' = softDelete db txn.tenant txn.removed now := by
  unfold softDeleteRemoved at h
  split at h
  · -- the skipped statement would have changed no row
    rename_i hnil
    cases h
    simp [softDelete, hnil, funext (markDeleted_nil (J := J) txn.tenant now)]
  · obtain ⟨_, -, h⟩ := bind_eq_ok.mp h
    cases h
    rfl

/-- Everything that a commit has checked and done when it goes through. -/
structure CommitSpec (db : Db J) (txn : SnapshotTxn J) (d : Draws) (db' : Db J) : Prop where
  snapshots : ∃ p ∈ db.snapshots, p.id = txn.parentSnapshotId ∧
    (∀ s ∈ db.snapshots, s.tableId = txn.tableId → s.sequenceNumber ≠ p.sequenceNumber + 1) ∧
    db'.snapshots = db.snapshots ++ [txn.snapshotRow d p.sequenceNumber]
  freshSnapshot : ∀ s ∈ db.snapshots, s.id ≠ d.newSnapId
  current : ∃ t ∈ db.tables, casHits txn t
  tables : db'.tables = db.tables.map (advance txn d.newSnapId)
  freshExtents : (extentIds db).Nodup → (extentIds db ++ txn.added.map ExtentManifest.id).Nodup
  extents : db'.extents = (db.extents ++ txn.added.map (extentRow txn.tenant d.manifestId)).map
    (markDeleted txn.tenant txn.removed d.now)

theorem commitTx_ok {d : Draws} (h : commitTx b faults db txn d = .ok db') : CommitSpec db txn d db' := by
  unfold commitTx at h
  obtain ⟨_, -, h⟩ := bind_eq_ok.mp h
  obtain ⟨_, -, h⟩ := bind_eq_ok.mp h
  obtain ⟨n, hsel, h⟩ := bind_eq_ok.mp h
  obtain ⟨p, hp, hpid, rfl⟩ := selectParentSeq_eq_ok hsel
  obtain ⟨_, -, h⟩ := bind_eq_ok.mp h
  obtain ⟨db₁, hsnap, h⟩ := bind_eq_ok.mp h
  obtain ⟨hid, hseq, rfl⟩ := insertSnapshot_eq_ok hsnap
  obtain ⟨_, -, h⟩ := bind_eq_ok.mp h
  obtain ⟨db₂, hman, h⟩ := bind_eq_ok.mp h
  obtain rfl := insertManifest_eq_ok hman
  obtain ⟨db₃, hext, h⟩ := bind_eq_ok.mp h
  obtain ⟨hnd, rfl⟩ := insertExtents_eq_ok hext
  obtain ⟨db₄, hdel, h⟩ := bind_eq_ok.mp h
  obtain ⟨_, -, h⟩ := bind_eq_ok.mp h
  obtain ⟨db₅, hcas, h⟩ := bind_eq_ok.mp h
  obtain ⟨_, -, h⟩ := bind_eq_ok.mp h
  obtain ⟨hcur, rfl⟩ := compareAndSet_eq_ok hcas
  cases h
  obtain rfl := softDeleteRemoved_eq_ok hdel
  exact { snapshots := ⟨p, hp, hpid, hseq, rfl⟩, freshSnapshot := hid, current := hcur,
          tables := rfl, freshExtents := hnd, extents := rfl }

theorem commit_eq_ok {d : Draws} {s : SnapshotId} (h : commit b faults db txn d = (.ok s, db')) :
    s = d.newSnapId ∧ CommitSpec db txn d db' := by
  unfold commit at h
  split at h
  · rename_i db₁ htx
    cases h
    exact ⟨rfl, commitTx_ok htx⟩
  · cases h

theorem commit_eq_error {b : Backend} {faults : Faults} {txn : SnapshotTxn J} {d : Draws}
    {e : CatalogError} (h : commit b faults db txn d = (.error e, db')) : db' = db := by
  unfold commit at h
  split at h
  · cases h
  · cases h
    rfl

/-! ### The live extents after a commit -/

@[simp] theorem markDeleted_manifest (tenant : TenantId) (removed : List ExtentId) (now : DateTime)
    (e : ExtentRow J) : (markDeleted tenant removed now e).manifest = e.manifest := by
  unfold markDeleted
  split <;> rfl

@[simp] theorem markDeleted_tenantId (tenant : TenantId) (removed : List ExtentId) (now : DateTime)
    (e : ExtentRow J) : (markDeleted tenant removed now e).tenantId = e.tenantId := by
  unfold markDeleted
  split <;> rfl

theorem isLive_markDeleted (tenant own : TenantId) (tableId : TableId) (removed : List ExtentId)
    (now : DateTime) (e : ExtentRow J) : (markDeleted own removed now e).isLive tenant tableId =
      (e.isLive tenant tableId && decide ¬(tenant = own ∧ e.manifest.id ∈ removed)) := by
  unfold ExtentRow.isLive markDeleted
  split
  · rename_i h
    obtain ⟨rfl, -, hr⟩ := h
    simp [hr]
    tauto
  · rename_i h
    rw [Bool.eq_iff_iff]
    simp only [Bool.and_eq_true, decide_eq_true_eq]
    constructor
    · rintro ⟨rfl, ht, hd⟩
      exact ⟨⟨rfl, ht, hd⟩, fun hr => h ⟨hr.1, hd, hr.2⟩⟩
    · exact fun hr => hr.1

theorem CommitSpec.liveExtents_eq {d : Draws} (h : CommitSpec db txn d db') (tenant : TenantId)
    (tableId : TableId) : liveExtents db' tenant tableId = (liveExtents db tenant tableId ++
        txn.added.filter fun m => txn.tenant = tenant ∧ m.tableId = tableId).filter
      fun m => decide ¬(tenant = txn.tenant ∧ m.id ∈ txn.removed) := by
  have hfilter : ∀ rows : List (ExtentRow J), ((rows.map (markDeleted txn.tenant txn.removed d.now)).filter
        (ExtentRow.isLive tenant tableId)).map ExtentRow.manifest =
      ((rows.filter (ExtentRow.isLive tenant tableId)).map ExtentRow.manifest).filter
        fun m => decide ¬(tenant = txn.tenant ∧ m.id ∈ txn.removed) := by
    intro rows
    rw [filter_map, map_map, filter_map, filter_filter]
    have hmap : (ExtentRow.manifest ∘ markDeleted txn.tenant txn.removed d.now) =
        (ExtentRow.manifest : ExtentRow J → _) := funext fun e => by simp
    have hpred : (ExtentRow.isLive tenant tableId ∘ markDeleted txn.tenant txn.removed d.now) =
        fun e : ExtentRow J => ((fun m : ExtentManifest J =>
          decide ¬(tenant = txn.tenant ∧ m.id ∈ txn.removed)) ∘ ExtentRow.manifest) e && e.isLive tenant tableId :=
      funext fun e => by
        rw [Function.comp_apply, isLive_markDeleted, Bool.and_comm]
        rfl
    rw [hmap, hpred]
  have hadded : ((txn.added.map (extentRow txn.tenant d.manifestId)).filter
      (ExtentRow.isLive tenant tableId)).map ExtentRow.manifest =
      txn.added.filter fun m => txn.tenant = tenant ∧ m.tableId = tableId := by
    rw [filter_map, map_map]
    have hmap : (ExtentRow.manifest ∘ extentRow (J := J) txn.tenant d.manifestId) = id := rfl
    have hpred : (ExtentRow.isLive tenant tableId ∘ extentRow (J := J) txn.tenant d.manifestId) =
        fun m => decide (txn.tenant = tenant ∧ m.tableId = tableId) :=
      funext fun m => by simp [ExtentRow.isLive, extentRow]
    rw [hmap, map_id, hpred]
  unfold liveExtents
  rw [h.extents, hfilter, filter_append, map_append, hadded]

end Catalog
