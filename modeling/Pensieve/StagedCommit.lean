/-
**Staged ingest: stage, list, commit a group.**

In staged mode a router writes the extent object, records its manifest in `staged_extents` and
acknowledges.  Committers drain that table: a tick lists the oldest rows, groups them by table and
commits one group after the other.
-/

import Pensieve.SnapshotCommit

namespace Catalog

open List
open Fallible (bind_eq_ok)

variable {J : Type}

/-! ### The staging table -/

/-- A row of `staged_extents`. -/
structure StagedRow (J : Type) where
  id : Uuid
  tenantId : TenantId
  tableId : TableId
  batchId : Uuid
  manifest : ExtentManifest J
  createdAt : DateTime
  deriving DecidableEq

structure StageDraws where
  rowId : Uuid
  createdAt : DateTime

/-- The row that `stage_extent` inserts. -/
def stagedRow (tenant : TenantId) (batchId : Uuid) (m : ExtentManifest J) (s : StageDraws) : StagedRow J :=
  { id := s.rowId, tenantId := tenant, tableId := m.tableId, batchId, manifest := m, createdAt := s.createdAt }

def BatchStaged (staged : List (StagedRow J)) (tenant : TenantId) (batchId : Uuid) : Prop :=
  ∃ r ∈ staged, r.tenantId = tenant ∧ r.batchId = batchId

instance (staged : List (StagedRow J)) (tenant : TenantId) (batchId : Uuid) :
    Decidable (BatchStaged staged tenant batchId) :=
  inferInstanceAs (Decidable (∃ r ∈ staged, r.tenantId = tenant ∧ r.batchId = batchId))

/-- **`stage_extent`**: `ON CONFLICT (tenant_id, batch_id) DO NOTHING`; whether a row was inserted,
and the table afterwards.  A row identifier that is in use is an error of the database. -/
def stageExtent (staged : List (StagedRow J)) (tenant : TenantId) (batchId : Uuid)
    (m : ExtentManifest J) (s : StageDraws) : Except CatalogError (Bool × List (StagedRow J)) :=
  if ∃ r ∈ staged, r.id = s.rowId then
    .error (Backend.postgres.sqlErr (.uniqueViolation "staged_extents.id"))
  else if BatchStaged staged tenant batchId then .ok (false, staged)
  else .ok (true, staged ++ [stagedRow tenant batchId m s])

/-- **`list_staged_extents`**: the oldest rows of the tenant. -/
def listStagedExtents (staged : List (StagedRow J)) (tenant : TenantId) (max : ℕ) : List (StagedRow J) :=
  ((staged.filter fun r => r.tenantId = tenant).insertionSort fun a b =>
    a.createdAt ≤ b.createdAt).take max

/-- The groups of a tick, in the order in which the `HashMap` happens to give out its keys. -/
def groupByTable (rows : List (StagedRow J)) (order : List TableId) : List (TableId × List (StagedRow J)) :=
  order.map fun t => (t, rows.filter fun r => r.tableId = t)

/-- `order` names the tables of the rows, each once. -/
def IsKeyOrder (rows : List (StagedRow J)) (order : List TableId) : Prop :=
  order.Nodup ∧ (∀ t ∈ order, ∃ r ∈ rows, r.tableId = t) ∧ ∀ r ∈ rows, r.tableId ∈ order

instance (rows : List (StagedRow J)) (order : List TableId) : Decidable (IsKeyOrder rows order) :=
  inferInstanceAs (Decidable (order.Nodup ∧ (∀ t ∈ order, ∃ r ∈ rows, r.tableId = t) ∧ ∀ r ∈ rows, r.tableId ∈ order))

/-! ### The transaction of a group -/

/-- `SELECT current_snapshot_id FROM tables WHERE tenant_id = $1 AND id = $2`; a pointer that is
null does not decode. -/
def selectCurrent (db : Db J) (tenant : TenantId) (tableId : TableId) : Except CatalogError SnapshotId :=
  match db.tables.find? fun t => t.tenantId = tenant ∧ t.id = tableId with
  | none => .error (.sql s!"table {tableId} not found")
  | some t =>
    match t.currentSnapshotId with
    | some parent => .ok parent
    | none => .error (.sql "unexpected null")

/-- `SELECT sequence_number, schema_snapshot_id FROM snapshots WHERE id = $1 FOR UPDATE` -/
def selectParentForUpdate (db : Db J) (parent : SnapshotId) : Except CatalogError (ℕ × SchemaSnapshotId) :=
  match db.snapshots.find? fun s => s.id = parent with
  | some s => .ok (s.sequenceNumber, s.schemaSnapshotId)
  | none => .error (.sql "parent snapshot not found")

def groupTxn (tenant : TenantId) (tableId : TableId) (parent : SnapshotId)
    (schemaSnap : SchemaSnapshotId) (rows : List (StagedRow J)) : SnapshotTxn J :=
  { tenant, tableId, parentSnapshotId := parent, schemaSnapshotId := schemaSnap,
    added := rows.map StagedRow.manifest, removed := [] }

/-- `DELETE FROM staged_extents WHERE tenant_id = $1 AND id = ANY($2)` -/
def deleteStaged (staged : List (StagedRow J)) (tenant : TenantId) (ids : List Uuid) : List (StagedRow J) :=
  staged.filter fun r => decide ¬(r.tenantId = tenant ∧ r.id ∈ ids)

/-- **`commit_staged_group`**, after it has read the current snapshot: the statements, on the working
copy of the transaction.  `deleteFault` is an outside failure of the last one. -/
def commitGroupTx (faults : Faults) (deleteFault : Option DbError) (db : Db J)
    (staged : List (StagedRow J)) (tenant : TenantId) (tableId : TableId)
    (rows : List (StagedRow J)) (parent : SnapshotId) (d : Draws) :
    Except CatalogError (Db J × List (StagedRow J)) := do
  checkFault faults .selectParent Backend.postgres.sqlErr
  let p ← selectParentForUpdate db parent
  let txn := groupTxn tenant tableId parent p.2 rows
  checkFault faults .insertSnapshot Backend.postgres.sqlErrOrConflict
  let db₁ ← insertSnapshot .postgres db (txn.snapshotRow d p.1)
  checkFault faults .insertManifest Backend.postgres.sqlErr
  let db₂ ← insertManifest .postgres db₁ (txn.manifestRow d)
  let db₃ ← insertExtents .postgres faults tenant d.manifestId 0 db₂ (rows.map StagedRow.manifest)
  checkFault faults .compareAndSet Backend.postgres.sqlErr
  let db₄ ← compareAndSet db₃ txn d.newSnapId
  checkFault (fun _ => deleteFault) .softDelete Backend.postgres.sqlErr
  let staged' := deleteStaged staged tenant (rows.map StagedRow.id)
  checkFault faults .commitTx Backend.postgres.sqlErr
  pure (db₄, staged')

/-! ### What a group commit does -/

theorem selectParentForUpdate_eq_ok {db : Db J} {parent : SnapshotId} {p : ℕ × SchemaSnapshotId}
    (h : selectParentForUpdate db parent = .ok p) :
    ∃ s ∈ db.snapshots, s.id = parent ∧ s.sequenceNumber = p.1 ∧ s.schemaSnapshotId = p.2 := by
  unfold selectParentForUpdate at h
  split at h
  · rename_i s hs
    cases h
    exact ⟨s, mem_of_find?_eq_some hs, by simpa using find?_some hs, rfl, rfl⟩
  · cases h

variable {faults : Faults} {deleteFault : Option DbError} {db db' : Db J}
  {staged staged' rows : List (StagedRow J)} {tenant : TenantId} {tableId : TableId}
  {parent : SnapshotId} {d : Draws}

/-- **A group commit that goes through** is a snapshot commit of the group's manifests that removes
nothing, and it has deleted the group's rows. -/
theorem commitGroupTx_ok (h : commitGroupTx faults deleteFault db staged tenant tableId rows parent d =
      .ok (db', staged')) : (∃ schemaSnap, CommitSpec db (groupTxn tenant tableId parent schemaSnap rows) d db') ∧
      staged' = deleteStaged staged tenant (rows.map StagedRow.id) := by
  unfold commitGroupTx at h
  obtain ⟨_, -, h⟩ := bind_eq_ok.mp h
  obtain ⟨⟨n, schemaSnap⟩, hsel, h⟩ := bind_eq_ok.mp h
  obtain ⟨p, hp, hpid, rfl, -⟩ := selectParentForUpdate_eq_ok hsel
  obtain ⟨_, -, h⟩ := bind_eq_ok.mp h
  obtain ⟨db₁, hsnap, h⟩ := bind_eq_ok.mp h
  obtain ⟨hid, hseq, rfl⟩ := insertSnapshot_eq_ok hsnap
  obtain ⟨_, -, h⟩ := bind_eq_ok.mp h
  obtain ⟨db₂, hman, h⟩ := bind_eq_ok.mp h
  obtain rfl := insertManifest_eq_ok hman
  obtain ⟨db₃, hext, h⟩ := bind_eq_ok.mp h
  obtain ⟨hnd, rfl⟩ := insertExtents_eq_ok hext
  obtain ⟨_, -, h⟩ := bind_eq_ok.mp h
  obtain ⟨db₄, hcas, h⟩ := bind_eq_ok.mp h
  obtain ⟨hcur, rfl⟩ := compareAndSet_eq_ok hcas
  obtain ⟨_, -, h⟩ := bind_eq_ok.mp h
  obtain ⟨_, -, h⟩ := bind_eq_ok.mp h
  cases h
  refine ⟨⟨schemaSnap, ?_⟩, rfl⟩
  -- a soft delete that names no extent changes no row
  have hnone : ∀ l : List (ExtentRow J), l.map (markDeleted tenant [] d.now) = l := by
    intro l
    rw [funext (markDeleted_nil tenant d.now), map_id']
  exact { snapshots := ⟨p, hp, hpid, hseq, rfl⟩, freshSnapshot := hid, current := hcur,
          tables := rfl, freshExtents := hnd, extents := (hnone _).symm }

/-! ### Undisturbed, it goes through -/

theorem insertExtents_noFaults {b : Backend} {tenant : TenantId} {manifestId : Uuid}
    {ms : List (ExtentManifest J)} {index : ℕ} {db : Db J}
    (h : (extentIds db ++ ms.map ExtentManifest.id).Nodup) : insertExtents b noFaults tenant manifestId index db ms =
      .ok { db with extents := db.extents ++ ms.map (extentRow tenant manifestId) } := by
  induction ms generalizing index db with
  | nil => simp [insertExtents]
  | cons m ms ih =>
    have hfresh : ¬ ∃ e ∈ db.extents, e.manifest.id = (extentRow tenant manifestId m).manifest.id := by
      rintro ⟨e, he, heq⟩
      have hdisj := (nodup_append'.mp h).2.2
      exact hdisj (mem_map_of_mem he) (heq ▸ .head _)
    have hrest : insertExtents b noFaults tenant manifestId (index + 1)
        { db with extents := db.extents ++ [extentRow tenant manifestId m] } ms = _ :=
      ih (by simpa [extentIds, extentRow] using h)
    unfold insertExtents
    rw [checkFault_noFaults, insertExtent, if_neg hfresh]
    refine hrest.trans ?_
    simp

theorem length_filter_casHits {txn : SnapshotTxn J} {t : TableRow}
    (hnd : (db.tables.map TableRow.id).Nodup) (ht : t ∈ db.tables) (hhit : casHits txn t = true) :
    (db.tables.filter (casHits txn)).length = 1 := by
  have hperm : (db.tables.filter (casHits txn)).Perm [t] := by
    rw [perm_ext_iff_of_nodup ((List.Nodup.of_map _ hnd).filter _) (nodup_singleton t)]
    intro t'
    rw [mem_filter, mem_singleton]
    constructor
    · rintro ⟨ht', hhit'⟩
      exact inj_on_of_nodup_map hnd ht' ht ((casHits_iff.mp hhit').2.1.trans (casHits_iff.mp hhit).2.1.symm)
    · rintro rfl
      exact ⟨ht, hhit⟩
  exact hperm.length_eq

/-- **An undisturbed group commit goes through**: on the current snapshot of the table, with
extents that are not in the catalog yet and identifiers that are new. -/
theorem commitGroupTx_succeeds {w : World J} (h : Inv w) {t : TableRow} (ht : t ∈ w.db.tables)
    (hid : t.id = tableId) (hten : t.tenantId = tenant) (hcur : t.currentSnapshotId = some parent)
    (hrows : (extentIds w.db ++ rows.map fun r => r.manifest.id).Nodup)
    (hsnap : ∀ s ∈ w.db.snapshots, s.id ≠ d.newSnapId) (hman : ∀ m ∈ w.db.manifests, m.id ≠ d.manifestId) :
    ∃ db', commitGroupTx noFaults none w.db staged tenant tableId rows parent d =
      .ok (db', deleteStaged staged tenant (rows.map StagedRow.id)) := by
  obtain ⟨current, hcur', hchain⟩ := (h.tables t ht).chain
  obtain rfl : current = parent := by simpa [hcur] using hcur'.symm
  obtain ⟨p, hp, hpid, hpseq⟩ := hchain.current_row
  obtain ⟨hpmem, hptab⟩ := mem_snapshotsOf.mp (mem_of_getElem? hp)
  have hsel : selectParentForUpdate w.db current = .ok (p.sequenceNumber, p.schemaSnapshotId) := by
    unfold selectParentForUpdate
    split
    · rename_i s hs
      obtain rfl : s = p := inj_on_of_nodup_map h.snapshotIds (mem_of_find?_eq_some hs)
        hpmem ((by simpa using find?_some hs : s.id = _).trans hpid.symm)
      rfl
    · rename_i hnone
      exact absurd hpid (by simpa using find?_eq_none.mp hnone p hpmem)
  -- the numbers of the chain end with that of the current snapshot
  have hfree : ¬ ∃ s ∈ w.db.snapshots, s.tableId = tableId ∧ s.sequenceNumber = p.sequenceNumber + 1 := by
    rintro ⟨s, hs, hst, hseq⟩
    obtain ⟨i, hi⟩ := getElem?_of_mem (mem_snapshotsOf.mpr ⟨hs, hst.trans hid.symm⟩)
    have hlt := (List.getElem?_eq_some_iff.mp hi).1
    have hval := hchain.seq i s hi
    omega
  let txn := groupTxn tenant tableId current p.schemaSnapshotId rows
  let db₁ : Db J := { w.db with snapshots := w.db.snapshots ++ [txn.snapshotRow d p.sequenceNumber] }
  let db₂ : Db J := { db₁ with manifests := w.db.manifests ++ [txn.manifestRow d] }
  let db₃ : Db J := { db₂ with
    extents := w.db.extents ++ (rows.map StagedRow.manifest).map (extentRow tenant d.manifestId) }
  have hins : insertSnapshot .postgres w.db (txn.snapshotRow d p.sequenceNumber) = .ok db₁ := by
    unfold insertSnapshot
    rw [if_neg (fun ⟨s, hs, heq⟩ => hsnap s hs heq), if_neg (fun ⟨s, hs, heq⟩ => hfree ⟨s, hs, heq⟩)]
  have hmanifest : insertManifest .postgres db₁ (txn.manifestRow d) = .ok db₂ := by
    unfold insertManifest
    rw [if_neg (fun ⟨m, hm, heq⟩ => hman m hm heq)]
  have hext : insertExtents .postgres noFaults tenant d.manifestId 0 db₂
      (rows.map StagedRow.manifest) = .ok db₃ := by
    refine insertExtents_noFaults ?_
    rw [map_map]
    exact hrows
  have hhit : casHits txn t = true := casHits_iff.mpr ⟨hten, hid, hcur⟩
  have hone : (db₃.tables.filter (casHits txn)).length = 1 := length_filter_casHits h.tableIds ht hhit
  let db₄ : Db J := { db₃ with tables := db₃.tables.map (advance txn d.newSnapId) }
  have hcas : compareAndSet db₃ txn d.newSnapId = .ok db₄ := by
    unfold compareAndSet
    rw [if_neg (fun hne => hne hone)]
  have hok : ∀ stmt report, checkFault noFaults stmt report = .ok () := checkFault_noFaults
  refine ⟨db₄, bind_eq_ok.mpr ⟨(), hok _ _, bind_eq_ok.mpr ⟨_, hsel, bind_eq_ok.mpr ⟨(), hok _ _, ?_⟩⟩⟩⟩
  refine bind_eq_ok.mpr ⟨_, hins, bind_eq_ok.mpr ⟨_, hok _ _, bind_eq_ok.mpr ⟨_, hmanifest, ?_⟩⟩⟩
  refine bind_eq_ok.mpr ⟨_, hext, bind_eq_ok.mpr ⟨_, hok _ _, bind_eq_ok.mpr ⟨_, hcas, ?_⟩⟩⟩
  exact bind_eq_ok.mpr ⟨_, hok _ _, bind_eq_ok.mpr ⟨_, hok _ _, rfl⟩⟩

end Catalog
