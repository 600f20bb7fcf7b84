/-
**Compaction, backfill, ingest and retention on one table.**

Four kinds of processes change the extents of a table, each in its own sequence of catalog and
object-store calls:

* a compaction task names source extents; its worker lists the live ones among them, reads them,
  writes one merged extent, and commits "add the new, remove the sources";
* an embedding backfill lists an extent, reads it, writes it again with its empty embedding slots
  filled, and commits "add the new, remove the old";
* an ingest writes extents and commits them;
* the retention sweep selects expired extents and commits their removal.

All of them commit through the same loop, which begins a new snapshot after a conflict and applies
the same additions and removals to it (`commit_with_retry`, `commit_supersede` and their kin differ
in the number of attempts).
-/

import Pensieve.ListExtents
import Pensieve.SnapshotCommit

namespace Compaction

open Catalog

variable {V : Type}

/-! ### Rows and blocks -/

/-- The value of each column, `none` for a null. -/
abbrev Row (V : Type) := String → Option V

structure Block (V : Type) where
  fields : List String
  rows : List (Row V)

def Block.read (b : Block V) (r : Row V) : Row V := fun c => if c ∈ b.fields then r c else none

/-- What concerns every process of one table: where it lives, and the backfill's embedder. -/
structure Env (V : Type) where
  backend : Backend
  jsonbLe : Json ℚ → Json ℚ → Bool
  tenant : TenantId
  tableId : TableId
  schemaSnapshotId : SchemaSnapshotId
  /-- the columns of type `FixedSizeList<Float32, dim>` -/
  isEmbedding : String → Bool
  isEmptyText : V → Bool
  embed : V → V

/-- `promote_batch`: carry the columns of the target over by name, null-fill the rest. -/
def promoteBatch (b : Block V) (target : List String) : Block V :=
  if b.fields = target then b
  else { fields := target, rows := b.rows.map b.read }

def needsEmbedding (env : Env V) (b : Block V) (sourceColumn embeddingColumn : String) (r : Row V) : Option V :=
  match b.read r embeddingColumn, b.read r sourceColumn with
  | some _, _ => none
  | none, none => none
  | none, some text => if env.isEmptyText text then none else some text

def rewriteRow (env : Env V) (b : Block V) (sourceColumn embeddingColumn : String) (r : Row V) : Row V :=
  fun c =>
    if c = embeddingColumn then
      match needsEmbedding env b sourceColumn embeddingColumn r with
      | some text => some (env.embed text)
      | none => b.read r embeddingColumn
    else b.read r c

def rewriteBlock (env : Env V) (target : List String) (sourceColumn embeddingColumn : String) (b : Block V) : Block V :=
  { fields := target, rows := b.rows.map (rewriteRow env b sourceColumn embeddingColumn) }

/-! ### Writing extents -/

/-- What the format's writer reports of an extent, beyond its contents. -/
structure ExtentWriteResult where
  extentId : ExtentId
  objectPath : String
  byteSize : ℕ
  minTimestampNanos : Option DateTime
  maxTimestampNanos : Option DateTime
  columnStats : Json ℚ
  presentPaths : List String

def rowCount (blocks : List (Block V)) : ℕ := (blocks.map fun b => b.rows.length).sum

/-- `next_compaction_level`: one above the highest input level, saturating as a `u32`. -/
def nextCompactionLevel (sources : List (ExtentManifest (Json ℚ))) : ℕ :=
  min ((sources.map ExtentManifest.compactionGen).foldl max 0 + 1) (2 ^ 32 - 1)

/-- The manifest of a written extent, at level `gen`. -/
def manifestFromWrite (env : Env V) (w : ExtentWriteResult) (rows gen : ℕ) (now : DateTime) : ExtentManifest (Json ℚ) :=
  { id := w.extentId, tableId := env.tableId, schemaSnapshotId := env.schemaSnapshotId,
    objectPath := w.objectPath, byteSize := w.byteSize, rowCount := rows,
    minTimestamp := w.minTimestampNanos, maxTimestamp := w.maxTimestampNanos,
    columnStats := w.columnStats, presentPaths := w.presentPaths, compactionGen := gen,
    createdAt := now }

/-! ### The commit loop -/

inductive Kind where
  | ingest
  | merge
  | retention
  deriving DecidableEq

/-- How often each kind tries: `MAX` of `commit_with_retry` and of `commit_supersede` is 10, that of
the ingest is 20, and the retention sweep gives up at its fifth conflict. -/
def Kind.maxAttempts : Kind → ℕ
  | .ingest => 20
  | .merge => 10
  | .retention => 5

/-- A process in its commit loop, with the transaction of the current attempt. -/
structure Committer where
  kind : Kind
  added : List (ExtentManifest (Json ℚ))
  removed : List ExtentId
  attempt : ℕ
  txn : Option (SnapshotTxn (Json ℚ))

def Committer.start (kind : Kind) (added : List (ExtentManifest (Json ℚ))) (removed : List ExtentId) : Committer :=
  { kind, added, removed, attempt := 0, txn := none }

def Committer.fill (c : Committer) (txn : SnapshotTxn (Json ℚ)) : SnapshotTxn (Json ℚ) :=
  (c.added.foldl SnapshotTxn.addExtent txn).removeExtents c.removed

def Committer.retry (c : Committer) : Option Committer :=
  if c.attempt < c.kind.maxAttempts then some { c with txn := none } else none

/-! ### The processes -/

inductive Proc where
  | compactionTask (sourceExtentIds : List ExtentId)
  | compactionListed (schema : List String) (sources : List (ExtentManifest (Json ℚ)))
  | backfillTask (extentId : ExtentId) (sourceColumn embeddingColumn : String)
  | backfillListed (schema : List String) (manifest : ExtentManifest (Json ℚ)) (sourceColumn embeddingColumn : String)
  | committing (c : Committer)

structure St (V : Type) where
  db : Db (Json ℚ)
  objects : ExtentId → Option (List (Block V))
  schema : List String
  procs : ℕ → Option Proc
  ingested : Multiset (Row V)
  retired : Multiset (Row V)

def St.init (env : Env V) (schema : List String) : St V :=
  { db :=
      { tables := [{ id := env.tableId, tenantId := env.tenant, currentSnapshotId := some 0,
                     schemaSnapshotId := some env.schemaSnapshotId }]
        snapshots := [{ id := 0, tenantId := env.tenant, tableId := env.tableId, parentId := none,
                        sequenceNumber := 0, schemaSnapshotId := env.schemaSnapshotId }]
        manifests := [], extents := [] }
    objects := fun _ => none, schema, procs := fun _ => none, ingested := 0, retired := 0 }

inductive Action (V : Type) where
  | alterTableAddColumn (name : String)
  | submitCompaction (i : ℕ) (sourceExtentIds : List ExtentId)
  | submitBackfill (i : ℕ) (extentId : ExtentId) (sourceColumn embeddingColumn : String)
  | list (i : ℕ)
  | read (i : ℕ) (w : ExtentWriteResult) (now : DateTime)
  | ingest (i : ℕ) (writes : List (ExtentWriteResult × List (Block V))) (now : DateTime)
  | retention (i : ℕ) (cutoff : DateTime)
  | beginSnapshot (i : ℕ)
  | commit (i : ℕ) (faults : Faults) (d : Draws)

/-! ### What is live -/

/-- The rows of an extent as the specification counts them: embedding columns are left out, which is
all that a backfill may change. -/
def Env.visible (env : Env V) (b : Block V) (r : Row V) : Row V :=
  fun c => if env.isEmbedding c then none else b.read r c

def blocksRows (env : Env V) (blocks : List (Block V)) : Multiset (Row V) :=
  (blocks.map fun b => ((b.rows.map (env.visible b) : List (Row V)) : Multiset (Row V))).sum

def St.rowsOf (env : Env V) (st : St V) (id : ExtentId) : Multiset (Row V) :=
  match st.objects id with
  | some blocks => blocksRows env blocks
  | none => 0

def St.live (env : Env V) (st : St V) : List (ExtentManifest (Json ℚ)) := liveExtents st.db env.tenant env.tableId

/-- **The rows of the table**: those of its live extents. -/
def St.liveRows (env : Env V) (st : St V) : Multiset (Row V) := ((st.live env).map fun m => st.rowsOf env m.id).sum

/-! ### One call of one process -/

def St.setProc (st : St V) (i : ℕ) (p : Option Proc) : St V :=
  { st with procs := Function.update st.procs i p }

/-- `lookup_table`, as far as a listing passes it on. -/
def St.currentSnapshotId (env : Env V) (st : St V) : SnapshotId :=
  ((st.db.tables.find? fun t => t.id = env.tableId).bind TableRow.currentSnapshotId).getD 0

/-- `list_extents` with the empty predicate. -/
def St.listAll (env : Env V) (st : St V) : Except CatalogError (List (ExtentManifest (Json ℚ))) :=
  listExtents env.backend env.jsonbLe st.db env.tenant env.tableId (st.currentSnapshotId env)
    (PrunePredicate.default (Json ℚ) ℚ)

def St.listCompaction (env : Env V) (st : St V) (sourceExtentIds : List ExtentId) : Option Proc :=
  match st.listAll env with
  | .error _ => none
  | .ok all =>
    let sources := all.filter fun m => m.id ∈ sourceExtentIds
    if sources.length ≤ 1 then none else some (.compactionListed st.schema sources)

def St.listBackfill (env : Env V) (st : St V) (extentId : ExtentId)
    (sourceColumn embeddingColumn : String) : Option Proc :=
  match st.listAll env with
  | .error _ => none
  | .ok all =>
    (all.find? fun m => m.id = extentId).map fun m =>
      .backfillListed st.schema m sourceColumn embeddingColumn

/-- Write `blocks` as a new extent and go on to commit it in place of `removed`. -/
def St.writeMerged (env : Env V) (st : St V) (i : ℕ) (w : ExtentWriteResult) (now : DateTime)
    (blocks : List (Block V)) (gen : ℕ) (removed : List ExtentId) : St V :=
  { st.setProc i (some (.committing
      (.start .merge [manifestFromWrite env w (rowCount blocks) (max gen 1) now] removed))) with
    objects := Function.update st.objects w.extentId (some blocks) }

/-- Read the source extents and write the merged one; a source that cannot be opened fails the
task. -/
def St.readCompaction (env : Env V) (st : St V) (i : ℕ) (w : ExtentWriteResult) (now : DateTime)
    (schema : List String) (sources : List (ExtentManifest (Json ℚ))) : St V :=
  match sources.mapM fun m => st.objects m.id with
  | none => st.setProc i none
  | some extents =>
    st.writeMerged env i w now (extents.flatten.map (promoteBatch · schema))
      (nextCompactionLevel sources) (sources.map ExtentManifest.id)

/-- Read the extent and write it again with its empty embedding slots filled.  The column checks may
fail it; an extent with no slot to fill is left alone. -/
def St.readBackfill (env : Env V) (st : St V) (i : ℕ) (w : ExtentWriteResult) (now : DateTime)
    (schema : List String) (manifest : ExtentManifest (Json ℚ)) (sourceColumn embeddingColumn : String) : St V :=
  match st.objects manifest.id with
  | none => st.setProc i none
  | some blocks =>
    if embeddingColumn ∉ schema ∨ env.isEmbedding embeddingColumn = false then st.setProc i none
    else if ∃ b ∈ blocks, sourceColumn ∉ b.fields then st.setProc i none
    else if ∀ b ∈ blocks, ∀ r ∈ b.rows,
        needsEmbedding env b sourceColumn embeddingColumn r = none then st.setProc i none
    else
      st.writeMerged env i w now (blocks.map (rewriteBlock env schema sourceColumn embeddingColumn))
        manifest.compactionGen [manifest.id]

def writeObjects (objects : ExtentId → Option (List (Block V))) :
    List (ExtentWriteResult × List (Block V)) → ExtentId → Option (List (Block V))
  | [] => objects
  | (w, blocks) :: rest => Function.update (writeObjects objects rest) w.extentId (some blocks)

def ingestManifests (env : Env V) (writes : List (ExtentWriteResult × List (Block V)))
    (now : DateTime) : List (ExtentManifest (Json ℚ)) :=
  writes.map fun p => manifestFromWrite env p.1 (rowCount p.2) 0 now

def St.Writable (st : St V) (writes : List (ExtentWriteResult × List (Block V))) : Prop :=
  (writes.map fun p => p.1.extentId).Nodup ∧
  (∀ p ∈ writes, (st.objects p.1.extentId).isNone) ∧
  ∀ p ∈ writes, ∀ b ∈ p.2, ∀ c ∈ b.fields, c ∈ st.schema

instance (st : St V) (writes : List (ExtentWriteResult × List (Block V))) : Decidable (st.Writable writes) :=
  inferInstanceAs (Decidable (_ ∧ _ ∧ _))

/-- The query of the retention sweep: `max_timestamp IS NOT NULL AND max_timestamp < cutoff`. -/
def St.expired (env : Env V) (st : St V) (cutoff : DateTime) : List ExtentId :=
  ((st.live env).filter fun m => m.maxTimestamp.any fun t => t < cutoff).map ExtentManifest.id

def St.beginCommit (env : Env V) (st : St V) (i : ℕ) (c : Committer) : St V :=
  match beginSnapshot st.db env.tenant env.tableId with
  | .error _ => st.setProc i none
  | .ok txn =>
    st.setProc i (some (.committing { c with attempt := c.attempt + 1, txn := some (c.fill txn) }))

def St.addedRows (env : Env V) (st : St V) (c : Committer) : Multiset (Row V) :=
  (c.added.map fun m => st.rowsOf env m.id).sum

def St.removedRows (env : Env V) (st : St V) (c : Committer) : Multiset (Row V) :=
  (((st.live env).filter fun m => m.id ∈ c.removed).map fun m => st.rowsOf env m.id).sum

def St.commit (env : Env V) (st : St V) (i : ℕ) (c : Committer) (txn : SnapshotTxn (Json ℚ))
    (faults : Faults) (d : Draws) : St V :=
  match Catalog.commit env.backend faults st.db txn d with
  | (.ok _, db') =>
    { st.setProc i none with
      db := db'
      ingested := st.ingested + if c.kind = .ingest then st.addedRows env c else 0
      retired := st.retired + if c.kind = .retention then st.removedRows env c else 0 }
  | (.error .conflict, db') => { st.setProc i (c.retry.map .committing) with db := db' }
  | (.error (.sql _), db') => { st.setProc i none with db := db' }

def step (env : Env V) (st : St V) : Action V → Option (St V)
  | .alterTableAddColumn name =>
    if name ∈ st.schema then none else some { st with schema := st.schema ++ [name] }
  | .submitCompaction i sourceExtentIds =>
    match st.procs i with
    | none => some (st.setProc i (some (.compactionTask sourceExtentIds)))
    | some _ => none
  | .submitBackfill i extentId sourceColumn embeddingColumn =>
    match st.procs i with
    | none => some (st.setProc i (some (.backfillTask extentId sourceColumn embeddingColumn)))
    | some _ => none
  | .list i =>
    match st.procs i with
    | some (.compactionTask ids) => some (st.setProc i (st.listCompaction env ids))
    | some (.backfillTask id src emb) => some (st.setProc i (st.listBackfill env id src emb))
    | _ => none
  | .read i w now =>
    -- the writer draws a new identifier
    if (st.objects w.extentId).isSome then none
    else
      match st.procs i with
      | some (.compactionListed schema sources) =>
        some (st.readCompaction env i w now schema sources)
      | some (.backfillListed schema m src emb) =>
        some (st.readBackfill env i w now schema m src emb)
      | _ => none
  | .ingest i writes now =>
    match st.procs i with
    | none =>
      if st.Writable writes then
        some { st.setProc i (some (.committing
            (.start .ingest (ingestManifests env writes now) []))) with
          objects := writeObjects st.objects writes }
      else none
    | some _ => none
  | .retention i cutoff =>
    match st.procs i with
    | none =>
      if st.expired env cutoff = [] then none
      else some (st.setProc i (some (.committing (.start .retention [] (st.expired env cutoff)))))
    | some _ => none
  | .beginSnapshot i =>
    match st.procs i with
    | some (.committing c) => if c.txn.isNone then some (st.beginCommit env i c) else none
    | _ => none
  | .commit i faults d =>
    match st.procs i with
    | some (.committing c) => c.txn.map fun txn => st.commit env i c txn faults d
    | _ => none

end Compaction
