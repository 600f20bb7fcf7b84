/-
**Reading at a snapshot.**

`list_extents` takes the snapshot that a query has pinned and is documented to list the extents
visible at it.  Neither catalog uses the argument: the listing is of what is live now.
-/

import Pensieve.ListExtents
import Pensieve.SnapshotCommit

namespace Catalog

variable {F : Type} [Field F] [LinearOrder F] [HasSqrt F]

/-! ### Histories split at a snapshot -/

/-- The operations of the commits of a table up to and including the snapshot row `s`: the snapshot
with number `n` is the outcome of the first `n` commits. -/
def World.opsUpTo {J : Type} (w : World J) (s : SnapshotRow) : List (OpLog.Op (ExtentManifest J) ExtentId) :=
  (w.opsOf s.tableId).take s.sequenceNumber

/-- The operations of the commits after `s`. -/
def World.opsAfter {J : Type} (w : World J) (s : SnapshotRow) : List (OpLog.Op (ExtentManifest J) ExtentId) :=
  (w.opsOf s.tableId).drop s.sequenceNumber

/-! ### The contract -/

/-- `list_extents(table, s, empty predicate)` returns exactly the extents that are live in the fold
of the commits up to and including `s`. -/
def ListsSnapshot (b : Backend) (jsonbLe : Json F → Json F → Bool) (w : World (Json F))
    (t : TableRow) (s : SnapshotRow) : Prop :=
  ∃ out, listExtents b jsonbLe w.db t.tenantId t.id s.id (PrunePredicate.default (Json F) F) = .ok out ∧
    ∀ m, m ∈ out ↔ m ∈ OpLog.replay ExtentManifest.id (w.opsUpTo s)

/-- **When a pinned snapshot is read as it was.**  After every run, for every table and every
snapshot of its chain, the listing at the snapshot is the fold of the commits up to it if and only
if the commits after it are settled: none has removed an extent that was live at the snapshot, and
every extent added since has been removed again. -/
theorem listsSnapshot_iff_settled (b : Backend) (jsonbLe : Json F → Json F → Bool)
    {w : World (Json F)} (hw : Runs.Reach (step b) Scoped World.init w) {t : TableRow}
    (ht : t ∈ w.db.tables) {s : SnapshotRow} (hs : s ∈ snapshotsOf w.db t.id) :
    ListsSnapshot b jsonbLe w t s ↔ OpLog.Settled ExtentManifest.id (OpLog.replay ExtentManifest.id (w.opsUpTo s))
        (w.opsAfter s) := by
  have hinv := inv_reach hw
  obtain ⟨-, htab⟩ := mem_snapshotsOf.mp hs
  have hsplit : w.opsUpTo s ++ w.opsAfter s = w.opsOf t.id := by
    rw [World.opsUpTo, World.opsAfter, htab, List.take_append_drop]
  -- an identifier is a primary key, so the log of the table uses none of them twice
  have hnd : (OpLog.addedKeys ExtentManifest.id (w.opsUpTo s ++ w.opsAfter s)).Nodup := by
    rw [hsplit, ← (hinv.tables t ht).added]
    exact hinv.extentIds.sublist (List.filter_sublist.map _)
  have hlive : liveExtents w.db t.tenantId t.id =
      OpLog.replay ExtentManifest.id (w.opsUpTo s ++ w.opsAfter s) := by
    rw [hsplit, (hinv.tables t ht).live]
  obtain ⟨out, hout, hperm⟩ := listExtents_default b jsonbLe w.db t.tenantId t.id s.id
  rw [← OpLog.foldl_apply_mem_iff_settled hnd, ← hlive]
  constructor
  · rintro ⟨out', hout', hmem'⟩ m
    obtain rfl : out' = out := by
      rw [hout] at hout'
      cases hout'
      rfl
    rw [← hperm.mem_iff, hmem']
  · intro h
    exact ⟨out, hout, fun m => hperm.mem_iff.trans (h m)⟩

/-! ### Two histories -/

def ingestActions : List (Action (Json ℚ)) :=
  [.createTable 0 1 10 5, .beginSnapshot 0 0 1, .addExtent 0 (smallManifest .null 100), .commit 0 noFaults ⟨11, 50, 7⟩]

def retentionActions : List (Action (Json ℚ)) :=
  [.beginSnapshot 0 0 1, .removeExtents 0 [100], .commit 0 noFaults ⟨12, 51, 8⟩]

def ingestSnapshot : SnapshotRow :=
  { id := 11, tenantId := 0, tableId := 1, parentId := some 10, sequenceNumber := 1, schemaSnapshotId := 5 }

/-- As long as nothing follows the ingest, its snapshot is read as it was. -/
theorem listsSnapshot_after_ingest : ∃ (w : World (Json ℚ)) (t : TableRow),
      Runs.run (step .sqlite) Scoped World.init ingestActions = some w ∧ t ∈ w.db.tables ∧
        ingestSnapshot ∈ snapshotsOf w.db t.id ∧ ListsSnapshot .sqlite (fun _ _ => true) w t ingestSnapshot := by
  obtain ⟨w, hrun⟩ : ∃ w : World (Json ℚ),
      Runs.run (step .sqlite) Scoped World.init ingestActions = some w := ⟨_, rfl⟩
  have hreach := Runs.reach_of_run hrun
  refine ⟨w, ⟨1, 0, some 11, some 5⟩, hrun, ?_⟩
  have ht : (⟨1, 0, some 11, some 5⟩ : TableRow) ∈ w.db.tables := by
    cases hrun
    decide
  have hs : ingestSnapshot ∈ snapshotsOf w.db 1 := by
    cases hrun
    decide
  refine ⟨ht, hs, (listsSnapshot_iff_settled .sqlite _ hreach ht hs).mpr ?_⟩
  have hnone : w.opsAfter ingestSnapshot = [] := by
    cases hrun
    rfl
  rw [hnone]
  exact ⟨by simp, by simp⟩

def LosesSnapshot (b : Backend) : Prop :=
  ∃ (w : World (Json ℚ)) (t : TableRow), Runs.Reach (step b) Scoped World.init w ∧ t ∈ w.db.tables ∧
      ingestSnapshot ∈ snapshotsOf w.db t.id ∧
      listExtents b (fun _ _ => true) w.db t.tenantId t.id ingestSnapshot.id
        (PrunePredicate.default (Json ℚ) ℚ) = .ok [] ∧
      OpLog.replay ExtentManifest.id (w.opsUpTo ingestSnapshot) = [smallManifest .null 100] ∧
      ¬ListsSnapshot b (fun _ _ => true) w t ingestSnapshot

theorem losesSnapshot (b : Backend) : LosesSnapshot b := by
  obtain ⟨w, hrun⟩ : ∃ w : World (Json ℚ),
      Runs.run (step b) Scoped World.init (ingestActions ++ retentionActions) = some w := by
    cases b <;> exact ⟨_, rfl⟩
  have hreach := Runs.reach_of_run hrun
  refine ⟨w, ⟨1, 0, some 12, some 5⟩, hreach, ?_⟩
  have ht : (⟨1, 0, some 12, some 5⟩ : TableRow) ∈ w.db.tables := by
    cases b <;> cases hrun <;> decide
  have hs : ingestSnapshot ∈ snapshotsOf w.db 1 := by
    cases b <;> cases hrun <;> decide
  have hlist : listExtents b (fun _ _ => true) w.db 0 1 ingestSnapshot.id
      (PrunePredicate.default (Json ℚ) ℚ) = .ok [] := by
    cases b <;> cases hrun <;> rfl
  have hfold : OpLog.replay ExtentManifest.id (w.opsUpTo ingestSnapshot) = [smallManifest .null 100] := by
    cases b <;> cases hrun <;> decide
  refine ⟨ht, hs, hlist, hfold, ?_⟩
  rintro ⟨out, hout, hmem⟩
  rw [hlist] at hout
  cases hout
  simpa [hfold] using (hmem (smallManifest .null 100)).mpr (by simp [hfold])

/-- **A pinned snapshot does not stay readable.**  In either catalog, once retention has removed the
extent, the listing at the ingest's snapshot comes back empty, though the extent was live there. -/
theorem list_after_retention : LosesSnapshot .sqlite ∧ LosesSnapshot .postgres :=
  ⟨losesSnapshot .sqlite, losesSnapshot .postgres⟩

end Catalog
