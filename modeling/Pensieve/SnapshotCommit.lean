/-
**Snapshot commits are linearizable.**

Any number of writers work on the catalog at once.  Each begins a snapshot, gathers additions and
removals, and commits; the calls of different writers interleave in any order, and only the
transaction of a commit is atomic.
-/

import Pensieve.Runs
import Pensieve.SnapshotDb

namespace Catalog

open Function
open List

variable {J : Type}

/-! ### The world -/

structure Committed (J : Type) where
  tableId : TableId
  snapshotId : SnapshotId
  op : OpLog.Op (ExtentManifest J) ExtentId

structure World (J : Type) where
  db : Db J
  writers : ℕ → Option (SnapshotTxn J)
  log : List (Committed J)

def World.init : World J :=
  { db := { tables := [], snapshots := [], manifests := [], extents := [] }, writers := fun _ => none, log := [] }

inductive Action (J : Type) where
  | createTable (tenant : TenantId) (tableId : TableId) (snapId : SnapshotId) (schemaSnapId : SchemaSnapshotId)
  | beginSnapshot (i : ℕ) (tenant : TenantId) (tableId : TableId)
  | addExtent (i : ℕ) (m : ExtentManifest J)
  | removeExtents (i : ℕ) (extents : List ExtentId)
  | commit (i : ℕ) (faults : Faults) (d : Draws)
  | rollback (i : ℕ)

/-- The statements of `create_table_in_tenant` that concern snapshots: the table row, snapshot
number 0, and the pointer to it. -/
def createTable (db : Db J) (tenant : TenantId) (tableId : TableId) (snapId : SnapshotId)
    (schemaSnapId : SchemaSnapshotId) : Option (Db J) :=
  if (∃ t ∈ db.tables, t.id = tableId) ∨
      ∃ s ∈ db.snapshots, s.id = snapId ∨ (s.tableId = tableId ∧ s.sequenceNumber = 0) then none
  else some { db with
    tables := db.tables ++ [{ id := tableId, tenantId := tenant, currentSnapshotId := some snapId,
                              schemaSnapshotId := some schemaSnapId }]
    snapshots := db.snapshots ++ [{ id := snapId, tenantId := tenant, tableId, parentId := none,
                                    sequenceNumber := 0, schemaSnapshotId := schemaSnapId }] }

/-- The world after writer `i` has committed: its transaction is gone and logged. -/
def World.committed (w : World J) (i : ℕ) (txn : SnapshotTxn J) (s : SnapshotId) (db' : Db J) : World J :=
  { db := db', writers := Function.update w.writers i none,
    log := w.log ++ [{ tableId := txn.tableId, snapshotId := s, op := ⟨txn.added, txn.removed⟩ }] }

/-- The commit of writer `i`, which gives its transaction up whatever the outcome. -/
def World.commit (b : Backend) (w : World J) (i : ℕ) (txn : SnapshotTxn J) (faults : Faults) (d : Draws) : World J :=
  match Catalog.commit b faults w.db txn d with
  | (.ok s, db') => w.committed i txn s db'
  | (.error _, db') => { w with db := db', writers := Function.update w.writers i none }

def step (b : Backend) (w : World J) : Action J → Option (World J)
  | .createTable tenant tableId snapId schemaSnapId =>
    (createTable w.db tenant tableId snapId schemaSnapId).map fun db => { w with db }
  | .beginSnapshot i tenant tableId =>
    match Catalog.beginSnapshot w.db tenant tableId with
    | .ok txn => some { w with writers := Function.update w.writers i (some txn) }
    | .error _ => none
  | .addExtent i m =>
    (w.writers i).map fun txn =>
      { w with writers := Function.update w.writers i (some (txn.addExtent m)) }
  | .removeExtents i extents =>
    (w.writers i).map fun txn =>
      { w with writers := Function.update w.writers i (some (txn.removeExtents extents)) }
  | .commit i faults d => (w.writers i).map fun txn => w.commit b i txn faults d
  | .rollback i => some { w with writers := Function.update w.writers i none }

/-- What the callers of a commit promise: the manifests they add belong to the table they began on,
and so does every extent they remove. -/
def Scoped (w : World J) : Action J → Prop
  | .commit i _ _ => ∀ txn, w.writers i = some txn → (∀ m ∈ txn.added, m.tableId = txn.tableId) ∧
      ∀ e ∈ w.db.extents, e.manifest.id ∈ txn.removed → e.manifest.tableId = txn.tableId
  | _ => True

instance (w : World J) (a : Action J) : Decidable (Scoped w a) :=
  match a with
  | .commit i _ _ =>
    match h : w.writers i with
    | none => isTrue fun txn htxn => by cases h.symm.trans htxn
    | some txn => decidable_of_iff ((∀ m ∈ txn.added, m.tableId = txn.tableId) ∧
          ∀ e ∈ w.db.extents, e.manifest.id ∈ txn.removed → e.manifest.tableId = txn.tableId)
        ⟨fun hp txn' htxn' => by cases h.symm.trans htxn'; exact hp, fun hp => hp txn h⟩
  | .createTable _ _ _ _ => isTrue trivial
  | .beginSnapshot _ _ _ => isTrue trivial
  | .addExtent _ _ => isTrue trivial
  | .removeExtents _ _ => isTrue trivial
  | .rollback _ => isTrue trivial

/-! ### The specification -/

def World.logOf (w : World J) (tableId : TableId) : List (Committed J) := w.log.filter fun c => c.tableId = tableId

def World.opsOf (w : World J) (tableId : TableId) : List (OpLog.Op (ExtentManifest J) ExtentId) :=
  (w.logOf tableId).map Committed.op

/-- The rows form one parent chain with consecutive numbers from 0, and `current` is its end. -/
structure Chain (rows : List SnapshotRow) (current : SnapshotId) : Prop where
  last : rows.getLast?.map SnapshotRow.id = some current
  seq : ∀ (i : ℕ) (r : SnapshotRow), rows[i]? = some r → r.sequenceNumber = i
  root : ∀ r : SnapshotRow, rows[0]? = some r → r.parentId = none
  parent : ∀ (i : ℕ) (r r' : SnapshotRow), rows[i]? = some r → rows[i + 1]? = some r' → r'.parentId = some r.id

/-- What holds of one table: its chain, that the commits along it are the logged ones, and that its
live extents are what they add up to. -/
structure TableInv (w : World J) (t : TableRow) : Prop where
  chain : ∃ current, t.currentSnapshotId = some current ∧ Chain (snapshotsOf w.db t.id) current
  logged : (snapshotsOf w.db t.id).tail.map SnapshotRow.id = (w.logOf t.id).map Committed.snapshotId
  live : liveExtents w.db t.tenantId t.id = OpLog.replay ExtentManifest.id (w.opsOf t.id)
  added : (w.db.extents.filter fun e => e.manifest.tableId = t.id).map (fun e => e.manifest.id) =
    OpLog.addedKeys ExtentManifest.id (w.opsOf t.id)

structure Inv (w : World J) : Prop where
  tableIds : (w.db.tables.map TableRow.id).Nodup
  snapshotIds : (w.db.snapshots.map SnapshotRow.id).Nodup
  extentIds : (extentIds w.db).Nodup
  snapshotTables : ∀ s ∈ w.db.snapshots, ∃ t ∈ w.db.tables, t.id = s.tableId
  extentTables : ∀ e ∈ w.db.extents, ∃ t ∈ w.db.tables, t.id = e.manifest.tableId
  logTables : ∀ c ∈ w.log, ∃ t ∈ w.db.tables, t.id = c.tableId
  writers : ∀ i txn, w.writers i = some txn → (∃ t ∈ w.db.tables, t.id = txn.tableId ∧ t.tenantId = txn.tenant) ∧
    ∃ s ∈ w.db.snapshots, s.id = txn.parentSnapshotId ∧ s.tableId = txn.tableId
  tables : ∀ t ∈ w.db.tables, TableInv w t

theorem inv_init : Inv (World.init : World J) := by
  constructor <;> simp [World.init, Catalog.extentIds]

/-! ### Chains -/

theorem chain_singleton {r : SnapshotRow} (hseq : r.sequenceNumber = 0) (hpar : r.parentId = none) :
    Chain [r] r.id where
  last := rfl
  seq := by
    intro i r' h
    cases i with
    | zero =>
      cases h
      exact hseq
    | succ i => simp at h
  root := by
    intro r' h
    cases h
    exact hpar
  parent := by
    intro i r₁ r₂ _ h
    simp at h

variable {current : SnapshotId} {rows : List SnapshotRow}

theorem Chain.current_row (h : Chain rows current) :
    ∃ r, rows[rows.length - 1]? = some r ∧ r.id = current ∧ r.sequenceNumber + 1 = rows.length := by
  have hlast := h.last
  rw [getLast?_eq_getElem?] at hlast
  obtain ⟨r, hr, hid⟩ := Option.map_eq_some_iff.mp hlast
  have hlt : rows.length - 1 < rows.length := (List.getElem?_eq_some_iff.mp hr).1
  refine ⟨r, hr, hid, ?_⟩
  rw [h.seq _ r hr]
  omega

theorem Chain.concat {rows : List SnapshotRow} {current : SnapshotId} {r : SnapshotRow}
    (h : Chain rows current) (hseq : r.sequenceNumber = rows.length)
    (hpar : r.parentId = some current) : Chain (rows ++ [r]) r.id := by
  obtain ⟨c, hc, hcid, hcseq⟩ := h.current_row
  refine ⟨by simp, ?_, ?_, ?_⟩
  · intro i r' hi
    rw [getElem?_append] at hi
    split at hi
    · exact h.seq i r' hi
    · obtain ⟨hz, rfl⟩ : i - rows.length = 0 ∧ r = r' := by
        simpa [getElem?_singleton] using hi
      omega
  · intro r' hi
    rw [getElem?_append_left (by omega)] at hi
    exact h.root r' hi
  · intro i r₁ r₂ h₁ h₂
    rw [getElem?_append] at h₁ h₂
    split at h₂
    · rw [if_pos (by omega)] at h₁
      exact h.parent i r₁ r₂ h₁ h₂
    · obtain ⟨hz, rfl⟩ : i + 1 - rows.length = 0 ∧ r = r₂ := by
        simpa [getElem?_singleton] using h₂
      have hlt : i < rows.length := by
        by_contra hge
        omega
      rw [if_pos hlt, show i = rows.length - 1 by omega, hc] at h₁
      cases h₁
      rw [hpar, hcid]

theorem Chain.exists_next {r : SnapshotRow}
    (h : Chain rows current) (hr : r ∈ rows) (hne : r.id ≠ current) :
    ∃ r' ∈ rows, r'.sequenceNumber = r.sequenceNumber + 1 := by
  obtain ⟨i, hi⟩ := getElem?_of_mem hr
  obtain ⟨c, hc, hcid, hcseq⟩ := h.current_row
  have hlt := (List.getElem?_eq_some_iff.mp hi).1
  have hnext : i + 1 < rows.length := by
    by_contra hge
    rw [show i = rows.length - 1 by omega, hc] at hi
    cases hi
    exact hne hcid
  refine ⟨rows[i + 1], getElem_mem hnext, ?_⟩
  rw [h.seq _ _ (getElem?_eq_getElem hnext), h.seq i r hi]

/-! ### Steps that leave the database alone -/

def OpenOn (db : Db J) (txn : SnapshotTxn J) : Prop :=
  (∃ t ∈ db.tables, t.id = txn.tableId ∧ t.tenantId = txn.tenant) ∧
  ∃ s ∈ db.snapshots, s.id = txn.parentSnapshotId ∧ s.tableId = txn.tableId

variable {w : World J}

theorem Inv.setWriter (h : Inv w) (i : ℕ) {o : Option (SnapshotTxn J)}
    (ho : ∀ txn, o = some txn → OpenOn w.db txn) :
    Inv { w with writers := Function.update w.writers i o } where
  tableIds := h.tableIds
  snapshotIds := h.snapshotIds
  extentIds := h.extentIds
  snapshotTables := h.snapshotTables
  extentTables := h.extentTables
  logTables := h.logTables
  tables := fun t ht => ⟨(h.tables t ht).chain, (h.tables t ht).logged, (h.tables t ht).live, (h.tables t ht).added⟩
  writers := by
    intro j txn hj
    by_cases hij : j = i
    · subst hij
      exact ho txn (by simpa using hj)
    · exact h.writers j txn (by simpa [update_of_ne hij] using hj)

variable {txn : SnapshotTxn J}

variable {tenant : TenantId} {tableId : TableId}

theorem beginSnapshot_eq_ok {db : Db J} (h : beginSnapshot db tenant tableId = .ok txn) :
    txn.tenant = tenant ∧ txn.tableId = tableId ∧ txn.added = [] ∧ txn.removed = [] ∧
    ∃ t ∈ db.tables, t.id = tableId ∧ t.tenantId = tenant ∧ t.currentSnapshotId = some txn.parentSnapshotId := by
  unfold beginSnapshot at h
  split at h
  · cases h
  · rename_i t ht
    split at h
    · cases h
    · cases h
    · rename_i parent schemaSnap hcur _
      cases h
      have hmem := mem_of_find?_eq_some ht
      obtain ⟨hten, hid⟩ : t.tenantId = tenant ∧ t.id = tableId := by
        simpa using find?_some ht
      exact ⟨rfl, rfl, rfl, rfl, t, hmem, hid, hten, hcur⟩

theorem mem_snapshotsOf {db : Db J} {s : SnapshotRow} :
    s ∈ snapshotsOf db tableId ↔ s ∈ db.snapshots ∧ s.tableId = tableId := by
  simp [snapshotsOf]

variable {t : TableRow}

theorem Inv.exists_current (h : Inv w) (ht : t ∈ w.db.tables) (hcur : t.currentSnapshotId = some current) :
    ∃ s ∈ w.db.snapshots, s.id = current ∧ s.tableId = t.id := by
  obtain ⟨c, hc, hchain⟩ := (h.tables t ht).chain
  obtain rfl : c = current := by simpa [hc] using hcur
  obtain ⟨r, hr, hid, -⟩ := hchain.current_row
  obtain ⟨hmem, htab⟩ := mem_snapshotsOf.mp (mem_of_getElem? hr)
  exact ⟨r, hmem, hid, htab⟩

theorem Inv.openOn_begin {w : World J} (h : Inv w) {txn : SnapshotTxn J}
    (hb : beginSnapshot w.db tenant tableId = .ok txn) : OpenOn w.db txn := by
  obtain ⟨hten, htab, -, -, t, ht, hid, htt, hcur⟩ := beginSnapshot_eq_ok hb
  obtain ⟨s, hs, hsid, hst⟩ := h.exists_current ht hcur
  exact ⟨⟨t, ht, hid.trans htab.symm, htt.trans hten.symm⟩, s, hs, hsid, hst.trans (hid.trans htab.symm)⟩

theorem Inv.createTable (h : Inv w) {snapId : SnapshotId} {schemaSnapId : SchemaSnapshotId}
    {db' : Db J} (hc : Catalog.createTable w.db tenant tableId snapId schemaSnapId = some db') :
    Inv { w with db := db' } := by
  unfold Catalog.createTable at hc
  split at hc
  · cases hc
  · rename_i hno
    cases hc
    push Not at hno
    obtain ⟨htab, hsnap⟩ := hno
    -- nothing in the database mentions the new table yet
    have hnosnap : ∀ s ∈ w.db.snapshots, s.tableId ≠ tableId := by
      intro s hs heq
      obtain ⟨t, ht, hid⟩ := h.snapshotTables s hs
      exact htab t ht (hid.trans heq)
    have hnoext : ∀ e ∈ w.db.extents, e.manifest.tableId ≠ tableId := by
      intro e he heq
      obtain ⟨t, ht, hid⟩ := h.extentTables e he
      exact htab t ht (hid.trans heq)
    have hnolog : ∀ c ∈ w.log, c.tableId ≠ tableId := by
      intro c hc heq
      obtain ⟨t, ht, hid⟩ := h.logTables c hc
      exact htab t ht (hid.trans heq)
    have hlog : (w.log.filter fun c => c.tableId = tableId) = [] := by
      simpa [filter_eq_nil_iff] using hnolog
    refine { tableIds := ?_, snapshotIds := ?_, extentIds := h.extentIds, snapshotTables := ?_,
             extentTables := ?_, logTables := ?_, writers := ?_, tables := ?_ }
    · rw [map_append]
      refine nodup_append'.mpr ⟨h.tableIds, by simp, ?_⟩
      simpa [disjoint_singleton] using htab
    · rw [map_append]
      refine nodup_append'.mpr ⟨h.snapshotIds, by simp, ?_⟩
      simpa [disjoint_singleton] using fun s hs => (hsnap s hs).1
    · intro s hs
      rcases mem_append.mp hs with hs | hs
      · obtain ⟨t, ht, hid⟩ := h.snapshotTables s hs
        exact ⟨t, by simp [ht], hid⟩
      · cases mem_singleton.mp hs
        exact ⟨_, mem_append_right _ (mem_singleton_self _), rfl⟩
    · intro e he
      obtain ⟨t, ht, hid⟩ := h.extentTables e he
      exact ⟨t, by simp [ht], hid⟩
    · intro c hc
      obtain ⟨t, ht, hid⟩ := h.logTables c hc
      exact ⟨t, by simp [ht], hid⟩
    · intro i txn hi
      obtain ⟨⟨t, ht, h₁⟩, s, hs, h₂⟩ := h.writers i txn hi
      exact ⟨⟨t, by simp [ht], h₁⟩, s, by simp [hs], h₂⟩
    · intro t ht
      rcases mem_append.mp ht with ht | ht
      · -- an old table: the new snapshot is not one of its own
        have hne : tableId ≠ t.id := fun heq => htab t ht heq.symm
        obtain ⟨hchain, hlogged, hlive, hadded⟩ := h.tables t ht
        have hsame : ∀ r : SnapshotRow, r.tableId = tableId →
            (w.db.snapshots ++ [r]).filter (fun s => s.tableId = t.id) = snapshotsOf w.db t.id := by
          intro r hr
          simp [snapshotsOf, filter_append, hr, hne]
        refine ⟨?_, ?_, hlive, hadded⟩
        · simpa [snapshotsOf, hsame, hne] using hchain
        · simpa [snapshotsOf, hne, World.logOf] using hlogged
      · cases mem_singleton.mp ht
        have hown : w.db.snapshots.filter (fun s => s.tableId = tableId) = [] := by
          simpa [filter_eq_nil_iff] using hnosnap
        refine ⟨⟨snapId, rfl, ?_⟩, ?_, ?_, ?_⟩
        · simpa [snapshotsOf, filter_append, hown] using
            chain_singleton (r := ⟨snapId, tenant, tableId, none, 0, schemaSnapId⟩) rfl rfl
        · simp [snapshotsOf, filter_append, hown, World.logOf, hlog]
        · have hrows : w.db.extents.filter (ExtentRow.isLive tenant tableId) = [] := by
            refine filter_eq_nil_iff.mpr fun e he hlive => ?_
            simp only [ExtentRow.isLive, decide_eq_true_eq] at hlive
            exact hnoext e he hlive.2.1
          simp [liveExtents, hrows, World.opsOf, World.logOf, hlog]
        · have hrows : w.db.extents.filter (fun e => e.manifest.tableId = tableId) = [] := by
            simpa [filter_eq_nil_iff] using hnoext
          simp [hrows, World.opsOf, World.logOf, hlog, OpLog.addedKeys]

/-! ### A commit that goes through -/

@[simp] theorem advance_id (txn : SnapshotTxn J) (s : SnapshotId) (t : TableRow) : (advance txn s t).id = t.id := by
  unfold advance
  split <;> rfl

@[simp] theorem advance_tenantId (txn : SnapshotTxn J) (s : SnapshotId) (t : TableRow) :
    (advance txn s t).tenantId = t.tenantId := by
  unfold advance
  split <;> rfl

theorem casHits_iff {txn : SnapshotTxn J} {t : TableRow} :
    casHits txn t = true ↔ t.tenantId = txn.tenant ∧ t.id = txn.tableId ∧
      t.currentSnapshotId = some txn.parentSnapshotId := by
  simp [casHits]

theorem advance_of_ne {s : SnapshotId}
    (h : t.id ≠ txn.tableId) : advance txn s t = t := by
  unfold advance
  rw [if_neg fun hc => h (casHits_iff.mp hc).2.1]

section Commit

variable {w : World J} {i : ℕ} {txn : SnapshotTxn J} {d : Draws} {db' : Db J}

theorem Inv.casHits_of_id (h : Inv w) (hspec : CommitSpec w.db txn d db') {t : TableRow}
    (ht : t ∈ w.db.tables) (hid : t.id = txn.tableId) : casHits txn t = true := by
  obtain ⟨t₀, ht₀, hhit⟩ := hspec.current
  obtain rfl : t = t₀ := inj_on_of_nodup_map h.tableIds ht ht₀ (hid.trans (casHits_iff.mp hhit).2.1.symm)
  exact hhit

theorem snapshotsOf_commit (hspec : CommitSpec w.db txn d db') :
    ∃ p ∈ w.db.snapshots, p.id = txn.parentSnapshotId ∧ ∀ tableId, snapshotsOf db' tableId = snapshotsOf w.db tableId ++
        if txn.tableId = tableId then [txn.snapshotRow d p.sequenceNumber] else [] := by
  obtain ⟨p, hp, hpid, -, hrows⟩ := hspec.snapshots
  refine ⟨p, hp, hpid, fun tableId => ?_⟩
  unfold snapshotsOf
  rw [hrows, filter_append]
  by_cases heq : txn.tableId = tableId <;> simp [SnapshotTxn.snapshotRow, heq]

theorem logOf_committed (tableId : TableId) (s : SnapshotId) :
    (w.committed i txn s db').logOf tableId = w.logOf tableId ++ if txn.tableId = tableId then
        [{ tableId := txn.tableId, snapshotId := s, op := ⟨txn.added, txn.removed⟩ }] else [] := by
  unfold World.logOf World.committed
  rw [filter_append]
  by_cases heq : txn.tableId = tableId <;> simp [heq]

theorem extentsOf_commit (hspec : CommitSpec w.db txn d db')
    (hadd : ∀ m ∈ txn.added, m.tableId = txn.tableId) (tableId : TableId) :
    (db'.extents.filter fun e => e.manifest.tableId = tableId).map (fun e => e.manifest.id) =
      (w.db.extents.filter fun e => e.manifest.tableId = tableId).map (fun e => e.manifest.id) ++
        if txn.tableId = tableId then txn.added.map ExtentManifest.id else [] := by
  rw [hspec.extents, filter_map, map_map, filter_append, map_append]
  congr 1
  · simp [comp_def]
  · rw [filter_map, map_map]
    by_cases heq : txn.tableId = tableId
    · rw [if_pos heq, filter_eq_self.mpr]
      · simp [comp_def, extentRow]
      · intro m hm
        simp [comp_def, extentRow, hadd m hm, heq]
    · rw [if_neg heq, filter_eq_nil_iff.mpr]
      · rfl
      · intro m hm
        simp [comp_def, extentRow, hadd m hm, heq]

theorem Inv.tableInv_own (h : Inv w) (hspec : CommitSpec w.db txn d db')
    (hadd : ∀ m ∈ txn.added, m.tableId = txn.tableId) (ht : t ∈ w.db.tables) (hid : t.id = txn.tableId) :
    TableInv (w.committed i txn d.newSnapId db') (advance txn d.newSnapId t) := by
  obtain ⟨⟨current, hcur, hchain⟩, hlogged, hlive, hadded⟩ := h.tables t ht
  have hhit := h.casHits_of_id hspec ht hid
  obtain ⟨hten, -, hpar⟩ := casHits_iff.mp hhit
  obtain rfl : current = txn.parentSnapshotId := by simpa [hcur] using hpar
  obtain ⟨p, hp, hpid, hsnaps⟩ := snapshotsOf_commit hspec
  have hrows : snapshotsOf db' t.id = snapshotsOf w.db t.id ++ [txn.snapshotRow d p.sequenceNumber] := by
    rw [hsnaps, if_pos hid.symm]
  obtain ⟨r, hr, hrid, hrseq⟩ := hchain.current_row
  -- the parent row that the commit read is the end of the chain
  obtain rfl : p = r :=
    inj_on_of_nodup_map h.snapshotIds hp (mem_snapshotsOf.mp (mem_of_getElem? hr)).1 (hpid.trans hrid.symm)
  have hlog : (w.committed i txn d.newSnapId db').logOf t.id = w.logOf t.id ++
      [{ tableId := txn.tableId, snapshotId := d.newSnapId, op := ⟨txn.added, txn.removed⟩ }] := by
    rw [logOf_committed, if_pos hid.symm]
  have hops : (w.committed i txn d.newSnapId db').opsOf t.id = w.opsOf t.id ++ [⟨txn.added, txn.removed⟩] := by
    simp [World.opsOf, hlog]
  refine ⟨⟨d.newSnapId, by simp [advance, hhit], ?_⟩, ?_, ?_, ?_⟩
  · rw [advance_id]
    show Chain (snapshotsOf db' t.id) d.newSnapId
    rw [hrows]
    exact hchain.concat hrseq rfl
  · rw [advance_id, hlog]
    show (snapshotsOf db' t.id).tail.map SnapshotRow.id = _
    have hne : snapshotsOf w.db t.id ≠ [] := by
      rintro hnil
      simp [hnil] at hr
    rw [hrows, tail_append_of_ne_nil hne, map_append, hlogged, map_append]
    rfl
  · rw [advance_id, advance_tenantId, hops, OpLog.replay_concat, ← hlive]
    show liveExtents db' t.tenantId t.id = _
    have hall : txn.added.filter (fun m => txn.tenant = t.tenantId ∧ m.tableId = t.id) = txn.added := by
      refine filter_eq_self.mpr fun m hm => ?_
      simp [hten, hadd m hm, hid]
    rw [hspec.liveExtents_eq, hall, OpLog.Op.apply]
    simp [hten]
  · rw [advance_id, hops, OpLog.addedKeys_append, ← hadded]
    show (db'.extents.filter _).map _ = _
    rw [extentsOf_commit hspec hadd, if_pos hid.symm]
    simp [OpLog.addedKeys]

theorem Inv.tableInv_other (h : Inv w) (hspec : CommitSpec w.db txn d db')
    (hadd : ∀ m ∈ txn.added, m.tableId = txn.tableId)
    (hrem : ∀ e ∈ w.db.extents, e.manifest.id ∈ txn.removed → e.manifest.tableId = txn.tableId) (ht : t ∈ w.db.tables) (hid : t.id ≠ txn.tableId) :
    TableInv (w.committed i txn d.newSnapId db') t := by
  obtain ⟨hchain, hlogged, hlive, hadded⟩ := h.tables t ht
  obtain ⟨p, -, -, hsnaps⟩ := snapshotsOf_commit hspec
  have hrows : snapshotsOf db' t.id = snapshotsOf w.db t.id := by
    rw [hsnaps, if_neg (Ne.symm hid), append_nil]
  have hlog : (w.committed i txn d.newSnapId db').logOf t.id = w.logOf t.id := by
    rw [logOf_committed, if_neg (Ne.symm hid), append_nil]
  have hops : (w.committed i txn d.newSnapId db').opsOf t.id = w.opsOf t.id := by
    rw [World.opsOf, hlog, World.opsOf]
  refine ⟨?_, ?_, ?_, ?_⟩
  · obtain ⟨current, hcur, hc⟩ := hchain
    refine ⟨current, hcur, ?_⟩
    show Chain (snapshotsOf db' t.id) current
    rwa [hrows]
  · rw [hlog]
    show (snapshotsOf db' t.id).tail.map SnapshotRow.id = _
    rw [hrows, hlogged]
  · rw [hops, ← hlive]
    show liveExtents db' t.tenantId t.id = _
    have hnone : txn.added.filter (fun m => txn.tenant = t.tenantId ∧ m.tableId = t.id) = [] := by
      refine filter_eq_nil_iff.mpr fun m hm => ?_
      simp only [decide_eq_true_eq, not_and]
      intro _ heq
      exact hid (heq.symm.trans (hadd m hm))
    rw [hspec.liveExtents_eq, hnone, append_nil]
    refine filter_eq_self.mpr fun m hm => ?_
    obtain ⟨e, he, rfl⟩ := mem_map.mp hm
    obtain ⟨he, hlive⟩ := mem_filter.mp he
    simp only [ExtentRow.isLive, decide_eq_true_eq] at hlive
    simp only [decide_eq_true_eq, not_and]
    intro _ hr
    exact hid (hlive.2.1.symm.trans (hrem e he hr))
  · rw [hops, ← hadded]
    show (db'.extents.filter _).map _ = _
    rw [extentsOf_commit hspec hadd, if_neg (Ne.symm hid), append_nil]

theorem Inv.committed (h : Inv w) (hspec : CommitSpec w.db txn d db') (hadd : ∀ m ∈ txn.added, m.tableId = txn.tableId)
    (hrem : ∀ e ∈ w.db.extents, e.manifest.id ∈ txn.removed → e.manifest.tableId = txn.tableId) :
    Inv (w.committed i txn d.newSnapId db') := by
  have hkeep : ∀ {P : TableId → TenantId → Prop}, (∃ t ∈ w.db.tables, P t.id t.tenantId) →
      ∃ t ∈ db'.tables, P t.id t.tenantId := by
    rintro P ⟨t, ht, hP⟩
    refine ⟨advance txn d.newSnapId t, ?_, by simpa using hP⟩
    rw [hspec.tables]
    exact mem_map_of_mem ht
  have hown : ∃ t ∈ w.db.tables, t.id = txn.tableId := by
    obtain ⟨t, ht, hhit⟩ := hspec.current
    exact ⟨t, ht, (casHits_iff.mp hhit).2.1⟩
  obtain ⟨p, -, -, -, hsnap⟩ := hspec.snapshots
  refine { tableIds := ?_, snapshotIds := ?_, extentIds := ?_, snapshotTables := ?_,
           extentTables := ?_, logTables := ?_, writers := ?_, tables := ?_ }
  · show (db'.tables.map TableRow.id).Nodup
    rw [hspec.tables, map_map]
    simpa [comp_def] using h.tableIds
  · show (db'.snapshots.map SnapshotRow.id).Nodup
    rw [hsnap, map_append]
    refine nodup_append'.mpr ⟨h.snapshotIds, by simp, ?_⟩
    simpa [disjoint_singleton, SnapshotTxn.snapshotRow] using hspec.freshSnapshot
  · show (db'.extents.map fun e => e.manifest.id).Nodup
    rw [hspec.extents, map_map]
    simpa [comp_def, Catalog.extentIds, extentRow] using hspec.freshExtents h.extentIds
  · intro s hs
    rw [show (w.committed i txn d.newSnapId db').db = db' from rfl, hsnap] at hs
    refine hkeep (P := fun id _ => id = s.tableId) ?_
    rcases mem_append.mp hs with hs | hs
    · exact h.snapshotTables s hs
    · cases mem_singleton.mp hs
      exact hown
  · intro e he
    rw [show (w.committed i txn d.newSnapId db').db = db' from rfl, hspec.extents] at he
    refine hkeep (P := fun id _ => id = e.manifest.tableId) ?_
    obtain ⟨e₀, he₀, rfl⟩ := mem_map.mp he
    rw [markDeleted_manifest]
    rcases mem_append.mp he₀ with he₀ | he₀
    · exact h.extentTables e₀ he₀
    · obtain ⟨m, hm, rfl⟩ := mem_map.mp he₀
      simpa [extentRow, hadd m hm] using hown
  · intro c hc
    refine hkeep (P := fun id _ => id = c.tableId) ?_
    rcases mem_append.mp hc with hc | hc
    · exact h.logTables c hc
    · cases mem_singleton.mp hc
      exact hown
  · intro j txn' hj
    have hj' : w.writers j = some txn' := by
      by_cases hij : j = i
      · subst hij
        simp [World.committed] at hj
      · simpa [World.committed, update_of_ne hij] using hj
    obtain ⟨htab, s, hs, hs'⟩ := h.writers j txn' hj'
    refine ⟨hkeep (P := fun id ten => id = txn'.tableId ∧ ten = txn'.tenant) htab, s, ?_, hs'⟩
    show s ∈ db'.snapshots
    rw [hsnap]
    exact mem_append_left _ hs
  · intro t' ht'
    rw [show (w.committed i txn d.newSnapId db').db = db' from rfl, hspec.tables] at ht'
    obtain ⟨t, ht, rfl⟩ := mem_map.mp ht'
    by_cases hid : t.id = txn.tableId
    · exact h.tableInv_own hspec hadd ht hid
    · rw [advance_of_ne hid]
      exact h.tableInv_other hspec hadd hrem ht hid

end Commit

/-! ### Every run keeps the invariant -/

variable {b : Backend}

theorem Inv.commit (h : Inv w) {i : ℕ}
    {faults : Faults} {d : Draws} (hadd : ∀ m ∈ txn.added, m.tableId = txn.tableId)
    (hrem : ∀ e ∈ w.db.extents, e.manifest.id ∈ txn.removed → e.manifest.tableId = txn.tableId) :
    Inv (w.commit b i txn faults d) := by
  unfold World.commit
  split
  · rename_i s db' hc
    obtain ⟨rfl, hspec⟩ := commit_eq_ok hc
    exact h.committed hspec hadd hrem
  · rename_i e db' hc
    obtain rfl := commit_eq_error hc
    exact h.setWriter i (by simp)

theorem inv_step {b : Backend} {w w' : World J} {a : Action J} (h : Inv w) (ha : Scoped w a)
    (hs : step b w a = some w') : Inv w' := by
  cases a with
  | createTable tenant tableId snapId schemaSnapId =>
    obtain ⟨db', hc, rfl⟩ := Option.map_eq_some_iff.mp hs
    exact h.createTable hc
  | beginSnapshot i tenant tableId =>
    simp only [step] at hs
    split at hs
    · rename_i txn hb
      cases hs
      refine h.setWriter i fun txn' htxn => ?_
      cases htxn
      exact h.openOn_begin hb
    · cases hs
  | addExtent i m | removeExtents i extents =>
    obtain ⟨txn, hi, rfl⟩ := Option.map_eq_some_iff.mp hs
    refine h.setWriter i fun txn' htxn => ?_
    cases htxn
    exact h.writers i txn hi
  | commit i faults d =>
    obtain ⟨txn, hi, rfl⟩ := Option.map_eq_some_iff.mp hs
    obtain ⟨hadd, hrem⟩ := ha txn hi
    exact h.commit hadd hrem
  | rollback i =>
    cases hs
    exact h.setWriter i (by simp)

theorem inv_reach (h : Runs.Reach (step b) Scoped World.init w) : Inv w :=
  h.inv inv_init fun _ _ _ hi ha hs => inv_step hi ha hs

/-! ### Stale parents -/

def Stale (db : Db J) (txn : SnapshotTxn J) : Prop :=
  ∀ t ∈ db.tables, t.id = txn.tableId → t.currentSnapshotId ≠ some txn.parentSnapshotId

instance (db : Db J) (txn : SnapshotTxn J) : Decidable (Stale db txn) :=
  inferInstanceAs (Decidable (∀ t ∈ db.tables, t.id = txn.tableId → t.currentSnapshotId ≠ some txn.parentSnapshotId))

def OnlyLocks (b : Backend) (faults : Faults) : Prop :=
  ∀ stmt e, faults stmt = some e → b = .sqlite ∧ e = .transientLock

theorem onlyLocks_noFaults (b : Backend) : OnlyLocks b noFaults := by
  intro stmt e h
  simp [noFaults] at h

theorem checkFault_of_onlyLocks {faults : Faults} (h : OnlyLocks b faults)
    (stmt : Stmt) {report : DbError → CatalogError}
    (hr : report = b.sqlErr ∨ report = b.sqlErrOrConflict) :
    checkFault faults stmt report = .ok () ∨ checkFault faults stmt report = .error .conflict := by
  cases hf : faults stmt with
  | none => exact .inl (checkFault_eq_ok.mpr hf)
  | some e =>
    obtain ⟨rfl, rfl⟩ := h stmt e hf
    right
    rcases hr with rfl | rfl <;> simp [checkFault, hf] <;> rfl

theorem bind_eq_conflict {α : Type} {x : Except CatalogError Unit} {f : Unit → Except CatalogError α}
    (hx : x = .ok () ∨ x = .error .conflict) (hf : f () = .error .conflict) : x >>= f = .error .conflict := by
  rcases hx with rfl | rfl
  · exact hf
  · rfl

/-- **A commit on a stale parent is a conflict**: the number after the parent's is taken by then, so
the transaction fails at the insert of its snapshot, before it has touched an extent. -/
theorem Inv.commitTx_stale (h : Inv w) {faults : Faults}
    (hf : OnlyLocks b faults) {i : ℕ} (hi : w.writers i = some txn)
    (hstale : Stale w.db txn) (d : Draws) : commitTx b faults w.db txn d = .error .conflict := by
  obtain ⟨⟨t, ht, hid, -⟩, s, hs, hsid, hst⟩ := h.writers i txn hi
  obtain ⟨current, hcur, hchain⟩ := (h.tables t ht).chain
  have hsel : selectParentSeq w.db txn.parentSnapshotId = .ok s.sequenceNumber := by
    unfold selectParentSeq
    split
    · rename_i s' hs'
      obtain rfl : s' = s := inj_on_of_nodup_map h.snapshotIds (mem_of_find?_eq_some hs')
        hs ((by simpa using find?_some hs' : s'.id = _).trans hsid.symm)
      rfl
    · rename_i hnone
      exact absurd hsid (by simpa using find?_eq_none.mp hnone s hs)
  have hne : s.id ≠ current := by
    rintro rfl
    exact hstale t ht hid (hsid ▸ hcur)
  obtain ⟨r, hr, hrseq⟩ := hchain.exists_next (mem_snapshotsOf.mpr ⟨hs, hst.trans hid.symm⟩) hne
  obtain ⟨hr, hrt⟩ := mem_snapshotsOf.mp hr
  have hins : insertSnapshot b w.db (txn.snapshotRow d s.sequenceNumber) = .error .conflict := by
    unfold insertSnapshot
    split
    · rfl
    · rw [if_pos ⟨r, hr, hrt.trans hid, hrseq⟩]
      rfl
  unfold commitTx
  refine bind_eq_conflict (checkFault_of_onlyLocks hf _ (.inl rfl)) ?_
  refine bind_eq_conflict (checkFault_of_onlyLocks hf _ (.inl rfl)) ?_
  rw [hsel]
  refine bind_eq_conflict (checkFault_of_onlyLocks hf _ (.inr rfl)) ?_
  rw [hins]
  rfl

/-! ### The theorem -/

/-- **Snapshot commits are linearizable.**  After any interleaving of any number of writers:

* the committed snapshots of every table form one parent chain with consecutive numbers that ends
  at the table's current snapshot, the logged commits are exactly those along it, and the live
  extents of the table are the replay of their operations;
* a commit whose parent is no longer current fails with a conflict;
* a commit that goes through had the current snapshot for its parent, whatever else fails;
* a commit that fails, for whatever reason and at whatever statement, leaves the database as it
  was. -/
theorem snapshot_commits_linearizable (b : Backend) {w : World J}
    (hw : Runs.Reach (step b) Scoped World.init w) : (∀ t ∈ w.db.tables, ∃ current, t.currentSnapshotId = some current ∧
      Chain (snapshotsOf w.db t.id) current ∧
      (snapshotsOf w.db t.id).tail.map SnapshotRow.id = (w.logOf t.id).map Committed.snapshotId ∧
      liveExtents w.db t.tenantId t.id = OpLog.replay ExtentManifest.id (w.opsOf t.id)) ∧
    (∀ i txn faults d, w.writers i = some txn → Stale w.db txn → OnlyLocks b faults →
      Catalog.commit b faults w.db txn d = (.error .conflict, w.db)) ∧
    (∀ txn faults d s db', Catalog.commit b faults w.db txn d = (.ok s, db') → ¬Stale w.db txn) ∧
    (∀ txn faults d e db', Catalog.commit b faults w.db txn d = (.error e, db') → db' = w.db) := by
  have h := inv_reach hw
  refine ⟨?_, ?_, ?_, ?_⟩
  · intro t ht
    obtain ⟨current, hcur, hchain⟩ := (h.tables t ht).chain
    exact ⟨current, hcur, hchain, (h.tables t ht).logged, (h.tables t ht).live⟩
  · intro i txn faults d hi hstale hf
    unfold Catalog.commit
    rw [h.commitTx_stale hf hi hstale d]
  · intro txn faults d s db' hc hstale
    obtain ⟨t, ht, hhit⟩ := (commit_eq_ok hc).2.current
    obtain ⟨-, hid, hcur⟩ := casHits_iff.mp hhit
    exact hstale t ht hid hcur
  · intro txn faults d e db' hc
    exact commit_eq_error hc

def smallManifest (stats : J) (id : ExtentId) : ExtentManifest J :=
  { id, tableId := 1, schemaSnapshotId := 5, objectPath := "", byteSize := 0, rowCount := 0,
    minTimestamp := none, maxTimestamp := none, columnStats := stats, presentPaths := [],
    compactionGen := 0, createdAt := 0 }

def raceActions : List (Action Unit) :=
  [.createTable 0 1 10 5, .beginSnapshot 0 0 1, .beginSnapshot 1 0 1,
   .addExtent 0 (smallManifest () 100), .commit 0 noFaults ⟨11, 50, 7⟩]

/-- The second writer then meets the conflict that the theorem promises. -/
theorem snapshot_commits_linearizable_race :
    ∃ w : World Unit, Runs.run (step .sqlite) Scoped World.init raceActions = some w ∧
      liveExtents w.db 0 1 = [smallManifest () 100] ∧ ∃ txn, w.writers 1 = some txn ∧
        Catalog.commit .sqlite noFaults w.db txn ⟨12, 51, 8⟩ = (.error .conflict, w.db) := by
  obtain ⟨w, hrun⟩ : ∃ w : World Unit,
      Runs.run (step .sqlite) Scoped World.init raceActions = some w := ⟨_, rfl⟩
  obtain ⟨-, hstale, -, -⟩ := snapshot_commits_linearizable .sqlite (Runs.reach_of_run hrun)
  refine ⟨w, hrun, ?_⟩
  cases hrun
  refine ⟨by decide, _, rfl, hstale 1 _ noFaults _ rfl ?_ (onlyLocks_noFaults .sqlite)⟩
  decide

end Catalog
