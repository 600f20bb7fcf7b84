/-
**Staged ingest is exactly-once.**

Routers stage extents, any number of committers run their ticks over the same staging table, and
other writers begin and commit snapshots of their own; all of it interleaves.
-/

import Pensieve.StagedCommit

namespace Catalog

open Function
open List

variable {J : Type}

/-! ### The world -/

structure Tick (J : Type) where
  tenant : TenantId
  groups : List (TableId × List (StagedRow J))
  parent : Option SnapshotId
  attempt : ℕ
  committed : ℕ

/-- Go on with the next group, after `n` extents of this one have been committed. -/
def Tick.next (t : Tick J) (n : ℕ) : Tick J :=
  { t with groups := t.groups.tail, parent := none, attempt := 0, committed := t.committed + n }

def Tick.onError (t : Tick J) (e : CatalogError) : Tick J :=
  if e = .conflict ∧ t.attempt < 20 then { t with parent := none, attempt := t.attempt + 1 }
  else t.next 0

structure Staging (J : Type) where
  cat : World J
  staged : List (StagedRow J)
  ticks : ℕ → Option (Tick J)
  accepted : List (StagedRow J)

def Staging.init : Staging J :=
  { cat := World.init, staged := [], ticks := fun _ => none, accepted := [] }

inductive StagingAction (J : Type) where
  | catalog (a : Action J)
  | stage (tenant : TenantId) (batchId : Uuid) (m : ExtentManifest J) (s : StageDraws)
  | list (i : ℕ) (tenant : TenantId) (max : ℕ) (order : List TableId)
  | readParent (i : ℕ) (fault : Option DbError)
  | commitGroup (i : ℕ) (faults : Faults) (deleteFault : Option DbError) (d : Draws)
  | finish (i : ℕ)
  | crash (i : ℕ)

def Staging.setTick (w : Staging J) (i : ℕ) (t : Option (Tick J)) : Staging J :=
  { w with ticks := Function.update w.ticks i t }

/-- The world after tick `i` has committed its first group. -/
def Staging.groupCommitted (w : Staging J) (i : ℕ) (t : Tick J) (tableId : TableId)
    (rows : List (StagedRow J)) (d : Draws) (db' : Db J) (staged' : List (StagedRow J)) : Staging J :=
  { cat := { w.cat with
      db := db'
      log := w.cat.log ++ [{ tableId, snapshotId := d.newSnapId, op := ⟨rows.map StagedRow.manifest, []⟩ }] }
    staged := staged'
    ticks := Function.update w.ticks i (some (t.next rows.length))
    accepted := w.accepted }

@[simp] theorem Staging.setTick_ticks (w : Staging J) (i : ℕ) (t : Option (Tick J)) :
    (w.setTick i t).ticks = Function.update w.ticks i t := rfl

@[simp] theorem Staging.groupCommitted_ticks (w : Staging J) (i : ℕ) (t : Tick J)
    (tableId : TableId) (rows : List (StagedRow J)) (d : Draws) (db' : Db J) (staged' : List (StagedRow J)) :
    (w.groupCommitted i t tableId rows d db' staged').ticks =
      Function.update w.ticks i (some (t.next rows.length)) := rfl

/-- The first statement of `commit_staged_group`, or its early return. -/
def Staging.readParent (w : Staging J) (i : ℕ) (t : Tick J) (fault : Option DbError) : Option (Staging J) :=
  match t.groups, t.parent with
  | (tableId, rows) :: _, none =>
    if rows = [] then some (w.setTick i (some (t.next 0)))
    else
      match checkFault (fun _ => fault) .beginTx Backend.postgres.sqlErr >>= fun _ =>
          selectCurrent w.cat.db t.tenant tableId with
      | .ok parent => some (w.setTick i (some { t with parent := some parent }))
      | .error e => some (w.setTick i (some (t.onError e)))
  | _, _ => none

def Staging.commitGroup (w : Staging J) (i : ℕ) (t : Tick J) (faults : Faults)
    (deleteFault : Option DbError) (d : Draws) : Option (Staging J) :=
  match t.groups, t.parent with
  | (tableId, rows) :: _, some parent =>
    match commitGroupTx faults deleteFault w.cat.db w.staged t.tenant tableId rows parent d with
    | .ok (db', staged') => some (w.groupCommitted i t tableId rows d db' staged')
    | .error e => some (w.setTick i (some (t.onError e)))
  | _, _ => none

def stagingStep (w : Staging J) : StagingAction J → Option (Staging J)
  | .catalog a => (step .postgres w.cat a).map fun cat => { w with cat }
  | .stage tenant batchId m s =>
    match stageExtent w.staged tenant batchId m s with
    | .ok (true, staged) =>
      some { w with staged, accepted := w.accepted ++ [stagedRow tenant batchId m s] }
    | .ok (false, _) => some w
    | .error _ => some w
  | .list i tenant max order =>
    match w.ticks i with
    | some _ => none
    | none =>
      let rows := listStagedExtents w.staged tenant max
      if IsKeyOrder rows order then
        some (w.setTick i (some ⟨tenant, groupByTable rows order, none, 0, 0⟩))
      else none
  | .readParent i fault => (w.ticks i).bind fun t => w.readParent i t fault
  | .commitGroup i faults deleteFault d =>
    (w.ticks i).bind fun t => w.commitGroup i t faults deleteFault d
  | .finish i =>
    (w.ticks i).bind fun t => if t.groups = [] then some (w.setTick i none) else none
  | .crash i => some (w.setTick i none)

def AddsUnstaged (w : Staging J) : Action J → Prop
  | .commit i _ _ => ∀ txn, w.cat.writers i = some txn → ∀ m ∈ txn.added, ∀ r ∈ w.staged, r.manifest.id ≠ m.id
  | _ => True

instance (w : Staging J) (a : Action J) : Decidable (AddsUnstaged w a) :=
  match a with
  | .commit i _ _ =>
    match h : w.cat.writers i with
    | none => isTrue fun txn htxn => by cases h.symm.trans htxn
    | some txn => decidable_of_iff (∀ m ∈ txn.added, ∀ r ∈ w.staged, r.manifest.id ≠ m.id)
        ⟨fun hp txn' htxn' => by cases h.symm.trans htxn'; exact hp, fun hp => hp txn h⟩
  | .createTable _ _ _ _ => isTrue trivial
  | .beginSnapshot _ _ _ => isTrue trivial
  | .addExtent _ _ => isTrue trivial
  | .removeExtents _ _ => isTrue trivial
  | .rollback _ => isTrue trivial

/-- What the callers promise: an extent identifier is drawn for one extent, which one writer then
stages or commits, and the commits of the other writers stay within their table. -/
def FreshExtents (w : Staging J) : StagingAction J → Prop
  | .catalog a => Scoped w.cat a ∧ AddsUnstaged w a
  | .stage tenant batchId m _ => BatchStaged w.staged tenant batchId ∨
      ((∀ r ∈ w.staged, r.manifest.id ≠ m.id) ∧ m.id ∉ extentIds w.cat.db)
  | _ => True

instance (w : Staging J) (a : StagingAction J) : Decidable (FreshExtents w a) :=
  match a with
  | .catalog a => inferInstanceAs (Decidable (Scoped w.cat a ∧ AddsUnstaged w a))
  | .stage tenant batchId m _ => inferInstanceAs (Decidable (BatchStaged w.staged tenant batchId ∨
      ((∀ r ∈ w.staged, r.manifest.id ≠ m.id) ∧ m.id ∉ extentIds w.cat.db)))
  | .list _ _ _ _ => isTrue trivial
  | .readParent _ _ => isTrue trivial
  | .commitGroup _ _ _ _ => isTrue trivial
  | .finish _ => isTrue trivial
  | .crash _ => isTrue trivial

/-! ### The invariant -/

def addedIds (log : List (Committed J)) : List ExtentId := log.flatMap fun c => c.op.added.map ExtentManifest.id

def timesCommitted (w : Staging J) (x : ExtentId) : ℕ :=
  w.cat.log.countP fun c => x ∈ c.op.added.map ExtentManifest.id

def Landed (db : Db J) (r : StagedRow J) : Prop := ∃ e ∈ db.extents, e.manifest = r.manifest ∧ e.tenantId = r.tenantId

structure Listed (w : Staging J) (tenant : TenantId) (tableId : TableId) (r : StagedRow J) : Prop where
  ofTenant : r.tenantId = tenant
  ofTable : r.tableId = tableId
  manifestTable : r.manifest.tableId = tableId
  place : r ∈ w.staged ∨ r.manifest.id ∈ extentIds w.cat.db

structure StagingInv (w : Staging J) : Prop where
  cat : Inv w.cat
  /-- the rows of `extents` are what the logged commits have added -/
  extents : extentIds w.cat.db = addedIds w.cat.log
  rowIds : (w.staged.map StagedRow.id).Nodup
  extentNodup : (w.staged.map fun r => r.manifest.id).Nodup
  disjoint : ∀ r ∈ w.staged, r.manifest.id ∉ extentIds w.cat.db
  tables : ∀ r ∈ w.staged, r.manifest.tableId = r.tableId
  ticks : ∀ i t, w.ticks i = some t → ∀ g ∈ t.groups, (g.2.map fun r => r.manifest.id).Nodup ∧
    ∀ r ∈ g.2, Listed w t.tenant g.1 r
  stagedAccepted : ∀ r ∈ w.staged, r ∈ w.accepted
  accepted : ∀ r ∈ w.accepted, r ∈ w.staged ∨ Landed w.cat.db r

theorem staging_inv_init : StagingInv (Staging.init : Staging J) where
  cat := inv_init
  extents := rfl
  rowIds := nodup_nil
  extentNodup := nodup_nil
  disjoint := fun r hr => absurd hr not_mem_nil
  tables := fun r hr => absurd hr not_mem_nil
  ticks := fun i t h => by cases h
  stagedAccepted := fun r hr => absurd hr not_mem_nil
  accepted := fun r hr => absurd hr not_mem_nil

theorem Landed.mem_extentIds {db : Db J} {r : StagedRow J} (h : Landed db r) : r.manifest.id ∈ extentIds db := by
  obtain ⟨e, he, hm, -⟩ := h
  exact mem_map.mpr ⟨e, he, by rw [hm]⟩

section Commit

variable {db db' : Db J} {txn : SnapshotTxn J} {d : Draws}

theorem CommitSpec.extentIds_eq (h : CommitSpec db txn d db') :
    extentIds db' = extentIds db ++ txn.added.map ExtentManifest.id := by
  unfold extentIds
  rw [h.extents, map_map, map_append, map_map]
  congr 1 <;> simp [comp_def, extentRow]

theorem CommitSpec.landed (h : CommitSpec db txn d db') {r : StagedRow J} (hr : Landed db r) : Landed db' r := by
  obtain ⟨e, he, hm, ht⟩ := hr
  refine ⟨markDeleted txn.tenant txn.removed d.now e, ?_, by simpa using hm, by simpa using ht⟩
  rw [h.extents]
  exact mem_map_of_mem (mem_append_left _ he)

theorem CommitSpec.landed_added (h : CommitSpec db txn d db') {r : StagedRow J}
    (hr : r.manifest ∈ txn.added) (ht : r.tenantId = txn.tenant) : Landed db' r := by
  refine ⟨markDeleted txn.tenant txn.removed d.now (extentRow txn.tenant d.manifestId r.manifest),
    ?_, by simp [extentRow], by simp [extentRow, ht]⟩
  rw [h.extents]
  exact mem_map_of_mem (mem_append_right _ (mem_map_of_mem hr))

theorem CommitSpec.mem_liveExtents (h : CommitSpec db txn d db') (hrem : txn.removed = [])
    {tenant : TenantId} {tableId : TableId} {m : ExtentManifest J} :
    m ∈ liveExtents db' tenant tableId ↔ m ∈ liveExtents db tenant tableId ∨
      (m ∈ txn.added ∧ txn.tenant = tenant ∧ m.tableId = tableId) := by
  rw [h.liveExtents_eq, mem_filter, mem_append, mem_filter, hrem]
  simp

end Commit

theorem step_extents {w w' : World J} {a : Action J} (hs : step .postgres w a = some w') :
    (w'.db.extents = w.db.extents ∧ w'.log = w.log) ∨
      ∃ i faults d txn, a = .commit i faults d ∧ w.writers i = some txn ∧
        CommitSpec w.db txn d w'.db ∧ w'.log = w.log ++
          [{ tableId := txn.tableId, snapshotId := d.newSnapId, op := ⟨txn.added, txn.removed⟩ }] := by
  cases a with
  | createTable tenant tableId snapId schemaSnapId =>
    obtain ⟨db', hc, rfl⟩ := Option.map_eq_some_iff.mp hs
    unfold Catalog.createTable at hc
    split at hc
    · cases hc
    · cases hc
      exact .inl ⟨rfl, rfl⟩
  | beginSnapshot i tenant tableId =>
    simp only [step] at hs
    split at hs
    · cases hs
      exact .inl ⟨rfl, rfl⟩
    · cases hs
  | addExtent i m | removeExtents i extents =>
    obtain ⟨txn, -, rfl⟩ := Option.map_eq_some_iff.mp hs
    exact .inl ⟨rfl, rfl⟩
  | commit i faults d =>
    obtain ⟨txn, hi, rfl⟩ := Option.map_eq_some_iff.mp hs
    unfold World.commit
    split
    · rename_i s db' hc
      obtain ⟨rfl, hspec⟩ := commit_eq_ok hc
      exact .inr ⟨i, faults, d, txn, rfl, hi, hspec, rfl⟩
    · rename_i e db' hc
      obtain rfl := commit_eq_error hc
      exact .inl ⟨rfl, rfl⟩
  | rollback i =>
    cases hs
    exact .inl ⟨rfl, rfl⟩

theorem Inv.committedBeside {w : World J} (h : Inv w) {txn : SnapshotTxn J} {d : Draws} {db' : Db J}
    (hspec : CommitSpec w.db txn d db') (hadd : ∀ m ∈ txn.added, m.tableId = txn.tableId) (hrem : txn.removed = []) :
    Inv { w with
      db := db'
      log := w.log ++ [{ tableId := txn.tableId, snapshotId := d.newSnapId, op := ⟨txn.added, txn.removed⟩ }] } := by
  have hnone : ∀ e ∈ w.db.extents, e.manifest.id ∈ txn.removed → e.manifest.tableId = txn.tableId := by
    rw [hrem]
    exact fun e _ hmem => absurd hmem not_mem_nil
  have hc : ∀ i, Inv (w.committed i txn d.newSnapId db') := fun i => h.committed hspec hadd hnone
  refine { tableIds := (hc 0).tableIds, snapshotIds := (hc 0).snapshotIds,
           extentIds := (hc 0).extentIds, snapshotTables := (hc 0).snapshotTables,
           extentTables := (hc 0).extentTables, logTables := (hc 0).logTables, writers := ?_,
           tables := fun t ht => ?_ }
  · -- the transaction of writer `j` is seen from a commit of any other writer
    intro j txn' hj
    refine (hc (j + 1)).writers j txn' ?_
    show Function.update w.writers (j + 1) none j = some txn'
    rw [update_of_ne (by omega), hj]
  · have := (hc 0).tables t ht
    exact ⟨this.chain, this.logged, this.live, this.added⟩

/-! ### The steps keep the invariant -/

variable {rest : List (TableId × List (StagedRow J))} {rows : List (StagedRow J)} {i : ℕ}

section Steps

variable {w : Staging J}

variable {tenant : TenantId} {tableId : TableId}

theorem Listed.mono {w w' : Staging J} {r : StagedRow J} (h : Listed w tenant tableId r)
    (hplace : r ∈ w.staged ∨ r.manifest.id ∈ extentIds w.cat.db → r ∈ w'.staged ∨ r.manifest.id ∈ extentIds w'.cat.db) : Listed w' tenant tableId r :=
  ⟨h.ofTenant, h.ofTable, h.manifestTable, hplace h.place⟩

theorem StagingInv.setTick (h : StagingInv w) (i : ℕ) {o : Option (Tick J)}
    (ho : ∀ t, o = some t → ∀ g ∈ t.groups, (g.2.map fun r => r.manifest.id).Nodup ∧
      ∀ r ∈ g.2, Listed w t.tenant g.1 r) : StagingInv (w.setTick i o) where
  cat := h.cat
  extents := h.extents
  rowIds := h.rowIds
  extentNodup := h.extentNodup
  disjoint := h.disjoint
  tables := h.tables
  stagedAccepted := h.stagedAccepted
  accepted := h.accepted
  ticks := by
    intro j t hj g hg
    have hsame : ∀ r, Listed w t.tenant g.1 r → Listed (w.setTick i o) t.tenant g.1 r := fun r hr => hr.mono id
    by_cases hij : j = i
    · rw [hij, Staging.setTick_ticks, update_self] at hj
      exact ⟨(ho t hj g hg).1, fun r hr => hsame r ((ho t hj g hg).2 r hr)⟩
    · rw [Staging.setTick_ticks, update_of_ne hij] at hj
      exact ⟨(h.ticks j t hj g hg).1, fun r hr => hsame r ((h.ticks j t hj g hg).2 r hr)⟩

theorem StagingInv.setTick_of_subset (h : StagingInv w) {t t' : Tick J}
    (hi : w.ticks i = some t) (htenant : t'.tenant = t.tenant)
    (hsub : ∀ g ∈ t'.groups, g ∈ t.groups) : StagingInv (w.setTick i (some t')) := by
  refine h.setTick i fun t'' ht'' g hg => ?_
  cases ht''
  rw [htenant]
  exact h.ticks i t hi g (hsub g hg)

theorem Tick.onError_groups (t : Tick J) (e : CatalogError) :
    (t.onError e).tenant = t.tenant ∧ ∀ g ∈ (t.onError e).groups, g ∈ t.groups := by
  unfold Tick.onError
  split
  · exact ⟨rfl, fun g hg => hg⟩
  · exact ⟨rfl, fun g hg => mem_of_mem_tail hg⟩

theorem StagingInv.onError (h : StagingInv w) {t : Tick J} (hi : w.ticks i = some t)
    (e : CatalogError) : StagingInv (w.setTick i (some (t.onError e))) :=
  h.setTick_of_subset hi (t.onError_groups e).1 (t.onError_groups e).2

theorem mem_listStagedExtents {staged : List (StagedRow J)} {max : ℕ} {r : StagedRow J}
    (h : r ∈ listStagedExtents staged tenant max) : r ∈ staged ∧ r.tenantId = tenant := by
  have hr := (mem_insertionSort _).mp (mem_of_mem_take h)
  exact ⟨(mem_filter.mp hr).1, by simpa using (mem_filter.mp hr).2⟩

theorem StagingInv.list (h : StagingInv w) (i : ℕ) (tenant : TenantId) (max : ℕ) (order : List TableId) :
    StagingInv (w.setTick i
      (some ⟨tenant, groupByTable (listStagedExtents w.staged tenant max) order, none, 0, 0⟩)) := by
  refine h.setTick i fun t ht g hg => ?_
  cases ht
  obtain ⟨tableId, -, rfl⟩ := mem_map.mp hg
  constructor
  · -- sorted, cut and filtered, the identifiers are still distinct
    have hfilter : ((w.staged.filter fun r => r.tenantId = tenant).map
        fun r => r.manifest.id).Nodup := h.extentNodup.sublist (filter_sublist.map _)
    have hsort : (((w.staged.filter fun r => r.tenantId = tenant).insertionSort fun a b =>
        a.createdAt ≤ b.createdAt).map fun r => r.manifest.id).Nodup :=
      (((perm_insertionSort _ _).map _).nodup_iff).mpr hfilter
    exact hsort.sublist ((filter_sublist.trans (take_sublist _ _)).map _)
  · intro r hr
    obtain ⟨hr, htable⟩ := mem_filter.mp hr
    obtain ⟨hstaged, htenant⟩ := mem_listStagedExtents hr
    have htab : r.tableId = tableId := by simpa using htable
    exact ⟨htenant, htab, (h.tables r hstaged).trans htab, .inl hstaged⟩

theorem StagingInv.stage (h : StagingInv w) {batchId : Uuid} {m : ExtentManifest J} {s : StageDraws}
    (hrow : ¬ ∃ r ∈ w.staged, r.id = s.rowId) (hfresh : ∀ r ∈ w.staged, r.manifest.id ≠ m.id)
    (hnew : m.id ∉ extentIds w.cat.db) :
    StagingInv { w with
      staged := w.staged ++ [stagedRow tenant batchId m s]
      accepted := w.accepted ++ [stagedRow tenant batchId m s] } where
  cat := h.cat
  extents := h.extents
  rowIds := by
    rw [map_append]
    refine nodup_append'.mpr ⟨h.rowIds, nodup_singleton _, ?_⟩
    intro x hx hx'
    obtain ⟨r, hr, rfl⟩ := mem_map.mp hx
    exact hrow ⟨r, hr, mem_singleton.mp hx'⟩
  extentNodup := by
    rw [map_append]
    refine nodup_append'.mpr ⟨h.extentNodup, nodup_singleton _, ?_⟩
    intro x hx hx'
    obtain ⟨r, hr, rfl⟩ := mem_map.mp hx
    exact hfresh r hr (mem_singleton.mp hx')
  disjoint := by
    intro r hr
    rcases mem_append.mp hr with hr | hr
    · exact h.disjoint r hr
    · rw [mem_singleton.mp hr]
      exact hnew
  tables := by
    intro r hr
    rcases mem_append.mp hr with hr | hr
    · exact h.tables r hr
    · rw [mem_singleton.mp hr]
      rfl
  ticks := by
    intro i t hi g hg
    refine ⟨(h.ticks i t hi g hg).1, fun r hr => ((h.ticks i t hi g hg).2 r hr).mono ?_⟩
    exact Or.imp_left (mem_append_left _)
  stagedAccepted := by
    intro r hr
    rcases mem_append.mp hr with hr | hr
    · exact mem_append_left _ (h.stagedAccepted r hr)
    · exact mem_append_right _ hr
  accepted := by
    intro r hr
    rcases mem_append.mp hr with hr | hr
    · exact (h.accepted r hr).imp_left (mem_append_left _)
    · exact .inl (mem_append_right _ hr)

theorem StagingInv.catalog (h : StagingInv w) {a : Action J} {cat' : World J}
    (hf : FreshExtents w (.catalog a)) (hs : step .postgres w.cat a = some cat') :
    StagingInv { w with cat := cat' } := by
  have hcat := inv_step h.cat hf.1 hs
  -- the extents grow by what is logged, and by nothing that is staged
  obtain ⟨new, hids, hlog, hnew, hland⟩ : ∃ new : List ExtentId,
      extentIds cat'.db = extentIds w.cat.db ++ new ∧ addedIds cat'.log = addedIds w.cat.log ++ new ∧
      (∀ r ∈ w.staged, r.manifest.id ∉ new) ∧
      ∀ r : StagedRow J, Landed w.cat.db r → Landed cat'.db r := by
    rcases step_extents hs with ⟨hext, hlog⟩ | ⟨i, faults, d, txn, rfl, hi, hspec, hlog⟩
    · refine ⟨[], ?_, ?_, fun r _ => not_mem_nil, fun r hr => ?_⟩
      · rw [extentIds, hext, append_nil, extentIds]
      · rw [hlog, append_nil]
      · rwa [Landed, hext]
    · refine ⟨txn.added.map ExtentManifest.id, hspec.extentIds_eq, ?_, fun r hr hmem => ?_, fun r hr => hspec.landed hr⟩
      · rw [hlog, addedIds, flatMap_append, flatMap_singleton, addedIds]
      · obtain ⟨m, hm, heq⟩ := mem_map.mp hmem
        exact hf.2 txn hi m hm r hr heq.symm
  refine { cat := hcat, extents := ?_, rowIds := h.rowIds, extentNodup := h.extentNodup,
           disjoint := ?_, tables := h.tables, ticks := ?_, stagedAccepted := h.stagedAccepted,
           accepted := fun r hr => (h.accepted r hr).imp_right (hland r) }
  · rw [hids, hlog, h.extents]
  · intro r hr hmem
    rw [hids, mem_append] at hmem
    rcases hmem with hmem | hmem
    · exact h.disjoint r hr hmem
    · exact hnew r hr hmem
  · intro i t hi g hg
    refine ⟨(h.ticks i t hi g hg).1, fun r hr => ((h.ticks i t hi g hg).2 r hr).mono ?_⟩
    intro hplace
    rw [hids]
    exact hplace.imp_right (mem_append_left _)

/-! ### A group commit -/

/-- What a group commit that goes through has done, in the terms of this module. -/
structure GroupSpec (w : Staging J) (tenant : TenantId) (tableId : TableId)
    (rows : List (StagedRow J)) (d : Draws) (db' : Db J) (staged' : List (StagedRow J)) : Prop where
  spec : ∃ parent schemaSnap, CommitSpec w.cat.db (groupTxn tenant tableId parent schemaSnap rows) d db'
  sub : ∀ r ∈ rows, r ∈ w.staged
  staged : ∀ r, r ∈ staged' ↔ r ∈ w.staged ∧ r ∉ rows
  sublist : staged'.Sublist w.staged
  ids : extentIds db' = extentIds w.cat.db ++ rows.map fun r => r.manifest.id

/-- **The primary key of `extents` protects a stale listing**: a group goes through only when all of
its rows are still staged, and then they are what is deleted. -/
theorem StagingInv.groupSpec (h : StagingInv w) {i : ℕ} {t : Tick J} (hi : w.ticks i = some t)
    {rows : List (StagedRow J)} {rest : List (TableId × List (StagedRow J))}
    (hg : t.groups = (tableId, rows) :: rest) {faults : Faults} {deleteFault : Option DbError}
    {parent : SnapshotId} {d : Draws} {db' : Db J} {staged' : List (StagedRow J)}
    (hc : commitGroupTx faults deleteFault w.cat.db w.staged t.tenant tableId rows parent d = .ok (db', staged')) : GroupSpec w t.tenant tableId rows d db' staged' := by
  obtain ⟨⟨schemaSnap, hspec⟩, rfl⟩ := commitGroupTx_ok hc
  have hlisted : ∀ r ∈ rows, Listed w t.tenant tableId r := (h.ticks i t hi (tableId, rows) (hg ▸ .head _)).2
  have hnd := hspec.freshExtents h.cat.extentIds
  have hsub : ∀ r ∈ rows, r ∈ w.staged := by
    intro r hr
    refine (hlisted r hr).place.resolve_right fun hmem => ?_
    have hadded : r.manifest.id ∈
        (groupTxn t.tenant tableId parent schemaSnap rows).added.map ExtentManifest.id :=
      mem_map_of_mem (mem_map_of_mem hr)
    exact (nodup_append'.mp hnd).2.2 hmem hadded
  refine ⟨⟨parent, schemaSnap, hspec⟩, hsub, fun r => ?_, filter_sublist, ?_⟩
  · rw [deleteStaged, mem_filter]
    refine and_congr_right fun hr => ?_
    simp only [decide_eq_true_eq, mem_map, not_and, not_exists]
    constructor
    · exact fun hkeep hmem => hkeep (hlisted r hmem).ofTenant r hmem rfl
    · intro hmem _ r' hr' heq
      exact hmem (inj_on_of_nodup_map h.rowIds (hsub r' hr') hr heq ▸ hr')
  · rw [hspec.extentIds_eq]
    simp [groupTxn]

theorem StagingInv.groupCommitted (h : StagingInv w) {t : Tick J} (hi : w.ticks i = some t)
    (hg : t.groups = (tableId, rows) :: rest) {d : Draws} {db' : Db J} {staged' : List (StagedRow J)}
    (hs : GroupSpec w t.tenant tableId rows d db' staged') :
    StagingInv (w.groupCommitted i t tableId rows d db' staged') := by
  obtain ⟨parent, schemaSnap, hspec⟩ := hs.spec
  have hlisted : ∀ r ∈ rows, Listed w t.tenant tableId r := (h.ticks i t hi (tableId, rows) (hg ▸ .head _)).2
  have hadd : ∀ m ∈ (groupTxn t.tenant tableId parent schemaSnap rows).added, m.tableId = tableId := by
    intro m hm
    obtain ⟨r, hr, rfl⟩ := mem_map.mp hm
    exact (hlisted r hr).manifestTable
  have hplace : ∀ r : StagedRow J, r ∈ w.staged ∨ r.manifest.id ∈ extentIds w.cat.db →
      r ∈ staged' ∨ r.manifest.id ∈ extentIds db' := by
    intro r hr
    rw [hs.ids]
    rcases hr with hr | hr
    · by_cases hmem : r ∈ rows
      · exact .inr (mem_append_right _ (mem_map_of_mem hmem))
      · exact .inl ((hs.staged r).mpr ⟨hr, hmem⟩)
    · exact .inr (mem_append_left _ hr)
  refine { cat := h.cat.committedBeside hspec hadd rfl, extents := ?_, rowIds := h.rowIds.sublist (hs.sublist.map _),
           extentNodup := h.extentNodup.sublist (hs.sublist.map _), disjoint := ?_,
           tables := fun r hr => h.tables r (hs.sublist.subset hr), ticks := ?_,
           stagedAccepted := fun r hr => h.stagedAccepted r (hs.sublist.subset hr),
           accepted := ?_ }
  · show extentIds db' = addedIds (w.cat.log ++ _)
    rw [hs.ids, addedIds, flatMap_append, flatMap_singleton, h.extents, addedIds]
    simp
  · intro r hr hmem
    obtain ⟨hr, hrows⟩ := (hs.staged r).mp hr
    have hmem' : r.manifest.id ∈ extentIds db' := hmem
    rw [hs.ids, mem_append] at hmem'
    rcases hmem' with hmem' | hmem'
    · exact h.disjoint r hr hmem'
    · obtain ⟨r', hr', heq⟩ := mem_map.mp hmem'
      exact hrows (inj_on_of_nodup_map h.extentNodup (hs.sub r' hr') hr heq ▸ hr')
  · intro j t' hj g hg'
    have hold : ∃ t₀, w.ticks j = some t₀ ∧ t'.tenant = t₀.tenant ∧ g ∈ t₀.groups := by
      by_cases hij : j = i
      · rw [hij, Staging.groupCommitted_ticks, update_self] at hj
        cases hj
        exact ⟨t, hij ▸ hi, rfl, mem_of_mem_tail hg'⟩
      · rw [Staging.groupCommitted_ticks, update_of_ne hij] at hj
        exact ⟨t', hj, rfl, hg'⟩
    obtain ⟨t₀, hj₀, htenant, hg₀⟩ := hold
    obtain ⟨hnd, hl⟩ := h.ticks j t₀ hj₀ g hg₀
    rw [htenant]
    exact ⟨hnd, fun r hr => (hl r hr).mono (hplace r)⟩
  · intro r hr
    rcases h.accepted r hr with hr | hr
    · by_cases hmem : r ∈ rows
      · refine .inr (hspec.landed_added ?_ (hlisted r hmem).ofTenant)
        exact mem_map_of_mem hmem
      · exact .inl ((hs.staged r).mpr ⟨hr, hmem⟩)
    · exact .inr (hspec.landed hr)

end Steps

section Runs

variable {w w' : Staging J} {i : ℕ} {t : Tick J}

theorem readParent_cases {fault : Option DbError} (hs : w.readParent i t fault = some w') :
    ∃ t', w' = w.setTick i (some t') ∧ t'.tenant = t.tenant ∧ ∀ g ∈ t'.groups, g ∈ t.groups := by
  unfold Staging.readParent at hs
  split at hs
  · split at hs
    · cases hs
      exact ⟨t.next 0, rfl, rfl, fun g hg => mem_of_mem_tail hg⟩
    · split at hs
      · rename_i parent _
        cases hs
        exact ⟨{ t with parent := some parent }, rfl, rfl, fun g hg => hg⟩
      · rename_i e _
        cases hs
        exact ⟨t.onError e, rfl, t.onError_groups e⟩
  · cases hs

theorem commitGroup_cases {faults : Faults} {deleteFault : Option DbError} {d : Draws}
    (hs : w.commitGroup i t faults deleteFault d = some w') :
    (∃ tableId rows rest parent db' staged', t.groups = (tableId, rows) :: rest ∧
      commitGroupTx faults deleteFault w.cat.db w.staged t.tenant tableId rows parent d =
        .ok (db', staged') ∧ w' = w.groupCommitted i t tableId rows d db' staged') ∨
    ∃ e, w' = w.setTick i (some (t.onError e)) := by
  unfold Staging.commitGroup at hs
  split at hs
  · rename_i tableId rows rest parent hg hp
    split at hs
    · rename_i db' staged' hc
      cases hs
      exact .inl ⟨tableId, rows, rest, parent, db', staged', hg, hc, rfl⟩
    · rename_i e _
      cases hs
      exact .inr ⟨e, rfl⟩
  · cases hs

theorem staging_inv_step {a : StagingAction J} (h : StagingInv w) (hf : FreshExtents w a)
    (hs : stagingStep w a = some w') : StagingInv w' := by
  cases a with
  | catalog a =>
    obtain ⟨cat', hc, rfl⟩ := Option.map_eq_some_iff.mp hs
    exact h.catalog hf hc
  | stage tenant batchId m s =>
    simp only [stagingStep, stageExtent] at hs
    by_cases hrow : ∃ r ∈ w.staged, r.id = s.rowId
    · rw [if_pos hrow] at hs
      cases hs
      exact h
    · rw [if_neg hrow] at hs
      by_cases hb : BatchStaged w.staged tenant batchId
      · rw [if_pos hb] at hs
        cases hs
        exact h
      · rw [if_neg hb] at hs
        cases hs
        obtain ⟨hfresh, hnew⟩ := hf.resolve_left hb
        exact h.stage hrow hfresh hnew
  | list j tenant max order =>
    simp only [stagingStep] at hs
    split at hs
    · cases hs
    · split at hs
      · cases hs
        exact h.list j tenant max order
      · cases hs
  | readParent j fault =>
    obtain ⟨t, hj, hr⟩ := Option.bind_eq_some_iff.mp hs
    obtain ⟨t', rfl, htenant, hsub⟩ := readParent_cases hr
    exact h.setTick_of_subset hj htenant hsub
  | commitGroup j faults deleteFault d =>
    obtain ⟨t, hj, hr⟩ := Option.bind_eq_some_iff.mp hs
    rcases commitGroup_cases hr with ⟨tableId, rows, rest, parent, db', staged', hg, hc, rfl⟩ | ⟨e, rfl⟩
    · exact h.groupCommitted hj hg (h.groupSpec hj hg hc)
    · exact h.onError hj e
  | finish j =>
    obtain ⟨t, hj, hr⟩ := Option.bind_eq_some_iff.mp hs
    split at hr
    · cases hr
      exact h.setTick j (by simp)
    · cases hr
  | crash j =>
    cases hs
    exact h.setTick j (by simp)

theorem staging_inv_reach (h : Runs.Reach stagingStep FreshExtents Staging.init w) : StagingInv w :=
  h.inv staging_inv_init fun _ _ _ hi hf hs => staging_inv_step hi hf hs

/-! ### Each extent is committed once -/

theorem countP_added {log : List (Committed J)} (h : (addedIds log).Nodup) (x : ExtentId) :
    (log.countP fun c => x ∈ c.op.added.map ExtentManifest.id) = if x ∈ addedIds log then 1 else 0 := by
  induction log with
  | nil => rfl
  | cons c log ih =>
    have hcons : addedIds (c :: log) = c.op.added.map ExtentManifest.id ++ addedIds log := rfl
    rw [hcons] at h ⊢
    obtain ⟨-, htail, hdisj⟩ := nodup_append'.mp h
    rw [countP_cons, ih htail]
    by_cases hx : x ∈ c.op.added.map ExtentManifest.id
    · have hnot : x ∉ addedIds log := fun hmem => hdisj hx hmem
      simp only [mem_append, hx, hnot, or_false, if_false, decide_true, if_true]
    · simp only [mem_append, hx, false_or, decide_false, Nat.add_zero, Bool.false_eq_true, if_false]

theorem StagingInv.timesCommitted_eq (h : StagingInv w) (x : ExtentId) :
    timesCommitted w x = if x ∈ extentIds w.cat.db then 1 else 0 := by
  rw [timesCommitted, countP_added (h.extents ▸ h.cat.extentIds), h.extents]

/-- **One place**: an accepted row is staged and its extent was never committed, or it is not staged
and its extent was committed exactly once. -/
theorem StagingInv.one_place (h : StagingInv w) {r : StagedRow J} (hr : r ∈ w.accepted) :
    (r ∈ w.staged ∧ timesCommitted w r.manifest.id = 0) ∨
      (r ∉ w.staged ∧ timesCommitted w r.manifest.id = 1 ∧ Landed w.cat.db r) := by
  by_cases hs : r ∈ w.staged
  · refine .inl ⟨hs, ?_⟩
    rw [h.timesCommitted_eq, if_neg (h.disjoint r hs)]
  · have hl := (h.accepted r hr).resolve_left hs
    refine .inr ⟨hs, ?_, hl⟩
    rw [h.timesCommitted_eq, if_pos hl.mem_extentIds]

/-- The step from `w` to `w'` has moved exactly `rows` from the staging table to a new snapshot, in
which their extents are live. -/
def Moves (w w' : Staging J) (rows : List (StagedRow J)) : Prop :=
  (∀ r ∈ rows, r ∈ w.staged) ∧ (∀ r, r ∈ w'.staged ↔ r ∈ w.staged ∧ r ∉ rows) ∧
    (∃ c, w'.cat.log = w.cat.log ++ [c] ∧ c.op.added = rows.map StagedRow.manifest) ∧
    ∀ r ∈ rows, r.manifest ∈ liveExtents w'.cat.db r.tenantId r.tableId

theorem StagingInv.moves (h : StagingInv w) (hi : w.ticks i = some t) {tableId : TableId}
    (hg : t.groups = (tableId, rows) :: rest) {d : Draws} {db' : Db J}
    {staged' : List (StagedRow J)} (hs : GroupSpec w t.tenant tableId rows d db' staged') :
    Moves w (w.groupCommitted i t tableId rows d db' staged') rows := by
  obtain ⟨parent, schemaSnap, hspec⟩ := hs.spec
  refine ⟨hs.sub, hs.staged, ⟨_, rfl, rfl⟩, fun r hr => ?_⟩
  have hl := (h.ticks i t hi (tableId, rows) (hg ▸ .head _)).2 r hr
  refine (hspec.mem_liveExtents rfl).mpr (.inr ⟨mem_map_of_mem hr, hl.ofTenant.symm, ?_⟩)
  exact hl.manifestTable.trans hl.ofTable.symm

/-- **One transaction**: a step that takes a row out of the staging table is a group commit that
moves its rows; every other step leaves the staged rows where they are. -/
theorem StagingInv.step_moves (h : StagingInv w) {a : StagingAction J}
    (hs : stagingStep w a = some w') : (∀ r ∈ w.staged, r ∈ w'.staged) ∨
      ∃ i faults deleteFault d rows, a = .commitGroup i faults deleteFault d ∧ Moves w w' rows := by
  cases a with
  | catalog a =>
    obtain ⟨cat', hc, rfl⟩ := Option.map_eq_some_iff.mp hs
    exact .inl fun r hr => hr
  | stage tenant batchId m s =>
    simp only [stagingStep, stageExtent] at hs
    refine .inl fun r hr => ?_
    split at hs
    · rename_i staged heq
      cases hs
      split at heq
      · cases heq
      · split at heq
        · cases heq
        · cases heq
          exact mem_append_left _ hr
    · cases hs
      exact hr
    · cases hs
      exact hr
  | list j tenant max order =>
    simp only [stagingStep] at hs
    split at hs
    · cases hs
    · split at hs
      · cases hs
        exact .inl fun r hr => hr
      · cases hs
  | readParent j fault =>
    obtain ⟨t, hj, hr⟩ := Option.bind_eq_some_iff.mp hs
    obtain ⟨t', rfl, -, -⟩ := readParent_cases hr
    exact .inl fun r hr => hr
  | commitGroup j faults deleteFault d =>
    obtain ⟨t, hj, hr⟩ := Option.bind_eq_some_iff.mp hs
    rcases commitGroup_cases hr with ⟨tableId, rows, rest, parent, db', staged', hg, hc, rfl⟩ | ⟨e, rfl⟩
    · exact .inr ⟨j, faults, deleteFault, d, rows, rfl, h.moves hj hg (h.groupSpec hj hg hc)⟩
    · exact .inl fun r hr => hr
  | finish j =>
    obtain ⟨t, hj, hr⟩ := Option.bind_eq_some_iff.mp hs
    split at hr
    · cases hr
      exact .inl fun r hr => hr
    · cases hr
  | crash j =>
    cases hs
    exact .inl fun r hr => hr

end Runs

/-! ### A tick that is not disturbed -/

/-- The steps of tick `i` when nothing fails. -/
def OwnSteps (i : ℕ) (_ : Staging J) : StagingAction J → Prop
  | .list j _ _ _ => j = i
  | .readParent j fault => j = i ∧ fault = none
  | .commitGroup j faults deleteFault _ => j = i ∧ faults = noFaults ∧ deleteFault = none
  | _ => False

theorem freshExtents_of_ownSteps {w : Staging J} {a : StagingAction J}
    (h : OwnSteps i w a) : FreshExtents w a := by
  cases a with
  | catalog a | stage tenant batchId m s => exact h.elim
  | list j tenant max order | readParent j fault | commitGroup j faults deleteFault d | finish j
  | crash j => trivial

def HasTable (db : Db J) (tenant : TenantId) (tableId : TableId) : Prop :=
  ∃ t ∈ db.tables, t.id = tableId ∧ t.tenantId = tenant

variable {tenant : TenantId} {tableId : TableId}

theorem CommitSpec.hasTable {db db' : Db J} {txn : SnapshotTxn J} {d : Draws}
    (h : CommitSpec db txn d db') (ht : HasTable db tenant tableId) : HasTable db' tenant tableId := by
  obtain ⟨t, ht, hid, hten⟩ := ht
  refine ⟨advance txn d.newSnapId t, ?_, by simpa using hid, by simpa using hten⟩
  rw [h.tables]
  exact mem_map_of_mem ht

/-- What an undisturbed tick has reached when the groups with these rows are done. -/
structure Drained (w w' : Staging J) (rows : List (StagedRow J)) : Prop where
  inv : StagingInv w'
  staged : ∀ r, r ∈ w'.staged ↔ r ∈ w.staged ∧ r ∉ rows
  live : ∀ r ∈ rows, r.manifest ∈ liveExtents w'.cat.db r.tenantId r.tableId
  keeps : ∀ tenant tableId m, m ∈ liveExtents w.cat.db tenant tableId → m ∈ liveExtents w'.cat.db tenant tableId
  tables : ∀ tenant tableId, HasTable w.cat.db tenant tableId → HasTable w'.cat.db tenant tableId

theorem Drained.trans {w w₁ w₂ : Staging J} {rows rows' : List (StagedRow J)}
    (h : Drained w w₁ rows) (h' : Drained w₁ w₂ rows') : Drained w w₂ (rows ++ rows') where
  inv := h'.inv
  staged := by
    intro r
    rw [h'.staged, h.staged, mem_append, not_or, and_assoc]
  live := by
    intro r hr
    rcases mem_append.mp hr with hr | hr
    · exact h'.keeps _ _ _ (h.live r hr)
    · exact h'.live r hr
  keeps := fun tenant tableId m hm => h'.keeps _ _ _ (h.keeps tenant tableId m hm)
  tables := fun tenant tableId ht => h'.tables _ _ (h.tables tenant tableId ht)

theorem exists_fresh {α : Type} (l : List α) (f : α → ℕ) : ∃ n, ∀ a ∈ l, f a ≠ n := by
  obtain ⟨n, hn⟩ := Infinite.exists_notMem_finset (l.map f).toFinset
  refine ⟨n, fun a ha heq => hn ?_⟩
  rw [mem_toFinset]
  exact heq ▸ mem_map_of_mem ha

theorem StagingInv.selectCurrent_eq {w : Staging J} (h : StagingInv w)
    (ht : HasTable w.cat.db tenant tableId) : ∃ t ∈ w.cat.db.tables, ∃ parent, t.id = tableId ∧ t.tenantId = tenant ∧
      t.currentSnapshotId = some parent ∧ selectCurrent w.cat.db tenant tableId = .ok parent := by
  obtain ⟨t, ht, hid, hten⟩ := ht
  obtain ⟨parent, hcur, -⟩ := (h.cat.tables t ht).chain
  refine ⟨t, ht, parent, hid, hten, hcur, ?_⟩
  unfold selectCurrent
  split
  · rename_i hnone
    have hnot := find?_eq_none.mp hnone t ht
    simp [hid, hten] at hnot
  · rename_i t' ht'
    obtain ⟨-, hid'⟩ : t'.tenantId = tenant ∧ t'.id = tableId := by simpa using find?_some ht'
    obtain rfl : t' = t := inj_on_of_nodup_map h.cat.tableIds (mem_of_find?_eq_some ht') ht (hid'.trans hid.symm)
    rw [hcur]

theorem drain_group {w : Staging J} (h : StagingInv w) {t : Tick J} (hi : w.ticks i = some t)
    (hg : t.groups = (tableId, rows) :: rest) (hp : t.parent = none) (hne : rows ≠ [])
    (hstaged : ∀ r ∈ rows, r ∈ w.staged) (htable : HasTable w.cat.db t.tenant tableId) :
    ∃ w' t', Runs.Reach stagingStep (OwnSteps i) w w' ∧ Drained w w' rows ∧
      w'.ticks i = some t' ∧ t'.groups = rest ∧ t'.tenant = t.tenant ∧ t'.parent = none := by
  obtain ⟨row, hrow, parent, hid, hten, hcur, hsel⟩ := h.selectCurrent_eq htable
  obtain ⟨newSnapId, hsnap⟩ := exists_fresh w.cat.db.snapshots SnapshotRow.id
  obtain ⟨manifestId, hman⟩ := exists_fresh w.cat.db.manifests ManifestRow.id
  let d : Draws := ⟨newSnapId, manifestId, 0⟩
  -- the first statement
  let t₁ : Tick J := { t with parent := some parent }
  let w₁ : Staging J := w.setTick i (some t₁)
  have hread : stagingStep w (.readParent i none) = some w₁ := by
    simp only [stagingStep, hi, Option.bind_some, Staging.readParent, hg, hp, if_neg hne, checkFault, hsel]
    rw [← hg]
    rfl
  have hown₁ : OwnSteps i w (.readParent i none) := ⟨rfl, rfl⟩
  have hinv₁ : StagingInv w₁ := staging_inv_step h (freshExtents_of_ownSteps hown₁) hread
  have hi₁ : w₁.ticks i = some t₁ := update_self ..
  -- the others
  have hnd : (extentIds w.cat.db ++ rows.map fun r => r.manifest.id).Nodup := by
    refine nodup_append'.mpr ⟨h.cat.extentIds, (h.ticks i t hi (tableId, rows) (hg ▸ .head _)).1, fun x hx hx' => ?_⟩
    obtain ⟨r, hr, rfl⟩ := mem_map.mp hx'
    exact h.disjoint r (hstaged r hr) hx
  obtain ⟨db', hok⟩ : ∃ db', commitGroupTx noFaults none w₁.cat.db w₁.staged t₁.tenant tableId rows
      parent d = .ok (db', deleteStaged w₁.staged t₁.tenant (rows.map StagedRow.id)) :=
    commitGroupTx_succeeds h.cat hrow hid hten hcur hnd hsnap hman
  have hspec := hinv₁.groupSpec hi₁ hg hok
  have hcommit : stagingStep w₁ (.commitGroup i noFaults none d) =
      some (w₁.groupCommitted i t₁ tableId rows d db' (deleteStaged w₁.staged t₁.tenant (rows.map StagedRow.id))) := by
    have hg₁ : t₁.groups = (tableId, rows) :: rest := hg
    have hp₁ : t₁.parent = some parent := rfl
    simp only [stagingStep, hi₁, Option.bind_some, Staging.commitGroup, hg₁, hp₁, hok]
  have hinv₂ := hinv₁.groupCommitted hi₁ hg hspec
  obtain ⟨-, -, -, hlive⟩ := hinv₁.moves hi₁ hg hspec
  obtain ⟨parent', schemaSnap, hdb⟩ := hspec.spec
  have hown₂ : OwnSteps i w₁ (.commitGroup i noFaults none d) := ⟨rfl, rfl, rfl⟩
  refine ⟨_, t₁.next rows.length, .step _ (.step _ .init hown₁ hread) hown₂ hcommit, ⟨hinv₂, hspec.staged, hlive, ?_, ?_⟩, update_self .., ?_, rfl, rfl⟩
  · exact fun tenant tableId m hm => (hdb.mem_liveExtents rfl).mpr (.inl hm)
  · exact fun tenant tableId ht => hdb.hasTable ht
  · show t.groups.tail = rest
    rw [hg]
    rfl

theorem drain_groups {w : Staging J} (h : StagingInv w) {t : Tick J}
    (hi : w.ticks i = some t) (hp : t.parent = none)
    (hkeys : (t.groups.map Prod.fst).Nodup) (hne : ∀ g ∈ t.groups, g.2 ≠ [])
    (hstaged : ∀ g ∈ t.groups, ∀ r ∈ g.2, r ∈ w.staged) (htable : ∀ g ∈ t.groups, HasTable w.cat.db t.tenant g.1) :
    ∃ w', Runs.Reach stagingStep (OwnSteps i) w w' ∧ Drained w w' (t.groups.flatMap Prod.snd) := by
  generalize hgroups : t.groups = groups at *
  induction groups generalizing w t with
  | nil =>
    refine ⟨w, .init, h, ?_, ?_, fun _ _ _ hm => hm, fun _ _ ht => ht⟩
    · intro r
      simp
    · intro r hr
      simp at hr
  | cons g rest ih =>
    obtain ⟨tableId, rows⟩ := g
    obtain ⟨w₁, t₁, hreach, hdrained, hi₁, hg₁, hten₁, hp₁⟩ := drain_group h hi hgroups hp
      (hne _ (.head _)) (hstaged _ (.head _)) (htable _ (.head _))
    rw [map_cons, nodup_cons] at hkeys
    have hstill : ∀ g ∈ rest, ∀ r ∈ g.2, r ∈ w₁.staged := by
      intro g hg r hr
      refine (hdrained.staged r).mpr ⟨hstaged g (.tail _ hg) r hr, fun hmem => hkeys.1 ?_⟩
      -- a row of another group belongs to another table
      have h₁ := ((h.ticks i t hi g (hgroups ▸ .tail _ hg)).2 r hr).ofTable
      have h₂ := ((h.ticks i t hi (tableId, rows) (hgroups ▸ .head _)).2 r hmem).ofTable
      exact mem_map.mpr ⟨g, hg, h₁.symm.trans h₂⟩
    obtain ⟨w₂, hreach', hdrained'⟩ := ih hdrained.inv hi₁ hp₁ hg₁ hkeys.2 (fun g hg => hne g (.tail _ hg)) hstill
      (fun g hg => hten₁ ▸ hdrained.tables _ _ (htable g (.tail _ hg)))
    refine ⟨w₂, hreach.trans hreach', ?_⟩
    rw [flatMap_cons]
    exact hdrained.trans hdrained'

theorem StagingInv.tick_drains {w : Staging J} (h : StagingInv w) (hi : w.ticks i = none) {max : ℕ}
    {order : List TableId} (horder : IsKeyOrder (listStagedExtents w.staged tenant max) order)
    (htable : ∀ r ∈ listStagedExtents w.staged tenant max, HasTable w.cat.db tenant r.tableId) :
    ∃ w', Runs.Reach stagingStep (OwnSteps i) w w' ∧ StagingInv w' ∧ ∀ r ∈ listStagedExtents w.staged tenant max,
        r ∉ w'.staged ∧ r.manifest ∈ liveExtents w'.cat.db r.tenantId r.tableId := by
  obtain ⟨hnodup, hkeys, hall⟩ := horder
  let t : Tick J := ⟨tenant, groupByTable (listStagedExtents w.staged tenant max) order, none, 0, 0⟩
  let w₁ : Staging J := w.setTick i (some t)
  have hlist : stagingStep w (.list i tenant max order) = some w₁ := by
    simp only [stagingStep, hi, if_pos (show IsKeyOrder _ order from ⟨hnodup, hkeys, hall⟩)]
    rfl
  have hown : OwnSteps i w (.list i tenant max order) := rfl
  have hinv₁ : StagingInv w₁ := staging_inv_step h (freshExtents_of_ownSteps hown) hlist
  have hgroup : ∀ g ∈ t.groups, ∃ tableId ∈ order, g = (tableId,
      (listStagedExtents w.staged tenant max).filter fun r => r.tableId = tableId) := by
    intro g hg
    obtain ⟨tableId, hmem, heq⟩ := mem_map.mp hg
    exact ⟨tableId, hmem, heq.symm⟩
  obtain ⟨w', hreach, hdrained⟩ := drain_groups hinv₁ (update_self ..) rfl (t := t)
    (by simpa [t, groupByTable, comp_def] using hnodup)
    (by
      intro g hg
      obtain ⟨tableId, hmem, rfl⟩ := hgroup g hg
      obtain ⟨r, hr, heq⟩ := hkeys tableId hmem
      exact ne_nil_of_mem (mem_filter.mpr ⟨hr, by simpa using heq⟩))
    (by
      intro g hg r hr
      obtain ⟨tableId, -, rfl⟩ := hgroup g hg
      exact (mem_listStagedExtents (mem_filter.mp hr).1).1)
    (by
      intro g hg
      obtain ⟨tableId, hmem, rfl⟩ := hgroup g hg
      obtain ⟨r, hr, rfl⟩ := hkeys tableId hmem
      exact htable r hr)
  refine ⟨w', Runs.Reach.trans (.step _ .init hown hlist) hreach, hdrained.inv, fun r hr => ?_⟩
  have hmem : r ∈ t.groups.flatMap Prod.snd := by
    refine mem_flatMap.mpr ⟨_, mem_map_of_mem (hall r hr), ?_⟩
    exact mem_filter.mpr ⟨hr, by simp⟩
  exact ⟨fun hs => ((hdrained.staged r).mp hs).2 hmem, hdrained.live r hmem⟩

/-! ### The theorem -/

/-- **Staged ingest is exactly-once.**  After any interleaving of routers, committers and other
writers, with any failures:

* a row that was ever accepted is staged and its extent was never committed, or it is not staged and
  its extent was committed exactly once and is in the catalog;
* no extent is staged twice, in the catalog twice, or in both places;
* the only step that takes rows out of the staging table is a group commit, and it takes out exactly
  the rows whose extents are added, and live, in the one snapshot that it commits;
* a tick that is not disturbed commits everything it has listed. -/
theorem staged_ingest_exactly_once {w : Staging J}
    (hw : Runs.Reach stagingStep FreshExtents Staging.init w) :
    (∀ r ∈ w.accepted, (r ∈ w.staged ∧ timesCommitted w r.manifest.id = 0) ∨
      (r ∉ w.staged ∧ timesCommitted w r.manifest.id = 1 ∧ Landed w.cat.db r)) ∧
    ((w.staged.map fun r => r.manifest.id).Nodup ∧ (extentIds w.cat.db).Nodup ∧
      ∀ r ∈ w.staged, r.manifest.id ∉ extentIds w.cat.db) ∧
    (∀ a w', stagingStep w a = some w' → (∀ r ∈ w.staged, r ∈ w'.staged) ∨
      ∃ i faults deleteFault d rows, a = .commitGroup i faults deleteFault d ∧ Moves w w' rows) ∧
    ∀ i tenant max order, w.ticks i = none → IsKeyOrder (listStagedExtents w.staged tenant max) order →
      (∀ r ∈ listStagedExtents w.staged tenant max, HasTable w.cat.db tenant r.tableId) →
      ∃ w', Runs.Reach stagingStep (OwnSteps i) w w' ∧ ∀ r ∈ listStagedExtents w.staged tenant max, r ∉ w'.staged ∧
          r.manifest ∈ liveExtents w'.cat.db r.tenantId r.tableId ∧ timesCommitted w' r.manifest.id = 1 := by
  have h := staging_inv_reach hw
  refine ⟨fun r hr => h.one_place hr, ⟨h.extentNodup, h.cat.extentIds, h.disjoint⟩, fun a w' hs => h.step_moves hs, ?_⟩
  intro i tenant max order hi horder htable
  obtain ⟨w', hreach, hinv, hall⟩ := h.tick_drains hi horder htable
  refine ⟨w', hreach, fun r hr => ⟨(hall r hr).1, (hall r hr).2, ?_⟩⟩
  obtain ⟨e, he, hm⟩ := mem_map.mp (hall r hr).2
  have hmem : r.manifest.id ∈ extentIds w'.cat.db := mem_map.mpr ⟨e, (mem_filter.mp he).1, by rw [hm]⟩
  rw [hinv.timesCommitted_eq, if_pos hmem]

def raceRow : StagedRow Unit := stagedRow 0 7 (smallManifest () 100) ⟨20, 0⟩

def stagedRace : List (StagingAction Unit) :=
  [.catalog (.createTable 0 1 10 5), .stage 0 7 (smallManifest () 100) ⟨20, 0⟩,
   .list 0 0 1024 [1], .list 1 0 1024 [1], .readParent 0 none, .readParent 1 none,
   .commitGroup 0 noFaults none ⟨11, 50, 1⟩, .commitGroup 1 noFaults none ⟨12, 51, 2⟩]

/-- The second of them has met a conflict, and the extent is committed once. -/
theorem staged_ingest_exactly_once_race : ∃ w : Staging Unit,
    Runs.run stagingStep FreshExtents Staging.init stagedRace = some w ∧
      (w.ticks 1).map Tick.attempt = some 1 ∧ w.accepted = [raceRow] ∧ raceRow ∉ w.staged ∧
      timesCommitted w raceRow.manifest.id = 1 := by
  obtain ⟨w, hrun⟩ : ∃ w : Staging Unit,
      Runs.run stagingStep FreshExtents Staging.init stagedRace = some w := ⟨_, rfl⟩
  obtain ⟨hplace, -, -, -⟩ := staged_ingest_exactly_once (Runs.reach_of_run hrun)
  have hdone : w.accepted = [raceRow] ∧ w.staged = [] ∧ (w.ticks 1).map Tick.attempt = some 1 := by
    cases hrun
    exact ⟨rfl, rfl, rfl⟩
  obtain ⟨hacc, hstaged, hattempt⟩ := hdone
  have hnot : raceRow ∉ w.staged := by simp [hstaged]
  refine ⟨w, hrun, hattempt, hacc, hnot, ?_⟩
  have hrow := hplace raceRow (by simp [hacc])
  exact (hrow.resolve_left fun hs => hnot hs.1).2.1

end Catalog
