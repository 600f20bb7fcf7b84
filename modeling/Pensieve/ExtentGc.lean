/-
**Physical deletion of extents.**

A commit marks the rows of the extents that it removes.  The garbage collection lists the rows that
have been marked for longer than the grace period, then the paths of their data, then the paths of
their sidecars; it deletes the objects one after another, and the rows at the end, whether or not
the objects could be deleted.
-/

import Pensieve.Rows
import Pensieve.SnapshotCommit

namespace ExtentGc

open List
open Catalog (Uuid TenantId TableId ExtentId DateTime Db ExtentRow ExtentManifest SnapshotTxn World CommitSpec extentIds
  extentRow markDeleted)

/-! ### Paths -/

inductive SidecarKind where
  | ivfRabitq
  | tantivyFts
  deriving DecidableEq

def SidecarKind.asStr : SidecarKind → String
  | .ivfRabitq => "ivf_rabitq"
  | .tantivyFts => "tantivy_fts"

/-- The paths of data and of sidecars.  Every path tells the extent that it belongs to. -/
structure Paths where
  /-- `format_extent_path`, for a prefix and the segment of a tenant -/
  extent : String → String → ExtentId → String
  /-- `IndexBuildExecutor::object_path` -/
  sidecar : TenantId → ExtentId → String → SidecarKind → String
  named : ∃ owner : String → ExtentId, (∀ pre segment id, owner (extent pre segment id) = id) ∧
    ∀ tenant id column kind, owner (sidecar tenant id column kind) = id

/-! ### Sidecars -/

variable {J : Type}

/-- A row of `extent_indexes`. -/
structure SidecarRow (J : Type) where
  id : Uuid
  tenantId : TenantId
  tableId : TableId
  extentId : ExtentId
  columnName : String
  kind : SidecarKind
  objectPath : String
  byteSize : ℕ
  params : J
  embeddingModelId : Option String
  createdAt : DateTime
  deriving DecidableEq

/-- `ON CONFLICT (extent_id, column_name, kind, COALESCE(embedding_model_id, ''))` -/
def SidecarRow.conflicts (row q : SidecarRow J) : Bool :=
  decide (q.extentId = row.extentId ∧ q.columnName = row.columnName ∧ q.kind = row.kind ∧
    q.embeddingModelId.getD "" = row.embeddingModelId.getD "")

/-- `DO UPDATE SET …` -/
def SidecarRow.replace (row q : SidecarRow J) : SidecarRow J :=
  { q with
    objectPath := row.objectPath
    byteSize := row.byteSize
    params := row.params
    createdAt := row.createdAt }

/-- `register_index_sidecar`; a row refers to an extent that is there. -/
def registerIndexSidecar (db : Db J) (rows : List (SidecarRow J)) (row : SidecarRow J) : Option (List (SidecarRow J)) :=
  if row.extentId ∈ extentIds db then
    some (if rows.any row.conflicts then
      Rows.updateWhere (fun q => row.conflicts q && decide (q.tenantId = row.tenantId)) row.replace rows
    else rows ++ [row])
  else none

/-! ### Steps -/

/-- A build of one sidecar, of an extent that was live when the job listed it. -/
structure Build where
  tenant : TenantId
  tableId : TableId
  extentId : ExtentId
  column : String
  kind : SidecarKind
  uploaded : Bool
  deriving DecidableEq

def Build.path (paths : Paths) (b : Build) : String := paths.sidecar b.tenant b.extentId b.column b.kind

/-- Where a collection stands: it has listed the extents, the paths of their data, the paths of all their objects. -/
inductive Tick where
  | listed (ids : List ExtentId)
  | located (ids : List ExtentId) (paths : List String)
  | deleting (ids : List ExtentId) (todo : List String)
  deriving DecidableEq

def Tick.ids : Tick → List ExtentId
  | .listed ids => ids
  | .located ids _ => ids
  | .deleting ids _ => ids

def Tick.paths : Tick → List String
  | .listed _ => []
  | .located _ paths => paths
  | .deleting _ todo => todo

/-- The clock, the catalog, the object store, the builds and collections under way, and the objects that were ever
registered, with their extents. -/
structure Gc (J : Type) where
  now : DateTime
  catalog : World J
  sidecars : List (SidecarRow J)
  store : List String
  builds : List (ℕ × Build)
  ticks : List (ℕ × Tick)
  ever : List (ExtentId × String)

def Gc.init (now : DateTime) : Gc J := ⟨now, World.init, [], [], [], [], []⟩

def Gc.extents (s : Gc J) : List (ExtentRow J) := s.catalog.db.extents

def Gc.objects (s : Gc J) : List (ExtentId × String) :=
  (s.extents.map fun e => (e.manifest.id, e.manifest.objectPath)) ++ s.sidecars.map fun r => (r.extentId, r.objectPath)

def Gc.record (s : Gc J) : Gc J := { s with ever := s.objects ++ s.ever }

def Gc.putTick (s : Gc J) (i : ℕ) (tick : Tick) : Gc J := { s with ticks := (i, tick) :: s.ticks.filter (·.1 ≠ i) }

def Gc.dropTick (s : Gc J) (i : ℕ) : Gc J := { s with ticks := s.ticks.filter (·.1 ≠ i) }

def Gc.putBuild (s : Gc J) (i : ℕ) (b : Build) : Gc J := { s with builds := (i, b) :: s.builds.filter (·.1 ≠ i) }

def Gc.dropBuild (s : Gc J) (i : ℕ) : Gc J := { s with builds := s.builds.filter (·.1 ≠ i) }

inductive Action (J : Type) where
  | advance (later : DateTime)
  | writeExtent (pre segment : String) (id : ExtentId)
  | catalog (a : Catalog.Action J)
  | startBuild (i : ℕ) (tenant : TenantId) (tableId : TableId) (extentId : ExtentId) (column : String)
      (kind : SidecarKind)
  | putSidecar (i : ℕ)
  | registerSidecar (i : ℕ) (id : Uuid) (byteSize : ℕ) (params : J) (embeddingModelId : Option String)
  | failBuild (i : ℕ)
  | listCandidates (i : ℕ)
  | locate (i : ℕ)
  | listSidecars (i : ℕ)
  | deleteObject (i : ℕ) (fails : Bool)
  | deleteRows (i : ℕ)
  | endTick (i : ℕ)

def gcCandidates (db : Db J) (before : DateTime) : List ExtentId :=
  (db.extents.filter fun e => e.deletedAt.any (· < before)).map fun e => e.manifest.id

/-- `delete_extent_rows`, with the rows that go with them. -/
def Gc.deleteExtentRows (s : Gc J) (ids : List ExtentId) : Gc J :=
  { s with
    catalog := { s.catalog with
      db := { s.catalog.db with extents := s.catalog.db.extents.filter fun e => e.manifest.id ∉ ids } }
    sidecars := s.sidecars.filter fun r => r.extentId ∉ ids }

def Build.row (paths : Paths) (b : Build) (id : Uuid) (byteSize : ℕ) (params : J) (embeddingModelId : Option String)
    (now : DateTime) : SidecarRow J :=
  ⟨id, b.tenant, b.tableId, b.extentId, b.column, b.kind, b.path paths, byteSize, params, embeddingModelId, now⟩

variable (paths : Paths) (backend : Catalog.Backend) (grace : ℤ)

/-- **One step**. -/
def step (s : Gc J) : Action J → Option (Gc J)
  | .advance later => if s.now ≤ later then some { s with now := later } else none
  | .writeExtent pre segment id =>
    -- the id of an extent is new
    if id ∈ s.ever.map Prod.fst then none else some { s with store := paths.extent pre segment id :: s.store }
  | .catalog a => (Catalog.step backend s.catalog a).map fun w => { s with catalog := w }.record
  | .startBuild i tenant tableId extentId column kind =>
    if (s.builds.lookup i).isSome then none
    else if extentId ∈ (Catalog.liveExtents s.catalog.db tenant tableId).map ExtentManifest.id ∧
        ¬ ∃ r ∈ s.sidecars, r.tenantId = tenant ∧ r.tableId = tableId ∧ r.extentId = extentId ∧ r.kind = kind ∧
          r.columnName = column then
      some (s.putBuild i ⟨tenant, tableId, extentId, column, kind, false⟩)
    else none
  | .putSidecar i =>
    match s.builds.lookup i with
    | some b =>
      if b.uploaded then none
      else some ({ s with store := b.path paths :: s.store }.putBuild i { b with uploaded := true })
    | none => none
  | .registerSidecar i id byteSize params embeddingModelId =>
    match s.builds.lookup i with
    | some b =>
      if b.uploaded then
        match registerIndexSidecar s.catalog.db s.sidecars (b.row paths id byteSize params embeddingModelId s.now) with
        | some rows => some ({ s with sidecars := rows }.record.dropBuild i)
        | none => some (s.dropBuild i)
      else none
    | none => none
  | .failBuild i => some (s.dropBuild i)
  | .listCandidates i =>
    if (s.ticks.lookup i).isSome then none
    else some (s.putTick i (.listed (gcCandidates s.catalog.db (s.now - grace))))
  | .locate i =>
    match s.ticks.lookup i with
    | some (.listed ids) =>
      some (s.putTick i (.located ids
        ((s.extents.filter fun e => e.manifest.id ∈ ids).map fun e => e.manifest.objectPath)))
    | _ => none
  | .listSidecars i =>
    match s.ticks.lookup i with
    | some (.located ids paths) =>
      some (s.putTick i (.deleting ids
        (paths ++ (s.sidecars.filter fun r => r.extentId ∈ ids).map SidecarRow.objectPath)))
    | _ => none
  | .deleteObject i fails =>
    match s.ticks.lookup i with
    | some (.deleting ids (path :: todo)) =>
      -- a delete that fails is logged, and the next object is deleted
      some ({ s with store := if fails then s.store else s.store.filter (· ≠ path) }.putTick i (.deleting ids todo))
    | _ => none
  | .deleteRows i =>
    match s.ticks.lookup i with
    | some (.deleting ids []) => some ((s.deleteExtentRows ids).dropTick i)
    | _ => none
  | .endTick i => some (s.dropTick i)

/-! ### What a collection is to keep to -/

def Kept (now : DateTime) (e : ExtentRow J) : Prop := ∀ d, e.deletedAt = some d → now ≤ d + grace

/-- **No orphan, and no dangling extent**: an extent whose row is gone has no object that was ever registered for it, and
the data of an extent that is live or within the grace period is there. -/
structure Clean (s : Gc J) : Prop where
  gone : ∀ o ∈ s.ever, o.1 ∉ extentIds s.catalog.db → o.2 ∉ s.store
  data : ∀ e ∈ s.extents, Kept grace s.now e → e.manifest.objectPath ∈ s.store

def Timely (s : Gc J) (b : Build) : Prop :=
  ∀ t ∈ s.ticks, ∀ ids todo, t.2 = .deleting ids todo → b.extentId ∈ ids → b.path paths ∈ todo

/-- **The condition on the steps**: a delete fails only for an object that is not there; a sidecar is put and registered
while no collection has listed the sidecars of its extent, and is not put again for an extent whose row is gone.  And what
a commit adds has been written, under an id that was not used before. -/
def Heeds (s : Gc J) : Action J → Prop
  | .deleteObject i fails => fails = true → ∀ ids path todo, s.ticks.lookup i = some (.deleting ids (path :: todo)) →
      path ∉ s.store
  | .putSidecar i => ∀ b, s.builds.lookup i = some b → Timely paths s b ∧
      ((b.extentId, b.path paths) ∈ s.ever → b.extentId ∈ extentIds s.catalog.db)
  | .registerSidecar i _ _ _ _ => ∀ b, s.builds.lookup i = some b → Timely paths s b
  | .catalog (.commit i _ _) => ∀ txn, s.catalog.writers i = some txn → ∀ m ∈ txn.added,
      m.id ∉ s.ever.map Prod.fst ∧ (∃ pre segment, m.objectPath = paths.extent pre segment m.id) ∧ m.objectPath ∈ s.store
  | _ => True

/-! ### What a step of the catalog does -/

/-- Rows are added and marked, and none goes; a row that has been marked stays as it is. -/
structure Grown (old new : List (ExtentRow J)) (fresh : List (ExtentManifest J)) : Prop where
  back : ∀ e' ∈ new, (∃ e ∈ old, e'.manifest = e.manifest ∧ ∀ d, e.deletedAt = some d → e'.deletedAt = some d) ∨
    e'.manifest ∈ fresh
  forth : ∀ e ∈ old, ∃ e' ∈ new, e'.manifest = e.manifest
  nodup : (old.map fun e => e.manifest.id).Nodup → (new.map fun e => e.manifest.id).Nodup

theorem grown_refl (rows : List (ExtentRow J)) : Grown rows rows [] :=
  ⟨fun e he => .inl ⟨e, he, rfl, fun _ h => h⟩, fun e he => ⟨e, he, rfl⟩, fun h => h⟩

theorem grown_of_commitSpec {db db' : Db J} {txn : SnapshotTxn J} {d : Catalog.Draws} (h : CommitSpec db txn d db') :
    Grown db.extents db'.extents txn.added := by
  rw [h.extents]
  refine ⟨fun e' he' => ?_, fun e he => ?_, fun hnodup => ?_⟩
  · obtain ⟨e, he, rfl⟩ := mem_map.1 he'
    rcases mem_append.1 he with he | he
    · refine .inl ⟨e, he, Catalog.markDeleted_manifest _ _ _ e, fun d' hd => ?_⟩
      unfold markDeleted
      split
      · rename_i hmark
        rw [hmark.2.1] at hd
        cases hd
      · exact hd
    · obtain ⟨m, hm, rfl⟩ := mem_map.1 he
      rw [Catalog.markDeleted_manifest]
      exact .inr hm
  · exact ⟨_, mem_map_of_mem (mem_append_left _ he), Catalog.markDeleted_manifest _ _ _ e⟩
  · have hids := h.freshExtents hnodup
    rw [map_map]
    have hsame : (fun e => e.manifest.id) ∘ markDeleted txn.tenant txn.removed d.now =
        fun e : ExtentRow J => e.manifest.id := by
      funext e
      exact congrArg ExtentManifest.id (Catalog.markDeleted_manifest _ _ _ e)
    rw [hsame, map_append, map_map]
    exact hids

theorem grown_of_step {w w' : World J} {a : Catalog.Action J} (h : Catalog.step backend w a = some w') :
    ∃ fresh, Grown w.db.extents w'.db.extents fresh ∧ ∀ m ∈ fresh, ∃ i faults d txn, a = .commit i faults d ∧
      w.writers i = some txn ∧ m ∈ txn.added := by
  have hsame : w'.db.extents = w.db.extents → ∃ fresh, Grown w.db.extents w'.db.extents fresh ∧
      ∀ m ∈ fresh, ∃ i faults d txn, a = .commit i faults d ∧ w.writers i = some txn ∧ m ∈ txn.added :=
    fun heq => ⟨[], heq ▸ grown_refl _, fun m hm => by cases hm⟩
  cases a with
  | createTable tenant tableId snapId schemaSnapId =>
    obtain ⟨db, hdb, rfl⟩ := Option.map_eq_some_iff.1 h
    unfold Catalog.createTable at hdb
    split at hdb
    · cases hdb
    · cases hdb
      exact hsame rfl
  | beginSnapshot i tenant tableId =>
    simp only [Catalog.step] at h
    split at h
    · cases h
      exact hsame rfl
    · cases h
  | addExtent i m | removeExtents i extents =>
    obtain ⟨txn, -, rfl⟩ := Option.map_eq_some_iff.1 h
    exact hsame rfl
  | commit i faults d =>
    obtain ⟨txn, htxn, rfl⟩ := Option.map_eq_some_iff.1 h
    unfold World.commit
    split
    · rename_i snapshot db' hcommit
      obtain ⟨-, hspec⟩ := Catalog.commit_eq_ok hcommit
      exact ⟨txn.added, grown_of_commitSpec hspec, fun m hm => ⟨i, faults, d, txn, rfl, htxn, hm⟩⟩
    · rename_i e db' hcommit
      obtain rfl := Catalog.commit_eq_error hcommit
      exact ⟨[], grown_refl _, fun m hm => by cases hm⟩
  | rollback i =>
    cases h
    exact hsame rfl

/-! ### The invariant -/

section Inv

variable {paths backend grace} {owner : String → ExtentId} {s s' : Gc J} {i : ℕ}

/-- What is true of a collection under way: its extents were registered and their rows are past the grace period; its
paths are theirs; the paths that it has of their data are all; and what it is still to delete are all of their objects
that are there. -/
structure TickInv (grace : ℤ) (owner : String → ExtentId) (s : Gc J) (t : Tick) : Prop where
  known : ∀ id ∈ t.ids, id ∈ s.ever.map Prod.fst
  doomed : ∀ e ∈ s.extents, e.manifest.id ∈ t.ids → ¬ Kept grace s.now e
  owned : ∀ path ∈ t.paths, owner path ∈ t.ids
  located : ∀ ids paths, t = .located ids paths → ∀ e ∈ s.extents, e.manifest.id ∈ ids → e.manifest.objectPath ∈ paths
  todo : ∀ ids todo, t = .deleting ids todo → ∀ o ∈ s.ever, o.1 ∈ ids → o.2 ∈ s.store → o.2 ∈ todo

structure Inv (paths : Paths) (grace : ℤ) (owner : String → ExtentId) (s : Gc J) : Prop where
  ids : (extentIds s.catalog.db).Nodup
  owned : ∀ o ∈ s.ever, owner o.2 = o.1
  recorded : ∀ o ∈ s.objects, o ∈ s.ever
  found : ∀ o ∈ s.ever, o.1 ∈ extentIds s.catalog.db → o ∈ s.objects
  sidecar : ∀ r ∈ s.sidecars, r.objectPath = paths.sidecar r.tenantId r.extentId r.columnName r.kind
  gone : ∀ o ∈ s.ever, o.1 ∉ extentIds s.catalog.db → o.2 ∉ s.store
  data : ∀ e ∈ s.extents, Kept grace s.now e → e.manifest.objectPath ∈ s.store
  ticks : ∀ t ∈ s.ticks, TickInv grace owner s t.2

theorem Inv.init (now : DateTime) : Inv paths grace owner (Gc.init now : Gc J) := by
  constructor <;> simp [Gc.init, Gc.objects, Gc.extents, World.init, extentIds]

theorem Inv.clean (h : Inv paths grace owner s) : Clean grace s := ⟨h.gone, h.data⟩

theorem mem_extentIds {e : ExtentRow J} (he : e ∈ s.extents) : e.manifest.id ∈ extentIds s.catalog.db :=
  mem_map_of_mem he

theorem object_of_extent {e : ExtentRow J} (he : e ∈ s.extents) : (e.manifest.id, e.manifest.objectPath) ∈ s.objects :=
  mem_append_left _ (mem_map_of_mem he)

theorem object_of_sidecar {r : SidecarRow J} (hr : r ∈ s.sidecars) : (r.extentId, r.objectPath) ∈ s.objects :=
  mem_append_right _ (mem_map_of_mem hr)

theorem mem_of_lookup {V : Type} {entries : List (ℕ × V)} {v : V} (h : entries.lookup i = some v) : (i, v) ∈ entries := by
  obtain ⟨before, after, heq, -⟩ := lookup_eq_some_iff.1 h
  rw [heq]
  exact mem_append_right _ mem_cons_self

/-! #### The clock, builds and collections -/

theorem Kept.of_le {now later : DateTime} {e : ExtentRow J} (h : Kept grace later e) (hle : now ≤ later) :
    Kept grace now e := fun d hd => hle.trans (h d hd)

theorem Inv.advance (h : Inv paths grace owner s) {later : DateTime} (hlater : s.now ≤ later) :
    Inv paths grace owner { s with now := later } :=
  { h with
    data := fun e he hkept => h.data e he (hkept.of_le hlater)
    ticks := fun t ht =>
      { h.ticks t ht with doomed := fun e he hid hkept => (h.ticks t ht).doomed e he hid (hkept.of_le hlater) } }

theorem Inv.putBuild (h : Inv paths grace owner s) (i : ℕ) (b : Build) : Inv paths grace owner (s.putBuild i b) :=
  { h with ticks := fun t ht => { h.ticks t ht with } }

theorem Inv.dropBuild (h : Inv paths grace owner s) (i : ℕ) : Inv paths grace owner (s.dropBuild i) :=
  { h with ticks := fun t ht => { h.ticks t ht with } }

theorem Inv.putTick (h : Inv paths grace owner s) (i : ℕ) {tick : Tick} (htick : TickInv grace owner s tick) :
    Inv paths grace owner (s.putTick i tick) :=
  { h with
    ticks := fun t ht => by
      rcases mem_cons.1 ht with rfl | ht
      · exact { htick with }
      · exact { h.ticks t (mem_of_mem_filter ht) with } }

theorem Inv.dropTick (h : Inv paths grace owner s) (i : ℕ) : Inv paths grace owner (s.dropTick i) :=
  { h with ticks := fun t ht => { h.ticks t (mem_of_mem_filter ht) with } }

/-- **A put** adds no orphan if its object is of an extent with a row, and on the lists that have its extent. -/
theorem Inv.put (h : Inv paths grace owner s) {path : String}
    (hrow : ∀ o ∈ s.ever, o.2 = path → o.1 ∈ extentIds s.catalog.db)
    (htodo : ∀ t ∈ s.ticks, ∀ ids todo, t.2 = .deleting ids todo → ∀ o ∈ s.ever, o.2 = path → o.1 ∈ ids → path ∈ todo) :
    Inv paths grace owner { s with store := path :: s.store } :=
  { h with
    gone := fun o ho hno hmem => by
      rcases mem_cons.1 hmem with heq | hmem
      · exact hno (hrow o ho heq)
      · exact h.gone o ho hno hmem
    data := fun e he hkept => mem_cons_of_mem _ (h.data e he hkept)
    ticks := fun t ht =>
      { h.ticks t ht with
        todo := fun ids todo heq o ho hid hmem => by
          rcases mem_cons.1 hmem with hpath | hmem
          · exact hpath ▸ htodo t ht ids todo heq o ho hpath hid
          · exact (h.ticks t ht).todo ids todo heq o ho hid hmem } }

theorem Inv.write (h : Inv paths grace owner s) {path : String} (hnew : owner path ∉ s.ever.map Prod.fst) :
    Inv paths grace owner { s with store := path :: s.store } := by
  have hno : ∀ o ∈ s.ever, o.2 ≠ path := fun o ho heq =>
    hnew (heq ▸ (h.owned o ho).symm ▸ mem_map_of_mem ho)
  exact h.put (fun o ho heq => absurd heq (hno o ho)) fun t ht ids todo _ o ho heq => absurd heq (hno o ho)

/-! #### The rows of the catalog -/

theorem Inv.catalog (h : Inv paths grace owner s) {w : World J} {fresh : List (ExtentManifest J)}
    (hgrown : Grown s.extents w.db.extents fresh)
    (hfresh : ∀ m ∈ fresh, m.id ∉ s.ever.map Prod.fst ∧ owner m.objectPath = m.id ∧ m.objectPath ∈ s.store) :
    Inv paths grace owner { s with catalog := w }.record := by
  -- an object of the new rows is an object of the old ones, or of an extent that is added
  have hobjects : ∀ o ∈ ({ s with catalog := w } : Gc J).objects, o ∈ s.objects ∨ ∃ m ∈ fresh, o = (m.id, m.objectPath) := by
    intro o ho
    rcases mem_append.1 ho with ho | ho
    · obtain ⟨e', he', rfl⟩ := mem_map.1 ho
      rcases hgrown.back e' he' with ⟨e, he, hm, -⟩ | hm
      · exact .inl (hm ▸ object_of_extent he)
      · exact .inr ⟨_, hm, rfl⟩
    · exact .inl (mem_append_right _ ho)
  have hids : ∀ id ∈ extentIds s.catalog.db, id ∈ extentIds w.db := by
    intro id hid
    obtain ⟨e, he, rfl⟩ := mem_map.1 hid
    obtain ⟨e', he', hm⟩ := hgrown.forth e he
    exact hm ▸ mem_map_of_mem he'
  have hever : ∀ o ∈ ({ s with catalog := w } : Gc J).record.ever,
      o ∈ s.ever ∨ ∃ m ∈ fresh, o = (m.id, m.objectPath) := by
    intro o ho
    rcases mem_append.1 ho with ho | ho
    · exact (hobjects o ho).imp_left (h.recorded o)
    · exact .inl ho
  refine
    { ids := hgrown.nodup h.ids
      owned := fun o ho => ?_
      recorded := fun o ho => mem_append_left _ ho
      found := fun o ho hid => ?_
      sidecar := h.sidecar
      gone := fun o ho hno => ?_
      data := fun e' he' hkept => ?_
      ticks := fun t ht => ?_ }
  · rcases hever o ho with ho | ⟨m, hm, rfl⟩
    · exact h.owned o ho
    · exact (hfresh m hm).2.1
  · rcases mem_append.1 ho with ho | ho
    · exact ho
    · have hold : o.1 ∈ extentIds s.catalog.db := by
        obtain ⟨e', he', heq⟩ := mem_map.1 hid
        rcases hgrown.back e' he' with ⟨e, he, hm, -⟩ | hm
        · exact heq ▸ hm ▸ mem_extentIds he
        · exact absurd (heq ▸ mem_map_of_mem ho) (hfresh _ hm).1
      rcases mem_append.1 (h.found o ho hold) with ho | ho
      · obtain ⟨e, he, rfl⟩ := mem_map.1 ho
        obtain ⟨e', he', hm⟩ := hgrown.forth e he
        exact mem_append_left _ (mem_map.2 ⟨e', he', by rw [hm]⟩)
      · exact mem_append_right _ ho
  · rcases mem_append.1 ho with ho | ho
    · rcases mem_append.1 ho with ho' | ho'
      · obtain ⟨e', he', rfl⟩ := mem_map.1 ho'
        exact absurd (mem_map_of_mem he') hno
      · exact h.gone o (h.recorded o (mem_append_right _ ho')) fun hid => hno (hids _ hid)
    · exact h.gone o ho fun hid => hno (hids _ hid)
  · rcases hgrown.back e' he' with ⟨e, he, hm, hdeleted⟩ | hm
    · exact hm ▸ h.data e he fun d hd => hkept d (hdeleted d hd)
    · exact (hfresh _ hm).2.2
  · obtain ⟨hknown, hdoomed, howned, hlocated, htodo⟩ := h.ticks t ht
    have hnew : ∀ m ∈ fresh, m.id ∉ t.2.ids := fun m hm hid => (hfresh m hm).1 (hknown _ hid)
    refine ⟨fun id hid => ?_, fun e' he' hid hkept => ?_, howned, fun ids ps heq e' he' hid => ?_,
      fun ids todo heq o ho hid hmem => ?_⟩
    · obtain ⟨o, ho, rfl⟩ := mem_map.1 (hknown id hid)
      exact mem_map_of_mem (mem_append_right _ ho)
    · rcases hgrown.back e' he' with ⟨e, he, hm, hdeleted⟩ | hm
      · exact hdoomed e he (hm ▸ hid) fun d hd => hkept d (hdeleted d hd)
      · exact hnew _ hm hid
    · rcases hgrown.back e' he' with ⟨e, he, hm, -⟩ | hm
      · exact hm ▸ hlocated ids ps heq e he (hm ▸ hid)
      · exact absurd (heq ▸ hid) (hnew _ hm)
    · rcases hever o ho with ho | ⟨m, hm, rfl⟩
      · exact htodo ids todo heq o ho hid hmem
      · exact absurd (heq ▸ hid) (hnew m hm)

theorem registerIndexSidecar_rows {db : Db J} {rows rows' : List (SidecarRow J)} {row : SidecarRow J}
    (h : registerIndexSidecar db rows row = some rows')
    (hrows : ∀ r ∈ rows, r.objectPath = paths.sidecar r.tenantId r.extentId r.columnName r.kind)
    (hrow : row.objectPath = paths.sidecar row.tenantId row.extentId row.columnName row.kind) :
    row.extentId ∈ extentIds db ∧
      (∀ r ∈ rows', r.objectPath = paths.sidecar r.tenantId r.extentId r.columnName r.kind) ∧
      (∀ r ∈ rows', r = row ∨ ∃ q ∈ rows, r.extentId = q.extentId ∧ r.objectPath = q.objectPath) ∧
      ∀ q ∈ rows, ∃ r ∈ rows', r.extentId = q.extentId ∧ r.objectPath = q.objectPath := by
  unfold registerIndexSidecar at h
  split at h
  · rename_i hthere
    cases h
    refine ⟨hthere, ?_⟩
    split
    · -- the row that is replaced has the same path already
      have hsame : ∀ q ∈ rows, (row.conflicts q && decide (q.tenantId = row.tenantId)) = true →
          row.objectPath = q.objectPath := by
        intro q hq hhit
        rw [Bool.and_eq_true, SidecarRow.conflicts, decide_eq_true_eq, decide_eq_true_eq] at hhit
        obtain ⟨⟨hextent, hcolumn, hkind, -⟩, htenant⟩ := hhit
        rw [hrow, hrows q hq, hextent, hcolumn, hkind, htenant]
      refine ⟨fun r hr => ?_, fun r hr => ?_, fun q hq => ?_⟩
      · obtain ⟨q, hq, ⟨hhit, rfl⟩ | ⟨-, rfl⟩⟩ := Rows.mem_updateWhere.1 hr
        · exact (hsame q hq hhit).trans (hrows q hq)
        · exact hrows r hq
      · obtain ⟨q, hq, ⟨hhit, rfl⟩ | ⟨-, rfl⟩⟩ := Rows.mem_updateWhere.1 hr
        · exact .inr ⟨q, hq, rfl, hsame q hq hhit⟩
        · exact .inr ⟨r, hq, rfl, rfl⟩
      · cases hhit : (row.conflicts q && decide (q.tenantId = row.tenantId)) with
        | true => exact ⟨row.replace q, Rows.mem_updateWhere.2 ⟨q, hq, .inl ⟨hhit, rfl⟩⟩, rfl, hsame q hq hhit⟩
        | false => exact ⟨q, Rows.mem_updateWhere.2 ⟨q, hq, .inr ⟨hhit, rfl⟩⟩, rfl, rfl⟩
    · refine ⟨fun r hr => ?_, fun r hr => ?_, fun q hq => ⟨q, mem_append_left _ hq, rfl, rfl⟩⟩
      · rcases mem_append.1 hr with hr | hr
        · exact hrows r hr
        · exact mem_singleton.1 hr ▸ hrow
      · rcases mem_append.1 hr with hr | hr
        · exact .inr ⟨r, hr, rfl, rfl⟩
        · exact .inl (mem_singleton.1 hr)
  · cases h

theorem Inv.register (h : Inv paths grace owner s) {row : SidecarRow J} {rows : List (SidecarRow J)}
    (hreg : registerIndexSidecar s.catalog.db s.sidecars row = some rows)
    (hrow : row.objectPath = paths.sidecar row.tenantId row.extentId row.columnName row.kind)
    (howner : owner row.objectPath = row.extentId)
    (htimely : ∀ t ∈ s.ticks, ∀ ids todo, t.2 = .deleting ids todo → row.extentId ∈ ids → row.objectPath ∈ todo) :
    Inv paths grace owner { s with sidecars := rows }.record := by
  obtain ⟨hthere, hpaths, hback, hforth⟩ := registerIndexSidecar_rows hreg h.sidecar hrow
  have hobjects : ∀ o ∈ ({ s with sidecars := rows } : Gc J).objects,
      o ∈ s.objects ∨ o = (row.extentId, row.objectPath) := by
    intro o ho
    rcases mem_append.1 ho with ho | ho
    · exact .inl (mem_append_left _ ho)
    · obtain ⟨r, hr, rfl⟩ := mem_map.1 ho
      rcases hback r hr with rfl | ⟨q, hq, hid, hpath⟩
      · exact .inr rfl
      · exact .inl (hid ▸ hpath ▸ object_of_sidecar hq)
  have hever : ∀ o ∈ ({ s with sidecars := rows } : Gc J).record.ever,
      o ∈ s.ever ∨ o = (row.extentId, row.objectPath) := by
    intro o ho
    rcases mem_append.1 ho with ho | ho
    · exact (hobjects o ho).imp_left (h.recorded o)
    · exact .inl ho
  refine
    { ids := h.ids
      owned := fun o ho => ?_
      recorded := fun o ho => mem_append_left _ ho
      found := fun o ho hid => ?_
      sidecar := hpaths
      gone := fun o ho hno => ?_
      data := h.data
      ticks := fun t ht => ?_ }
  · rcases hever o ho with ho | rfl
    · exact h.owned o ho
    · exact howner
  · rcases mem_append.1 ho with ho | ho
    · exact ho
    · rcases mem_append.1 (h.found o ho hid) with ho | ho
      · exact mem_append_left _ ho
      · obtain ⟨q, hq, rfl⟩ := mem_map.1 ho
        obtain ⟨r, hr, hid', hpath⟩ := hforth q hq
        exact mem_append_right _ (mem_map.2 ⟨r, hr, by rw [hid', hpath]⟩)
  · rcases hever o ho with ho | rfl
    · exact h.gone o ho hno
    · exact absurd hthere hno
  · obtain ⟨hknown, hdoomed, howned, hlocated, htodo⟩ := h.ticks t ht
    refine ⟨fun id hid => ?_, hdoomed, howned, hlocated, fun ids todo heq o ho hid hmem => ?_⟩
    · obtain ⟨o, ho, rfl⟩ := mem_map.1 (hknown id hid)
      exact mem_map_of_mem (mem_append_right _ ho)
    · rcases hever o ho with ho | rfl
      · exact htodo ids todo heq o ho hid hmem
      · exact htimely t ht ids todo heq hid

/-! #### The stages of a collection -/

theorem Inv.listed (h : Inv paths grace owner s) :
    TickInv grace owner s (.listed (gcCandidates s.catalog.db (s.now - grace))) where
  known id hid := by
    obtain ⟨e, he, rfl⟩ := mem_map.1 hid
    exact mem_map_of_mem (h.recorded _ (object_of_extent (mem_of_mem_filter he)))
  doomed e he hid hkept := by
    obtain ⟨q, hq, heq⟩ := mem_map.1 hid
    obtain ⟨hq, hdeleted⟩ := mem_filter.1 hq
    obtain rfl := Rows.eq_of_key_eq h.ids hq he heq
    obtain ⟨d, hd, hlt⟩ := (Option.any_eq_true _ _).1 hdeleted
    have hle : s.now ≤ d + grace := hkept d hd
    have hlt : d < s.now - grace := of_decide_eq_true hlt
    exact absurd (hle.trans_lt (lt_sub_iff_add_lt.1 hlt)) (lt_irrefl _)
  owned path hpath := by cases hpath
  located ids ps heq := by cases heq
  todo ids todo heq := by cases heq

variable {ids : List ExtentId}

theorem Inv.located (h : Inv paths grace owner s) (ht : TickInv grace owner s (.listed ids)) :
    TickInv grace owner s (.located ids
      ((s.extents.filter fun e => e.manifest.id ∈ ids).map fun e => e.manifest.objectPath)) where
  known := ht.known
  doomed := ht.doomed
  owned path hpath := by
    obtain ⟨e, he, rfl⟩ := mem_map.1 hpath
    obtain ⟨he, hid⟩ := mem_filter.1 he
    have howned := h.owned _ (h.recorded _ (object_of_extent he))
    exact howned.symm ▸ of_decide_eq_true hid
  located ids' ps heq e he hid := by
    cases heq
    exact mem_map.2 ⟨e, mem_filter.2 ⟨he, decide_eq_true hid⟩, rfl⟩
  todo ids todo heq := by cases heq

theorem Inv.deleting (h : Inv paths grace owner s) {ps : List String}
    (ht : TickInv grace owner s (.located ids ps)) :
    TickInv grace owner s (.deleting ids
      (ps ++ (s.sidecars.filter fun r => r.extentId ∈ ids).map SidecarRow.objectPath)) where
  known := ht.known
  doomed := ht.doomed
  owned path hpath := by
    rcases mem_append.1 hpath with hpath | hpath
    · exact ht.owned path hpath
    · obtain ⟨r, hr, rfl⟩ := mem_map.1 hpath
      obtain ⟨hr, hid⟩ := mem_filter.1 hr
      have howned := h.owned _ (h.recorded _ (object_of_sidecar hr))
      exact howned.symm ▸ of_decide_eq_true hid
  located ids' ps' heq := by cases heq
  todo ids' todo heq o ho hid hmem := by
    cases heq
    have hrow : o.1 ∈ extentIds s.catalog.db := by
      by_contra hno
      exact h.gone o ho hno hmem
    rcases mem_append.1 (h.found o ho hrow) with ho | ho
    · obtain ⟨e, he, rfl⟩ := mem_map.1 ho
      exact mem_append_left _ (ht.located ids ps rfl e he hid)
    · obtain ⟨r, hr, rfl⟩ := mem_map.1 ho
      exact mem_append_right _ (mem_map.2 ⟨r, mem_filter.2 ⟨hr, decide_eq_true hid⟩, rfl⟩)

theorem Inv.deleteObject (h : Inv paths grace owner s) {path : String} {todo : List String}
    {fails : Bool} (ht : TickInv grace owner s (.deleting ids (path :: todo)))
    (hfails : fails = true → path ∉ s.store) (i : ℕ) :
    Inv paths grace owner ({ s with store := if fails then s.store else s.store.filter (· ≠ path) }.putTick i
      (.deleting ids todo)) := by
  have hsub : ∀ q ∈ (if fails then s.store else s.store.filter (· ≠ path)), q ∈ s.store ∧ q ≠ path := by
    intro q hq
    split at hq
    · rename_i hfailed
      exact ⟨hq, fun heq => hfails hfailed (heq ▸ hq)⟩
    · obtain ⟨hq, hne⟩ := mem_filter.1 hq
      exact ⟨hq, of_decide_eq_true hne⟩
  have hinv : Inv paths grace owner { s with store := if fails then s.store else s.store.filter (· ≠ path) } :=
    { h with
      gone := fun o ho hno hmem => h.gone o ho hno (hsub _ hmem).1
      data := fun e he hkept => by
        have hmem := h.data e he hkept
        have hne : e.manifest.objectPath ≠ path := by
          intro heq
          have hid : owner path = e.manifest.id := heq ▸ h.owned _ (h.recorded _ (object_of_extent he))
          exact ht.doomed e he (hid ▸ ht.owned path mem_cons_self) hkept
        split
        · exact hmem
        · exact mem_filter.2 ⟨hmem, decide_eq_true hne⟩
      ticks := fun t ht' =>
        { h.ticks t ht' with
          todo := fun ids todo heq o ho hid hmem => (h.ticks t ht').todo ids todo heq o ho hid (hsub _ hmem).1 } }
  refine hinv.putTick i
    { known := ht.known
      doomed := ht.doomed
      owned := fun q hq => ht.owned q (mem_cons_of_mem _ hq)
      located := fun ids ps heq => by cases heq
      todo := fun ids' todo' heq o ho hid hmem => ?_ }
  cases heq
  obtain ⟨hmem, hne⟩ := hsub _ hmem
  exact (mem_cons.1 (ht.todo ids _ rfl o ho hid hmem)).resolve_left hne

theorem Inv.deleteRows (h : Inv paths grace owner s) (ht : TickInv grace owner s (.deleting ids [])) :
    Inv paths grace owner (s.deleteExtentRows ids) := by
  have hsub : ∀ e ∈ (s.deleteExtentRows ids).extents, e ∈ s.extents := fun e he => mem_of_mem_filter he
  have hids : ∀ id, id ∈ extentIds (s.deleteExtentRows ids).catalog.db ↔ id ∈ extentIds s.catalog.db ∧ id ∉ ids := by
    intro id
    constructor
    · intro hid
      obtain ⟨e, he, rfl⟩ := mem_map.1 hid
      obtain ⟨he, hne⟩ := mem_filter.1 he
      exact ⟨mem_map_of_mem he, of_decide_eq_true hne⟩
    · rintro ⟨hid, hne⟩
      obtain ⟨e, he, rfl⟩ := mem_map.1 hid
      exact mem_map.2 ⟨e, mem_filter.2 ⟨he, decide_eq_true hne⟩, rfl⟩
  refine
    { ids := h.ids.sublist (filter_sublist.map _)
      owned := h.owned
      recorded := fun o ho => h.recorded o ?_
      found := fun o ho hid => ?_
      sidecar := fun r hr => h.sidecar r (mem_of_mem_filter hr)
      gone := fun o ho hno hmem => ?_
      data := fun e he => h.data e (hsub e he)
      ticks := fun t ht' =>
        { h.ticks t ht' with
          doomed := fun e he => (h.ticks t ht').doomed e (hsub e he)
          located := fun ids ps heq e he => (h.ticks t ht').located ids ps heq e (hsub e he) } }
  · rcases mem_append.1 ho with ho | ho
    · obtain ⟨e, he, rfl⟩ := mem_map.1 ho
      exact object_of_extent (hsub e he)
    · obtain ⟨r, hr, rfl⟩ := mem_map.1 ho
      exact object_of_sidecar (mem_of_mem_filter hr)
  · obtain ⟨hid, hne⟩ := (hids _).1 hid
    rcases mem_append.1 (h.found o ho hid) with ho | ho
    · obtain ⟨e, he, rfl⟩ := mem_map.1 ho
      exact mem_append_left _ (mem_map.2 ⟨e, mem_filter.2 ⟨he, decide_eq_true hne⟩, rfl⟩)
    · obtain ⟨r, hr, rfl⟩ := mem_map.1 ho
      exact mem_append_right _ (mem_map.2 ⟨r, mem_filter.2 ⟨hr, decide_eq_true hne⟩, rfl⟩)
  · by_cases hid : o.1 ∈ extentIds s.catalog.db
    · have hdoomed : o.1 ∈ ids := by
        by_contra hne
        exact hno ((hids _).2 ⟨hid, hne⟩)
      exact absurd (ht.todo ids [] rfl o ho hdoomed hmem) not_mem_nil
    · exact h.gone o ho hid hmem

/-! #### Steps -/

theorem Inv.step {a : Action J} (h : Inv paths grace owner s)
    (hextent : ∀ pre segment id, owner (paths.extent pre segment id) = id)
    (hsidecar : ∀ tenant id column kind, owner (paths.sidecar tenant id column kind) = id)
    (hheeds : Heeds paths s a) (hstep : step paths backend grace s a = some s') : Inv paths grace owner s' := by
  cases a with
  | advance later =>
    simp only [ExtentGc.step] at hstep
    split at hstep
    · rename_i hlater
      cases hstep
      exact h.advance hlater
    · cases hstep
  | writeExtent pre segment id =>
    simp only [ExtentGc.step] at hstep
    split at hstep
    · cases hstep
    · rename_i hnew
      cases hstep
      exact h.write ((hextent pre segment id).symm ▸ hnew)
  | catalog a =>
    obtain ⟨w, hw, rfl⟩ := Option.map_eq_some_iff.1 hstep
    obtain ⟨fresh, hgrown, hcommit⟩ := grown_of_step backend hw
    refine h.catalog hgrown fun m hm => ?_
    obtain ⟨i, faults, d, txn, rfl, htxn, hadded⟩ := hcommit m hm
    obtain ⟨hnew, ⟨pre, segment, hpath⟩, hthere⟩ := hheeds txn htxn m hadded
    exact ⟨hnew, hpath.symm ▸ hextent pre segment m.id, hthere⟩
  | startBuild i tenant tableId extentId column kind =>
    simp only [ExtentGc.step] at hstep
    split at hstep
    · cases hstep
    · split at hstep
      · cases hstep
        exact h.putBuild i _
      · cases hstep
  | putSidecar i =>
    simp only [ExtentGc.step] at hstep
    split at hstep
    · rename_i b hb
      split at hstep
      · cases hstep
      · cases hstep
        obtain ⟨htimely, hrow⟩ := hheeds b hb
        have howner : owner (b.path paths) = b.extentId := hsidecar _ _ _ _
        -- an object at the path of the sidecar is one of its extent
        have heq : ∀ o ∈ s.ever, o.2 = b.path paths → o = (b.extentId, b.path paths) := by
          intro o ho hpath
          have hid := h.owned o ho
          rw [hpath, howner] at hid
          exact Prod.ext hid.symm hpath
        refine (h.put (fun o ho hpath => ?_) fun t ht ids todo htick o ho hpath hid => ?_).putBuild i _
        · obtain rfl := heq o ho hpath
          exact hrow ho
        · obtain rfl := heq o ho hpath
          exact htimely t ht ids todo htick hid
    · cases hstep
  | registerSidecar i id byteSize params embeddingModelId =>
    simp only [ExtentGc.step] at hstep
    split at hstep
    · rename_i b hb
      split at hstep
      · split at hstep
        · rename_i rows hrows
          cases hstep
          exact (h.register hrows rfl (hsidecar _ _ _ _) (hheeds b hb)).dropBuild i
        · cases hstep
          exact h.dropBuild i
      · cases hstep
    · cases hstep
  | failBuild i =>
    cases hstep
    exact h.dropBuild i
  | listCandidates i =>
    simp only [ExtentGc.step] at hstep
    split at hstep
    · cases hstep
    · cases hstep
      exact h.putTick i h.listed
  | locate i =>
    simp only [ExtentGc.step] at hstep
    split at hstep
    · rename_i ids htick
      cases hstep
      exact h.putTick i (h.located (h.ticks _ (mem_of_lookup htick)))
    · cases hstep
  | listSidecars i =>
    simp only [ExtentGc.step] at hstep
    split at hstep
    · rename_i ids ps htick
      cases hstep
      exact h.putTick i (h.deleting (h.ticks _ (mem_of_lookup htick)))
    · cases hstep
  | deleteObject i fails =>
    simp only [ExtentGc.step] at hstep
    split at hstep
    · rename_i ids path todo htick
      cases hstep
      exact h.deleteObject (h.ticks _ (mem_of_lookup htick)) (fun hfails => hheeds hfails ids path todo htick) i
    · cases hstep
  | deleteRows i =>
    simp only [ExtentGc.step] at hstep
    split at hstep
    · rename_i ids htick
      cases hstep
      exact (h.deleteRows (h.ticks _ (mem_of_lookup htick))).dropTick i
    · cases hstep
  | endTick i =>
    cases hstep
    exact h.dropTick i

end Inv

/-- **No orphan and no dangling extent** in any run whose steps heed the condition. -/
theorem clean_of_heeds (now : DateTime) {s : Gc J}
    (h : Runs.Reach (step paths backend grace) (Heeds paths) (Gc.init now) s) : Clean grace s := by
  obtain ⟨owner, hextent, hsidecar⟩ := paths.named
  have hinv : Inv paths grace owner s :=
    h.inv (.init now) fun _ _ _ hinv hheeds hstep => hinv.step hextent hsidecar hheeds hstep
  exact hinv.clean

section Formats

variable (uuidText : Uuid → String)

def formatExtentPath (pre segment : String) (id : ExtentId) : String :=
  let core := if segment = "" then "extents/" ++ uuidText id ++ ".pnsv"
    else segment ++ "/extents/" ++ uuidText id ++ ".pnsv"
  if pre = "" then core else pre ++ "/" ++ core

def objectPath (tenant : TenantId) (id : ExtentId) (column : String) (kind : SidecarKind) : String :=
  uuidText tenant ++ "/indexes/" ++ uuidText id ++ "/" ++ column ++ "." ++ kind.asStr

variable {uuidText}

theorem formatExtentPath_toList (pre segment : String) (id : ExtentId) : ∃ front,
    (formatExtentPath uuidText pre segment id).toList = front ++ '/' :: (uuidText id).toList ++ ".pnsv".toList := by
  have hcore : ∃ front, (if segment = "" then "extents/" ++ uuidText id ++ ".pnsv"
      else segment ++ "/extents/" ++ uuidText id ++ ".pnsv").toList =
      front ++ '/' :: (uuidText id).toList ++ ".pnsv".toList := by
    split
    · exact ⟨"extents".toList, by simp⟩
    · exact ⟨segment.toList ++ "/extents".toList, by simp⟩
  obtain ⟨front, hfront⟩ := hcore
  unfold formatExtentPath
  dsimp only
  split
  · exact ⟨front, hfront⟩
  · refine ⟨(pre ++ "/").toList ++ front, ?_⟩
    rw [String.toList_append, hfront]
    simp

theorem takeWhile_slash {xs ys : List Char} (h : '/' ∉ xs) : (xs ++ '/' :: ys).takeWhile (· ≠ '/') = xs := by
  rw [takeWhile_append_of_pos]
  · simp
  · intro c hc
    exact decide_eq_true fun heq => h (heq ▸ hc)

def idText (path : String) : List Char :=
  if ".pnsv".toList <:+ path.toList then ((path.toList.reverse.drop 5).takeWhile (· ≠ '/')).reverse
  else (((path.toList.dropWhile (· ≠ '/')).drop 9).takeWhile (· ≠ '/'))

theorem idText_formatExtentPath (hslash : ∀ id, '/' ∉ (uuidText id).toList) (pre segment : String) (id : ExtentId) :
    idText (formatExtentPath uuidText pre segment id) = (uuidText id).toList := by
  obtain ⟨front, hpath⟩ := formatExtentPath_toList pre segment id
  unfold idText
  rw [hpath, if_pos (suffix_append _ _)]
  have hdrop : (front ++ '/' :: (uuidText id).toList ++ ".pnsv".toList).reverse.drop 5 =
      (uuidText id).toList.reverse ++ '/' :: front.reverse := by simp
  rw [hdrop, takeWhile_slash (by simpa using hslash id), reverse_reverse]

theorem idText_objectPath (hslash : ∀ id, '/' ∉ (uuidText id).toList) (tenant : TenantId) (id : ExtentId)
    (column : String) (kind : SidecarKind) :
    idText (objectPath uuidText tenant id column kind) = (uuidText id).toList := by
  have hpath : (objectPath uuidText tenant id column kind).toList = (uuidText tenant).toList ++ '/' ::
      ("indexes/".toList ++ ((uuidText id).toList ++ '/' :: (column ++ "." ++ kind.asStr).toList)) := by
    simp [objectPath]
  -- a sidecar does not end as data does
  have hno : ¬ ".pnsv".toList <:+ (objectPath uuidText tenant id column kind).toList := by
    intro hsuffix
    have hlast : (objectPath uuidText tenant id column kind).toList.getLast? = some 'v' := by
      obtain ⟨front, hfront⟩ := hsuffix
      rw [← hfront]
      simp
    have hkind : kind.asStr.toList.getLast? = some 'q' ∨ kind.asStr.toList.getLast? = some 's' := by
      cases kind with
      | ivfRabitq => exact .inl (by decide)
      | tantivyFts => exact .inr (by decide)
    rw [objectPath, String.toList_append, getLast?_append] at hlast
    rcases hkind with hkind | hkind
    · rw [hkind] at hlast
      cases hlast
    · rw [hkind] at hlast
      cases hlast
  have hdrop : ((objectPath uuidText tenant id column kind).toList.dropWhile (· ≠ '/')).drop 9 =
      (uuidText id).toList ++ '/' :: (column ++ "." ++ kind.asStr).toList := by
    rw [hpath, dropWhile_append_of_pos]
    · simp
    · intro c hc
      exact decide_eq_true fun heq => hslash tenant (heq ▸ hc)
  unfold idText
  rw [if_neg hno, hdrop, takeWhile_slash (hslash id)]

/-- **The paths as they are formatted**, for a text of ids without slashes. -/
def formats (uuidText : Uuid → String) (hslash : ∀ id, '/' ∉ (uuidText id).toList)
    (hinj : Function.Injective uuidText) : Paths where
  extent := formatExtentPath uuidText
  sidecar := objectPath uuidText
  named := by
    have hinj' : Function.Injective fun id => (uuidText id).toList := fun a b h => hinj (String.toList_injective h)
    refine ⟨fun path => Function.invFun (fun id => (uuidText id).toList) (idText path), fun pre segment id => ?_,
      fun tenant id column kind => ?_⟩
    · have htext := idText_formatExtentPath hslash pre segment id
      exact (congrArg _ htext).trans (Function.leftInverse_invFun hinj' id)
    · have htext := idText_objectPath hslash tenant id column kind
      exact (congrArg _ htext).trans (Function.leftInverse_invFun hinj' id)

end Formats

/-! ### Runs -/

def strokes (id : Uuid) : String := String.ofList (List.replicate id 'i')

theorem strokes_slash (id : Uuid) : '/' ∉ (strokes id).toList := by
  rw [strokes, String.toList_ofList]
  intro h
  exact absurd (eq_of_mem_replicate h) (by decide)

theorem strokes_injective : Function.Injective strokes := by
  intro a b h
  have hlength := congrArg (fun t => t.toList.length) h
  simpa [strokes] using hlength

def strokePaths : Paths := formats strokes strokes_slash strokes_injective

def firstExtent : ExtentManifest Unit :=
  { Catalog.smallManifest () 1 with objectPath := strokePaths.extent "" "" 1 }

def ingest : List (Action Unit) :=
  [.writeExtent "" "" 1, .catalog (.createTable 0 1 10 5), .catalog (.beginSnapshot 0 0 1),
    .catalog (.addExtent 0 firstExtent), .catalog (.commit 0 Catalog.noFaults ⟨11, 50, 7⟩)]

def retire : List (Action Unit) :=
  [.catalog (.beginSnapshot 0 0 1), .catalog (.removeExtents 0 [1]), .catalog (.commit 0 Catalog.noFaults ⟨12, 51, 8⟩),
    .advance 20]

def collect : List (Action Unit) := [.listCandidates 0, .locate 0, .listSidecars 0]

def runOf (actions : List (Action Unit)) : Option (Gc Unit) :=
  Runs.run (step strokePaths .postgres 10) Runs.Free (.init 0) actions

/-- An extent with a sidecar is committed, removed and collected. -/
theorem clean_of_heeds_collected : ∃ s : Gc Unit, s.store = [] ∧ (1, firstExtent.objectPath) ∈ s.ever ∧ Clean 10 s := by
  have h₀ : Runs.Reach (step strokePaths .postgres 10) (Heeds strokePaths) (Gc.init 0 : Gc Unit) (Gc.init 0) := .init
  have h₁ := h₀.step (Action.writeExtent "" "" 1) trivial rfl
  have h₂ := h₁.step (Action.catalog (.createTable 0 1 10 5)) trivial rfl
  have h₃ := h₂.step (Action.catalog (.beginSnapshot 0 0 1)) trivial rfl
  have h₄ := h₃.step (Action.catalog (.addExtent 0 firstExtent)) trivial rfl
  have h₅ := h₄.step (Action.catalog (.commit 0 Catalog.noFaults ⟨11, 50, 7⟩))
    (fun txn htxn m hm => by
      cases htxn
      obtain rfl := mem_singleton.1 hm
      exact ⟨by decide, ⟨"", "", rfl⟩, mem_cons_self⟩) rfl
  have h₆ := h₅.step (Action.startBuild 0 0 1 1 "v" .ivfRabitq) trivial rfl
  have h₇ := h₆.step (Action.putSidecar 0) (fun b hb => ⟨fun t ht => (by cases ht), fun _ => (by cases hb; decide)⟩) rfl
  have h₈ := h₇.step (Action.registerSidecar 0 70 0 () none) (fun b hb t ht => by cases ht) rfl
  have h₉ := h₈.step (Action.catalog (.beginSnapshot 0 0 1)) trivial rfl
  have h₁₀ := h₉.step (Action.catalog (.removeExtents 0 [1])) trivial rfl
  have h₁₁ := h₁₀.step (Action.catalog (.commit 0 Catalog.noFaults ⟨12, 51, 8⟩))
    (fun txn htxn m hm => by
      cases htxn
      cases hm) rfl
  have h₁₂ := h₁₁.step (Action.advance 20) trivial rfl
  have h₁₃ := h₁₂.step (Action.listCandidates 0) trivial rfl
  have h₁₄ := h₁₃.step (Action.locate 0) trivial rfl
  have h₁₅ := h₁₄.step (Action.listSidecars 0) trivial rfl
  have h₁₆ := h₁₅.step (Action.deleteObject 0 false) (fun h => by cases h) rfl
  have h₁₇ := h₁₆.step (Action.deleteObject 0 false) (fun h => by cases h) rfl
  have h₁₈ := h₁₇.step (Action.deleteRows 0) trivial rfl
  exact ⟨_, by decide, by decide, clean_of_heeds strokePaths .postgres 10 0 h₁₈⟩

/-- **Two orphans**: a delete of an object fails, and the row goes all the same; and a build that has seen the extent live
registers its sidecar after the collection has listed them. -/
theorem orphaned :
    (∃ s : Gc Unit, runOf (ingest ++ retire ++ collect ++ [.deleteObject 0 true, .deleteRows 0]) = some s ∧
      ¬ Clean 10 s) ∧ ∃ s : Gc Unit, runOf (ingest ++ [.startBuild 0 0 1 1 "v" .ivfRabitq] ++ retire ++ collect ++
      [.putSidecar 0, .registerSidecar 0 70 0 () none, .deleteObject 0 false, .deleteRows 0]) = some s ∧ ¬ Clean 10 s := by
  refine ⟨⟨_, rfl, fun h => ?_⟩, ⟨_, rfl, fun h => ?_⟩⟩
  · exact absurd (mem_cons_self) (h.gone (1, firstExtent.objectPath) (by decide) (by decide))
  · exact absurd (by decide) (h.gone (1, strokePaths.sidecar 0 1 "v" .ivfRabitq) (by decide) (by decide))

end ExtentGc
