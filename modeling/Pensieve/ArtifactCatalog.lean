/-
**Artifacts.**

An artifact is a file of its own in the object store, and the table `artifacts` has a row for each of them.  Registering
an artifact again updates its row, except for the instant of its creation, and takes back its deletion; restamping
computes the instant of expiry from the instant of creation and the retention settings of the tenant.
-/

import Pensieve.CatalogTypes
import Pensieve.Rows

namespace Artifacts

open List
open Catalog (TenantId Uuid)

abbrev Text := List Char

/-! ### Instants -/

/-- A `timestamptz`, in microseconds since 2000. -/
abbrev Instant := ℤ

def microsPerDay : ℤ := 86400000000

def minTimestamp : Instant := -211813488000000000

def endTimestamp : Instant := 9223371331200000000

/-- `t + make_interval(days => days)`: an instant that a `timestamptz` cannot be is an error. -/
def addDays (t : Instant) (days : ℤ) : Option Instant :=
  if minTimestamp ≤ t + days * microsPerDay ∧ t + days * microsPerDay < endTimestamp then some (t + days * microsPerDay)
  else none

/-- The instant that is `n` days later. -/
def due (t : Instant) (n : UInt32) : Instant := t + n.toNat * microsPerDay

/-- `days as i32` -/
def asI32 (days : UInt32) : ℤ := days.toInt32.toInt

theorem asI32_of_lt {n : UInt32} (h : n.toNat < 2 ^ 31) : asI32 n = n.toNat :=
  BitVec.toInt_eq_toNat_of_lt (by
    change 2 * n.toNat < 2 ^ 32
    omega)

theorem addDays_eq_some {t e : Instant} {days : ℤ} (h : addDays t days = some e) : e = t + days * microsPerDay := by
  unfold addDays at h
  split at h
  · exact (Option.some.inj h).symm
  · cases h

theorem addDays_asI32 {t e : Instant} {n : UInt32} (h : addDays t (asI32 n) = some e) (hn : n.toNat < 2 ^ 31) :
    e = due t n := by
  rw [addDays_eq_some h, asI32_of_lt hn]
  rfl

/-! ### Settings -/

/-- `RetentionSettings`; an artifact or a table without a number of days is kept. -/
structure RetentionSettings where
  globalDefaultDays : Option UInt32
  perSourceDays : List (Text × UInt32)
  perTableDays : List (Text × UInt32)
  perArtifactClassDays : List (Text × UInt32)
  deriving DecidableEq

instance : Inhabited RetentionSettings := ⟨⟨none, [], [], []⟩⟩

def RetentionSettings.artifactDays (s : RetentionSettings) (source artifactClass : Text) : Option UInt32 :=
  ((s.perArtifactClassDays.lookup artifactClass).or (s.perSourceDays.lookup source)).or s.globalDefaultDays

/-- `put_retention_settings` refuses settings in which something is kept for no day. -/
def RetentionSettings.hasZero (s : RetentionSettings) : Bool :=
  s.globalDefaultDays == some 0 || s.perSourceDays.any (·.2 == 0) || s.perTableDays.any (·.2 == 0) ||
    s.perArtifactClassDays.any (·.2 == 0)

/-! ### The table -/

/-- What an artifact is registered from: the fields of `ArtifactRecord` that a registration reads. -/
structure ArtifactRecord where
  tenantId : TenantId
  objectPath : Text
  source : Text
  artifactClass : Text
  tableRef : Option Text
  dataSourceId : Option Uuid
  sizeBytes : ℤ
  sha256 : Option Text
  expiresAt : Option Instant
  deriving DecidableEq

/-- A row of `artifacts`. -/
structure ArtifactRow where
  id : Uuid
  tenantId : TenantId
  objectPath : Text
  source : Text
  artifactClass : Text
  tableRef : Option Text
  dataSourceId : Option Uuid
  sizeBytes : ℤ
  sha256 : Option Text
  createdAt : Instant
  expiresAt : Option Instant
  deletedAt : Option Instant
  deriving DecidableEq

/-- `ON CONFLICT (tenant_id, object_path)` -/
def ArtifactRecord.conflicts (rec : ArtifactRecord) (row : ArtifactRow) : Bool :=
  decide (row.tenantId = rec.tenantId ∧ row.objectPath = rec.objectPath)

/-- `DO UPDATE SET …`: the row keeps its id and the instant of its creation. -/
def ArtifactRecord.update (rec : ArtifactRecord) (row : ArtifactRow) : ArtifactRow :=
  { row with
    source := rec.source
    artifactClass := rec.artifactClass
    tableRef := rec.tableRef
    dataSourceId := rec.dataSourceId
    sizeBytes := rec.sizeBytes
    sha256 := rec.sha256
    expiresAt := rec.expiresAt
    deletedAt := none }

def ArtifactRecord.row (rec : ArtifactRecord) (id : Uuid) (now : Instant) : ArtifactRow :=
  ⟨id, rec.tenantId, rec.objectPath, rec.source, rec.artifactClass, rec.tableRef, rec.dataSourceId, rec.sizeBytes,
    rec.sha256, now, rec.expiresAt, none⟩

/-- `register_artifact`: the table and the id of the row, for an id that the database makes up. -/
def registerArtifact (rows : List ArtifactRow) (rec : ArtifactRecord) (fresh : Uuid) (now : Instant) :
    List ArtifactRow × Uuid :=
  match rows.find? rec.conflicts with
  | some row => (Rows.updateWhere rec.conflicts rec.update rows, row.id)
  | none => (rows ++ [rec.row fresh now], fresh)

/-- `soft_delete_expired_artifacts`: the table, and the rows that were swept. -/
def softDeleteExpiredArtifacts (rows : List ArtifactRow) (now : Instant) : List ArtifactRow × List (Uuid × Text) :=
  let expired (row : ArtifactRow) : Bool := row.deletedAt.isNone && row.expiresAt.any (· < now)
  (Rows.updateWhere expired (fun row => { row with deletedAt := some now }) rows,
    (rows.filter expired).map fun row => (row.id, row.objectPath))

def artifactGcCandidates (rows : List ArtifactRow) (before : Instant) : List (Uuid × Text) :=
  (rows.filter fun row => row.deletedAt.any (· < before)).map fun row => (row.id, row.objectPath)

def deleteArtifactRows (rows : List ArtifactRow) (ids : List Uuid) : List ArtifactRow :=
  rows.filter fun row => row.id ∉ ids

/-! #### Restamping -/

/-- The rows that an update of `restamp_artifact_expiry` is about. -/
def stamped (tenant : TenantId) (source artifactClass : Text) (row : ArtifactRow) : Bool :=
  decide (row.tenantId = tenant) && row.deletedAt.isNone && decide (row.source = source) &&
    decide (row.artifactClass = artifactClass)

def stampRow (days : Option UInt32) (row : ArtifactRow) : Option ArtifactRow :=
  match days with
  | some days => (addDays row.createdAt (asI32 days)).map fun expiresAt => { row with expiresAt := some expiresAt }
  | none => some { row with expiresAt := none }

/-- **One update**, for the rows of one source and class. -/
def stampCombo (rows : List ArtifactRow) (tenant : TenantId) (s : RetentionSettings) (source artifactClass : Text) :
    Option (List ArtifactRow) :=
  rows.mapM fun row =>
    if stamped tenant source artifactClass row then stampRow (s.artifactDays source artifactClass) row else some row

/-- `SELECT DISTINCT source, artifact_class …` -/
def liveCombos (rows : List ArtifactRow) (tenant : TenantId) : List (Text × Text) :=
  ((rows.filter fun row => decide (row.tenantId = tenant) && row.deletedAt.isNone).map fun row =>
    (row.source, row.artifactClass)).dedup

/-- `restamp_artifact_expiry`, for the combinations that it gets to: an update that fails ends it. -/
def restampArtifactExpiry (tenant : TenantId) (s : RetentionSettings) :
    List (Text × Text) → List ArtifactRow → List ArtifactRow
  | [], rows => rows
  | (source, artifactClass) :: combos, rows =>
    match stampCombo rows tenant s source artifactClass with
    | some rows' => restampArtifactExpiry tenant s combos rows'
    | none => rows

/-! ### Rows after a statement -/

variable {rows : List ArtifactRow} {rec : ArtifactRecord} {fresh : Uuid} {now : Instant}

variable {r : ArtifactRow}

theorem mem_registerArtifact (h : r ∈ (registerArtifact rows rec fresh now).1) :
    (r ∈ rows ∧ rec.conflicts r = false) ∨ (∃ q ∈ rows, rec.conflicts q = true ∧ r = rec.update q) ∨
      ((∀ q ∈ rows, rec.conflicts q = false) ∧ r = rec.row fresh now) := by
  unfold registerArtifact at h
  split at h
  · obtain ⟨q, hq, ⟨hp, rfl⟩ | ⟨hp, rfl⟩⟩ := Rows.mem_updateWhere.1 h
    · exact .inr (.inl ⟨q, hq, hp, rfl⟩)
    · exact .inl ⟨hq, hp⟩
  · rename_i hnone
    have hno : ∀ q ∈ rows, rec.conflicts q = false := fun q hq => by
      simpa using find?_eq_none.1 hnone q hq
    rcases mem_append.1 h with hr | hr
    · exact .inl ⟨hr, hno r hr⟩
    · exact .inr (.inr ⟨hno, mem_singleton.1 hr⟩)

variable {q : ArtifactRow}

theorem registerArtifact_id (hnodup : ∀ r ∈ rows, ∀ q ∈ rows, rec.conflicts r = true → rec.conflicts q = true → r = q)
    (hq : q ∈ rows) (hc : rec.conflicts q = true) : (registerArtifact rows rec fresh now).2 = q.id := by
  unfold registerArtifact
  split
  · rename_i row hfind
    rw [hnodup row (mem_of_find?_eq_some hfind) q hq (find?_some hfind) hc]
  · rename_i hnone
    exact absurd hc (find?_eq_none.1 hnone q hq)

theorem registerArtifact_id_of_not (hno : ∀ q ∈ rows, rec.conflicts q = false) :
    (registerArtifact rows rec fresh now).2 = fresh := by
  unfold registerArtifact
  split
  · rename_i row hfind
    have hc := find?_some hfind
    rw [hno row (mem_of_find?_eq_some hfind)] at hc
    cases hc
  · rfl

theorem registerArtifact_ids (h : (rows.map ArtifactRow.id).Nodup) (hfresh : ∀ r ∈ rows, r.id ≠ fresh) :
    ((registerArtifact rows rec fresh now).1.map ArtifactRow.id).Nodup := by
  unfold registerArtifact
  split
  · have hsame : (Rows.updateWhere rec.conflicts rec.update rows).map ArtifactRow.id = rows.map ArtifactRow.id :=
      Rows.map_key_updateWhere fun _ => rfl
    exact hsame ▸ h
  · rw [map_append, nodup_append]
    refine ⟨h, nodup_singleton _, ?_⟩
    intro a ha b hb heq
    obtain ⟨r, hr, rfl⟩ := mem_map.1 ha
    exact hfresh r hr (heq.trans (mem_singleton.1 hb))

def Restamped (tenant : TenantId) (s : RetentionSettings) (q r : ArtifactRow) : Prop :=
  r = q ∨ (q.tenantId = tenant ∧ q.deletedAt = none ∧ stampRow (s.artifactDays q.source q.artifactClass) q = some r)

theorem stampRow_eq {days : Option UInt32} (h : stampRow days q = some r) :
    ∃ expiresAt, r = { q with expiresAt := expiresAt } ∧ ∀ e, expiresAt = some e →
      ∃ n, days = some n ∧ addDays q.createdAt (asI32 n) = some e := by
  unfold stampRow at h
  split at h
  · rename_i n
    obtain ⟨e, he, rfl⟩ := Option.map_eq_some_iff.1 h
    exact ⟨some e, rfl, fun e' he' => ⟨n, rfl, he' ▸ he⟩⟩
  · cases h
    exact ⟨none, rfl, fun e he => by cases he⟩

theorem stampRow_idem {days : Option UInt32} (h : stampRow days q = some r) : stampRow days r = some r := by
  unfold stampRow at h ⊢
  split at h
  · obtain ⟨e, he, rfl⟩ := Option.map_eq_some_iff.1 h
    dsimp only
    rw [he, Option.map_some]
  · cases h
    rfl

theorem rows_of_mapM {f : ArtifactRow → Option ArtifactRow} (hid : ∀ q r, f q = some r → r.id = q.id)
    {rows' : List ArtifactRow} (h : rows.mapM f = some rows') :
    rows'.map ArtifactRow.id = rows.map ArtifactRow.id ∧ ∀ r ∈ rows', ∃ q ∈ rows, f q = some r := by
  induction rows generalizing rows' with
  | nil =>
    rw [mapM_nil] at h
    cases h
    exact ⟨rfl, fun r hr => by cases hr⟩
  | cons q rows ih =>
    rw [mapM_cons] at h
    obtain ⟨r, hr, hrest⟩ := Option.bind_eq_some_iff.1 h
    obtain ⟨rs, hrs, heq⟩ := Option.bind_eq_some_iff.1 hrest
    cases heq
    obtain ⟨hids, hmem⟩ := ih hrs
    refine ⟨by rw [map_cons, map_cons, hids, hid q r hr], fun r' hr' => ?_⟩
    rcases mem_cons.1 hr' with rfl | hr'
    · exact ⟨q, mem_cons_self, hr⟩
    · obtain ⟨q', hq', hf⟩ := hmem r' hr'
      exact ⟨q', mem_cons_of_mem _ hq', hf⟩

variable {tenant : TenantId} {s : RetentionSettings}

theorem Restamped.trans {t : ArtifactRow} (hqr : Restamped tenant s q r)
    (hrt : Restamped tenant s r t) : Restamped tenant s q t := by
  rcases hqr with rfl | ⟨htenant, hlive, hstamp⟩
  · exact hrt
  · obtain ⟨expiresAt, rfl, -⟩ := stampRow_eq hstamp
    rcases hrt with rfl | ⟨-, -, hstamp'⟩
    · exact .inr ⟨htenant, hlive, hstamp⟩
    · have hsame := stampRow_idem hstamp
      exact .inr ⟨htenant, hlive, hstamp.trans (hsame.symm.trans hstamp')⟩

theorem stampCombo_rows {source artifactClass : Text} {rows' : List ArtifactRow}
    (h : stampCombo rows tenant s source artifactClass = some rows') :
    rows'.map ArtifactRow.id = rows.map ArtifactRow.id ∧ ∀ r ∈ rows', ∃ q ∈ rows, Restamped tenant s q r := by
  have hone : ∀ q r, (if stamped tenant source artifactClass q then stampRow (s.artifactDays source artifactClass) q
      else some q) = some r → Restamped tenant s q r := by
    intro q r h
    split at h
    · rename_i hp
      simp only [stamped, Bool.and_eq_true, decide_eq_true_eq, Option.isNone_iff_eq_none] at hp
      obtain ⟨⟨⟨htenant, hlive⟩, hsource⟩, hclass⟩ := hp
      exact .inr ⟨htenant, hlive, hsource ▸ hclass ▸ h⟩
    · exact .inl (Option.some.inj h).symm
  have hid : ∀ q r, (if stamped tenant source artifactClass q then stampRow (s.artifactDays source artifactClass) q
      else some q) = some r → r.id = q.id := by
    intro q r h
    rcases hone q r h with rfl | ⟨-, -, hstamp⟩
    · rfl
    · obtain ⟨expiresAt, rfl, -⟩ := stampRow_eq hstamp
      rfl
  obtain ⟨hids, hmem⟩ := rows_of_mapM hid h
  refine ⟨hids, fun r hr => ?_⟩
  obtain ⟨q, hq, hf⟩ := hmem r hr
  exact ⟨q, hq, hone q r hf⟩

theorem restamped (combos : List (Text × Text)) (rows : List ArtifactRow) :
    (restampArtifactExpiry tenant s combos rows).map ArtifactRow.id = rows.map ArtifactRow.id ∧
      ∀ r ∈ restampArtifactExpiry tenant s combos rows, ∃ q ∈ rows, Restamped tenant s q r := by
  induction combos generalizing rows with
  | nil => exact ⟨rfl, fun r hr => ⟨r, hr, .inl rfl⟩⟩
  | cons combo combos ih =>
    unfold restampArtifactExpiry
    split
    · rename_i rows' hrows
      obtain ⟨hids, hmem⟩ := stampCombo_rows hrows
      obtain ⟨hids', hmem'⟩ := ih rows'
      refine ⟨hids'.trans hids, fun r hr => ?_⟩
      obtain ⟨t, ht, htr⟩ := hmem' r hr
      obtain ⟨q, hq, hqt⟩ := hmem t ht
      exact ⟨q, hq, hqt.trans htr⟩
    · exact ⟨rfl, fun r hr => ⟨r, hr, .inl rfl⟩⟩

end Artifacts
