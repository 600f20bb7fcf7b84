/-
**The idempotency ledger of the ingest path.**

An ingest that carries an idempotency key looks the key up in `ingest_ledger` before it writes, and
records it there afterwards, for 24 hours.
-/

import Pensieve.Rows
import Pensieve.Runs
import Pensieve.SnapshotDb

namespace Ledger

open List
open Catalog (Backend)

/-! ### The ledger -/

abbrev TableId := Nat
abbrev SnapshotId := Nat

def hours (n : Int) : Int := n * 3600000000

structure IngestLedgerEntry where
  tableId : TableId
  snapshotId : SnapshotId
  rowsIngested : Nat
  bytesWritten : Nat
  appliedAt : Int
  deriving DecidableEq

/-- A row of `ingest_ledger`, in the default tenant. -/
structure LedgerRow where
  key : String
  entry : IngestLedgerEntry
  expiresAt : Int
  deriving DecidableEq

def lookupIdempotency (ledger : List LedgerRow) (key : String) (now : Int) : Option IngestLedgerEntry :=
  (ledger.find? fun r => r.key = key && now < r.expiresAt).map LedgerRow.entry

/-- The primary key, `(tenant_id, key)`. -/
def sameKey (q r : LedgerRow) : Bool := q.key = r.key

def recordIdempotency (ledger : List LedgerRow) (key : String) (entry : IngestLedgerEntry)
    (ttl : Int) : List LedgerRow :=
  Rows.insertNew sameKey ⟨key, entry, entry.appliedAt + ttl⟩ ledger

/-- `DELETE FROM ingest_ledger WHERE ttl_expires_at < now() - INTERVAL '1 hour'`; the task skips a
catalog that is not Postgres. -/
def cleanup (b : Backend) (ledger : List LedgerRow) (now : Int) : List LedgerRow :=
  match b with
  | .sqlite => ledger
  | .postgres => ledger.filter fun r => ¬r.expiresAt < now - hours 1

/-! ### The ingest path -/

/-- How a write path commits: through the group-commit buffer, directly, or by staging the extent
for the committer. -/
inductive WriteMode where
  | staging
  | direct
  | staged
  deriving DecidableEq

structure TableRef where
  id : TableId
  name : String
  currentSnapshotId : SnapshotId
  deriving DecidableEq

/-- An ingest of batches of type `B`. -/
structure Request (B : Type) where
  database : String
  table : TableRef
  batches : List B
  key : Option String

structure IngestAck where
  snapshotId : SnapshotId
  extentCount : Nat
  rowsIngested : Nat
  bytesWritten : Nat
  replayed : Bool
  deriving DecidableEq

/-- What the write of the batches comes back with: the snapshot, and the extent's rows and bytes. -/
structure Written where
  snapshotId : SnapshotId
  rowCount : Nat
  byteSize : Nat

variable {B : Type}

/-- The part of `ingest_with_idempotency` up to the write: it answers, or goes on to write. -/
inductive Begun where
  | answered (result : Except String IngestAck)
  | writes
  deriving DecidableEq

def replayAck (cached : IngestLedgerEntry) : IngestAck where
  snapshotId := cached.snapshotId
  extentCount := 0
  rowsIngested := cached.rowsIngested
  bytesWritten := cached.bytesWritten
  replayed := true

def begin (federated : TableId → Bool) (ledger : List LedgerRow) (req : Request B) (now : Int) : Begun :=
  if federated req.table.id then
    .answered (.error ("table `" ++ req.database ++ "." ++ req.table.name ++
      "` is federated (live-proxied); it does not accept ingest"))
  else match req.key.bind fun key => lookupIdempotency ledger key now with
    | some cached => .answered (.ok (replayAck cached))
    | none =>
      if req.batches.isEmpty then .answered (.ok ⟨req.table.currentSnapshotId, 0, 0, 0, false⟩)
      else .writes

def Request.rows (numRows : B → Nat) (req : Request B) : Nat := (req.batches.map numRows).sum

def ackOf (mode : WriteMode) (numRows : B → Nat) (req : Request B) (w : Written) : IngestAck where
  snapshotId := if mode = .staged then req.table.currentSnapshotId else w.snapshotId
  extentCount := 1
  rowsIngested := if mode = .staging then min w.rowCount (req.rows numRows) else req.rows numRows
  bytesWritten := w.byteSize
  replayed := false

def entryOf (mode : WriteMode) (numRows : B → Nat) (req : Request B) (w : Written)
    (appliedAt : Int) : IngestLedgerEntry where
  tableId := req.table.id
  snapshotId := (ackOf mode numRows req w).snapshotId
  rowsIngested := (ackOf mode numRows req w).rowsIngested
  bytesWritten := w.byteSize
  appliedAt := appliedAt

/-! ### Runs -/

structure Applied where
  key : String
  entry : IngestLedgerEntry
  deriving DecidableEq

/-- The time, the ledger, the ingest that is being written, what has been appended to the tables,
and the ingests that were applied. -/
structure St (B : Type) where
  clock : Int
  ledger : List LedgerRow
  writing : Option (Request B)
  appended : List (TableId × List B)
  applied : List Applied

inductive Action (B : Type) where
  | begin (req : Request B) (now : Int)
  | finish (written : Except String Written) (recordFails : Bool) (appliedAt : Int)
  | cleanup (now : Int)

/-- An empty ingest under a key that is answered at once counts as applied, too: it succeeds and is
no replay. -/
def noteEmpty (req : Request B) (now : Int) : Begun → List Applied
  | .answered (.ok ack) =>
    if ack.replayed then []
    else (req.key.map fun key => (⟨key, ⟨req.table.id, ack.snapshotId, ack.rowsIngested,
      ack.bytesWritten, now⟩⟩ : Applied)).toList
  | _ => []

def St.begin (federated : TableId → Bool) (s : St B) (req : Request B) (now : Int) : St B :=
  let begun := Ledger.begin federated s.ledger req now
  { s with
    clock := now
    writing := if begun = .writes then some req else none
    applied := s.applied ++ noteEmpty req now begun }

/-- The state after the write and the record.  A write that failed has appended nothing; if the
record fails, the batches are there and the ingest ends in an error. -/
def St.finish (mode : WriteMode) (numRows : B → Nat) (s : St B) (req : Request B)
    (written : Except String Written) (recordFails : Bool) (appliedAt : Int) : St B :=
  match written with
  | .error _ => { s with clock := appliedAt, writing := none }
  | .ok w =>
    let appended := s.appended ++ [(req.table.id, req.batches)]
    match req.key with
    | none => { s with clock := appliedAt, writing := none, appended }
    | some key =>
      let entry := entryOf mode numRows req w appliedAt
      if recordFails then { s with clock := appliedAt, writing := none, appended }
      else
        { clock := appliedAt
          ledger := recordIdempotency s.ledger key entry (hours 24)
          writing := none
          appended
          applied := s.applied ++ [⟨key, entry⟩] }

/-- **One step.**  Time does not go back, and ingests follow one another. -/
def step (b : Backend) (federated : TableId → Bool) (mode : WriteMode) (numRows : B → Nat)
    (s : St B) : Action B → Option (St B)
  | .begin req now =>
    if s.clock ≤ now ∧ s.writing.isNone then some (s.begin federated req now) else none
  | .finish written recordFails appliedAt =>
    if s.clock ≤ appliedAt then
      s.writing.map fun req => s.finish mode numRows req written recordFails appliedAt
    else none
  | .cleanup now =>
    if s.clock ≤ now then some { s with clock := now, ledger := Ledger.cleanup b s.ledger now }
    else none

def St.init : St B := ⟨0, [], none, [], []⟩

/-! ### The window, and the condition -/

/-- The request, at the time `now`, is answered as a replay of the applied ingest `h`, and appends
nothing. -/
def Replays (federated : TableId → Bool) (s : St B) (h : Applied) (req : Request B) (now : Int) : Prop :=
  begin federated s.ledger req now = .answered (.ok (replayAck h.entry)) ∧ (s.begin federated req now).writing = none ∧
    (s.begin federated req now).appended = s.appended

/-- **The window.**  From now on until 24 hours after an ingest was applied, an ingest with its key
on its table is a replay of it. -/
def Window (federated : TableId → Bool) (s : St B) : Prop :=
  ∀ h ∈ s.applied, ∀ req : Request B, req.key = some h.key → req.table.id = h.entry.tableId →
    ∀ now, s.clock ≤ now → now < h.entry.appliedAt + hours 24 → Replays federated s h req now

/-- **The condition on a run.**  An ingest under a key that is not a replay brings at least one
batch, and when its key is recorded the ledger has no row for the key, expired or not. -/
def KeyFree (federated : TableId → Bool) (s : St B) : Action B → Prop
  | .begin req now =>
    federated req.table.id = false → ∀ key ∈ req.key, lookupIdempotency s.ledger key now = none → req.batches ≠ []
  | .finish (.ok _) false _ =>
    ∀ req ∈ s.writing, ∀ key ∈ req.key, ∀ r ∈ s.ledger, r.key ≠ key
  | _ => True

/-! ### Lookup and record -/

variable {ledger : List LedgerRow} {key : String} {now : Int}

theorem lookupIdempotency_eq_none :
    lookupIdempotency ledger key now = none ↔ ∀ r ∈ ledger, r.key = key → r.expiresAt ≤ now := by
  simp only [lookupIdempotency, Option.map_eq_none_iff, find?_eq_none, Bool.and_eq_true,
    decide_eq_true_eq, not_and, Int.not_lt]

theorem lookupIdempotency_eq_some (hnd : (ledger.map LedgerRow.key).Nodup) {r : LedgerRow}
    (hr : r ∈ ledger) (hnow : now < r.expiresAt) : lookupIdempotency ledger r.key now = some r.entry := by
  cases hf : ledger.find? fun q => q.key = r.key && now < q.expiresAt with
  | none =>
    have hno := find?_eq_none.mp hf r hr
    simp [hnow] at hno
  | some q =>
    have hq := find?_some hf
    simp only [Bool.and_eq_true, decide_eq_true_eq] at hq
    obtain rfl := Rows.eq_of_key_eq hnd (mem_of_find?_eq_some hf) hr hq.1
    simp [lookupIdempotency, hf]

theorem recordIdempotency_of_free {entry : IngestLedgerEntry} {ttl : Int}
    (h : ∀ r ∈ ledger, r.key ≠ key) :
    recordIdempotency ledger key entry ttl = ledger ++ [⟨key, entry, entry.appliedAt + ttl⟩] := by
  refine if_neg fun hany => ?_
  obtain ⟨r, hr, hk⟩ := any_eq_true.mp hany
  exact h r hr (of_decide_eq_true hk)

theorem recordIdempotency_of_taken {entry : IngestLedgerEntry} {ttl : Int} {r : LedgerRow}
    (hr : r ∈ ledger) (hk : r.key = key) : recordIdempotency ledger key entry ttl = ledger :=
  if_pos (any_eq_true.mpr ⟨r, hr, decide_eq_true hk⟩)

theorem cleanup_sublist (b : Backend) : (cleanup b ledger now).Sublist ledger := by
  cases b with
  | sqlite => exact List.Sublist.refl _
  | postgres => exact filter_sublist

theorem mem_cleanup {b : Backend} {r : LedgerRow} (hr : r ∈ ledger) (hnow : now < r.expiresAt) :
    r ∈ cleanup b ledger now := by
  cases b with
  | sqlite => exact hr
  | postgres =>
    refine mem_filter.mpr ⟨hr, decide_eq_true ?_⟩
    have hpos : (0 : Int) < hours 1 := by decide
    omega

variable {federated : TableId → Bool} {req : Request B}

theorem begin_of_lookup_some {cached : IngestLedgerEntry} (hf : federated req.table.id = false)
    (hk : req.key = some key) (hl : lookupIdempotency ledger key now = some cached) :
    begin federated ledger req now = .answered (.ok (replayAck cached)) := by
  simp [begin, hf, hk, hl]

theorem begin_of_lookup_none (hf : federated req.table.id = false) (hk : req.key = some key)
    (hl : lookupIdempotency ledger key now = none) : begin federated ledger req now =
      if req.batches.isEmpty then .answered (.ok ⟨req.table.currentSnapshotId, 0, 0, 0, false⟩)
      else .writes := by
  simp [begin, hf, hk, hl]

theorem begin_ne_replay (hf : federated req.table.id = false) (hk : req.key = some key)
    (hl : lookupIdempotency ledger key now = none) (cached : IngestLedgerEntry) :
    begin federated ledger req now ≠ .answered (.ok (replayAck cached)) := by
  rw [begin_of_lookup_none hf hk hl]
  split <;> simp [replayAck]

theorem lookup_of_begin_writes (h : begin federated ledger req now = .writes) : federated req.table.id = false ∧
      ∀ key ∈ req.key, lookupIdempotency ledger key now = none := by
  unfold begin at h
  split at h
  · cases h
  · rename_i hf
    refine ⟨by simpa using hf, fun key hk => ?_⟩
    rw [Option.mem_def.mp hk, Option.bind_some] at h
    cases hl : lookupIdempotency ledger key now with
    | none => rfl
    | some cached =>
      rw [hl] at h
      cases h

/-! ### The invariant -/

/-- **The invariant.**  Keys are unique, every applied ingest whose window is open has its row, and
the keys of the ingest that is being written have no row that is still valid. -/
structure Inv (federated : TableId → Bool) (s : St B) : Prop where
  nodup : (s.ledger.map LedgerRow.key).Nodup
  recorded : ∀ h ∈ s.applied, s.clock < h.entry.appliedAt + hours 24 →
    ⟨h.key, h.entry, h.entry.appliedAt + hours 24⟩ ∈ s.ledger
  accepted : ∀ h ∈ s.applied, federated h.entry.tableId = false
  writing : ∀ req ∈ s.writing, federated req.table.id = false ∧
    ∀ key ∈ req.key, ∀ r ∈ s.ledger, r.key = key → r.expiresAt ≤ s.clock

theorem inv_init : Inv federated (St.init : St B) := by
  constructor <;> simp [St.init]

variable {s s' : St B}

theorem Inv.window (h : Inv federated s) : Window federated s := by
  intro a ha req hk ht now hclock hnow
  have hrow := h.recorded a ha (by omega)
  have hlookup := lookupIdempotency_eq_some h.nodup hrow hnow
  have hbegin : begin federated s.ledger req now = .answered (.ok (replayAck a.entry)) :=
    begin_of_lookup_some (by rw [ht]; exact h.accepted a ha) hk hlookup
  refine ⟨hbegin, ?_, rfl⟩
  simp [St.begin, hbegin]

theorem noteEmpty_of_keyFree (h : KeyFree federated s (.begin req now)) :
    noteEmpty req now (begin federated s.ledger req now) = [] := by
  cases hf : federated req.table.id with
  | true => simp [begin, hf, noteEmpty]
  | false =>
    cases hk : req.key with
    | none =>
      by_cases he : req.batches.isEmpty <;> simp [begin, hf, hk, he, noteEmpty]
    | some key =>
      cases hl : lookupIdempotency s.ledger key now with
      | some cached => simp [begin_of_lookup_some hf hk hl, noteEmpty, replayAck]
      | none =>
        have hne := h hf key hk hl
        simp [begin_of_lookup_none hf hk hl, List.isEmpty_iff, hne, noteEmpty]

theorem Inv.begin (h : Inv federated s) (hclock : s.clock ≤ now)
    (ha : KeyFree federated s (.begin req now)) : Inv federated (s.begin federated req now) where
  nodup := h.nodup
  recorded x hx ht := by
    simp only [St.begin, noteEmpty_of_keyFree ha, append_nil] at hx ht ⊢
    exact h.recorded x hx (by omega)
  accepted x hx := by
    simp only [St.begin, noteEmpty_of_keyFree ha, append_nil] at hx
    exact h.accepted x hx
  writing x hx := by
    simp only [St.begin] at hx ⊢
    split at hx
    · rename_i hw
      obtain rfl := Option.some.inj hx
      obtain ⟨hf, hl⟩ := lookup_of_begin_writes hw
      exact ⟨hf, fun key hk => lookupIdempotency_eq_none.mp (hl key hk)⟩
    · cases hx

variable {b : Backend} {mode : WriteMode} {numRows : B → Nat}

theorem Inv.later (h : Inv federated s) {clock : Int} (hclock : s.clock ≤ clock)
    (appended : List (TableId × List B)) :
    Inv federated { s with clock := clock, writing := none, appended := appended } where
  nodup := h.nodup
  recorded x hx ht := h.recorded x hx (by simp only at ht; omega)
  accepted := h.accepted
  writing x hx := by cases hx

theorem Inv.record (h : Inv federated s) {appliedAt : Int} (hclock : s.clock ≤ appliedAt)
    (hreq : req ∈ s.writing) (hfree : ∀ r ∈ s.ledger, r.key ≠ key) (w : Written) (appended : List (TableId × List B)) :
    Inv federated
      { clock := appliedAt
        ledger := recordIdempotency s.ledger key (entryOf mode numRows req w appliedAt) (hours 24)
        writing := none
        appended := appended
        applied := s.applied ++ [⟨key, entryOf mode numRows req w appliedAt⟩] } where
  nodup := by
    refine Rows.nodup_insertNew (fun q hq => ?_) h.nodup
    simpa [sameKey] using hq
  recorded x hx ht := by
    simp only [recordIdempotency_of_free hfree]
    rcases mem_append.mp hx with hx | hx
    · exact mem_append_left _ (h.recorded x hx (by simp only at ht; omega))
    · obtain rfl := mem_singleton.mp hx
      exact mem_append_right _ (mem_singleton.mpr rfl)
  accepted x hx := by
    rcases mem_append.mp hx with hx | hx
    · exact h.accepted x hx
    · obtain rfl := mem_singleton.mp hx
      exact (h.writing req hreq).1
  writing x hx := by cases hx

theorem Inv.finish (h : Inv federated s) (hreq : req ∈ s.writing)
    {written : Except String Written} {recordFails : Bool} {appliedAt : Int}
    (hclock : s.clock ≤ appliedAt) (ha : KeyFree federated s (.finish written recordFails appliedAt)) :
    Inv federated (s.finish mode numRows req written recordFails appliedAt) := by
  cases written with
  | error e => exact h.later hclock s.appended
  | ok w =>
    cases hk : req.key with
    | none =>
      simp only [St.finish, hk]
      exact h.later hclock _
    | some key =>
      simp only [St.finish, hk]
      cases recordFails with
      | true => exact h.later hclock _
      | false => exact h.record hclock hreq (ha req hreq key hk) w _

theorem Inv.cleanup (h : Inv federated s) (hclock : s.clock ≤ now) :
    Inv federated { s with clock := now, ledger := Ledger.cleanup b s.ledger now } where
  nodup := h.nodup.sublist ((cleanup_sublist b).map LedgerRow.key)
  recorded x hx ht := by
    simp only at hx ht ⊢
    exact mem_cleanup (h.recorded x hx (by omega)) ht
  accepted := h.accepted
  writing x hx := by
    refine ⟨(h.writing x hx).1, fun key hk r hr hrk => ?_⟩
    have hle := (h.writing x hx).2 key hk r ((cleanup_sublist b).subset hr) hrk
    simp only
    omega

theorem Inv.step {a : Action B} (h : Inv federated s) (ha : KeyFree federated s a)
    (hs : step b federated mode numRows s a = some s') : Inv federated s' := by
  cases a with
  | begin req now =>
    simp only [Ledger.step] at hs
    split at hs
    · rename_i hc
      cases hs
      exact h.begin hc.1 ha
    · cases hs
  | finish written recordFails appliedAt =>
    simp only [Ledger.step] at hs
    split at hs
    · rename_i hc
      obtain ⟨req, hreq, rfl⟩ := Option.map_eq_some_iff.mp hs
      exact h.finish hreq hc ha
    · cases hs
  | cleanup now =>
    simp only [Ledger.step] at hs
    split at hs
    · rename_i hc
      cases hs
      exact h.cleanup hc
    · cases hs

theorem inv_of_reach (h : Runs.Reach (step b federated mode numRows) (KeyFree federated) St.init s) : Inv federated s :=
  h.inv inv_init fun _ _ _ hi ha hst => hi.step ha hst

/-! ### The window, over whole runs -/

theorem not_window_of_lookup_none {h : Applied} (hh : h ∈ s.applied) (hk : req.key = some h.key)
    (ht : req.table.id = h.entry.tableId) (hf : federated req.table.id = false) (hclock : h.entry.appliedAt = s.clock)
    (hl : lookupIdempotency s.ledger h.key s.clock = none) : ¬Window federated s := by
  intro hw
  have hpos : (0 : Int) < hours 24 := by decide
  exact begin_ne_replay hf hk hl h.entry (hw h hh req hk ht s.clock (Int.le_refl _) (by omega)).1

theorem not_window_of_not_keyFree {a : Action B} (h : Inv federated s)
    (ha : ¬KeyFree federated s a) (hs : step b federated mode numRows s a = some s') : ¬Window federated s' := by
  cases a with
  | begin req now =>
    simp only [KeyFree, not_forall, Decidable.not_not] at ha
    obtain ⟨hf, key, hk, hl, hempty⟩ := ha
    simp only [Ledger.step] at hs
    split at hs
    · cases hs
      have hnote : noteEmpty req now (Ledger.begin federated s.ledger req now) =
          [⟨key, ⟨req.table.id, req.table.currentSnapshotId, 0, 0, now⟩⟩] := by
        simp [begin_of_lookup_none hf hk hl, hempty, noteEmpty, Option.mem_def.mp hk]
      have hmem : (⟨key, ⟨req.table.id, req.table.currentSnapshotId, 0, 0, now⟩⟩ : Applied) ∈
          (s.begin federated req now).applied := by
        simp [St.begin, hnote]
      exact not_window_of_lookup_none hmem hk rfl hf rfl hl
    · cases hs
  | finish written recordFails appliedAt =>
    simp only [Ledger.step] at hs
    split at hs
    · rename_i hclock
      obtain ⟨req, hreq, rfl⟩ := Option.map_eq_some_iff.mp hs
      cases written with
      | error e => exact absurd trivial ha
      | ok w =>
        cases recordFails with
        | true => exact absurd trivial ha
        | false =>
          simp only [KeyFree, not_forall, ne_eq, Decidable.not_not] at ha
          obtain ⟨req', hreq', key, hk, r, hr, hrk⟩ := ha
          obtain rfl : req' = req := Option.some.inj (hreq'.symm.trans hreq)
          obtain ⟨hf, hexp⟩ := h.writing req' hreq
          rw [Option.mem_def] at hk
          -- the record is lost to the row that is there, and that row has expired
          have hl : lookupIdempotency s.ledger key appliedAt = none :=
            lookupIdempotency_eq_none.mpr fun q hq hqk =>
              Int.le_trans (hexp key hk q hq hqk) hclock
          simp only [St.finish, hk, recordIdempotency_of_taken hr hrk]
          exact not_window_of_lookup_none (mem_append_right _ (mem_singleton.mpr rfl)) hk rfl hf rfl hl
    · cases hs
  | cleanup now => exact absurd trivial ha

/-- An ingest whose key has no valid record is not a replay: it writes its batches, and what is
written is appended. -/
def AppliedIfFree (federated : TableId → Bool) (mode : WriteMode) (numRows : B → Nat) (s : St B) : Prop :=
  ∀ (req : Request B) (key : String) (now : Int), req.key = some key →
    federated req.table.id = false → lookupIdempotency s.ledger key now = none →
      (req.batches ≠ [] → begin federated s.ledger req now = .writes) ∧
      (∀ cached, begin federated s.ledger req now ≠ .answered (.ok (replayAck cached))) ∧
      ∀ w recordFails appliedAt, (s.finish mode numRows req (.ok w) recordFails appliedAt).appended =
          s.appended ++ [(req.table.id, req.batches)]

theorem appliedIfFree (s : St B) : AppliedIfFree federated mode numRows s := by
  intro req key now hk hf hl
  refine ⟨fun hne => ?_, begin_ne_replay hf hk hl, fun w recordFails appliedAt => ?_⟩
  · rw [begin_of_lookup_none hf hk hl, if_neg (by simpa [List.isEmpty_iff] using hne)]
  · cases recordFails <;> simp [St.finish, hk]

def eventsTable : TableRef := ⟨1, "events", 10⟩

/-- One batch of three rows under the key `order-17`. -/
def orderRequest : Request Nat := ⟨"default", eventsTable, [3], some "order-17"⟩

def noneFederated (_ : TableId) : Bool := false

def resent : List (Action Nat) :=
  [.begin orderRequest 0, .finish (.ok ⟨11, 3, 100⟩) false 1,
   .begin orderRequest (hours 24 + 60000000), .finish (.ok ⟨12, 3, 100⟩) false (hours 24 + 60000001)]

def afterSent : St Nat where
  clock := 1
  ledger := [⟨"order-17", ⟨1, 11, 3, 100, 1⟩, 1 + hours 24⟩]
  writing := none
  appended := [(1, [3])]
  applied := [⟨"order-17", ⟨1, 11, 3, 100, 1⟩⟩]

def afterResent : St Nat where
  clock := hours 24 + 60000001
  ledger := [⟨"order-17", ⟨1, 11, 3, 100, 1⟩, 1 + hours 24⟩]
  writing := none
  appended := [(1, [3]), (1, [3])]
  applied := [⟨"order-17", ⟨1, 11, 3, 100, 1⟩⟩, ⟨"order-17", ⟨1, 12, 3, 100, hours 24 + 60000001⟩⟩]

def Truthful (s : St B) : Prop :=
  ∀ r ∈ s.ledger, ⟨r.key, r.entry⟩ ∈ s.applied ∧ r.expiresAt = r.entry.appliedAt + hours 24

theorem Truthful.finish {s : St B} (h : Truthful s) (req : Request B) (written : Except String Written) (recordFails : Bool)
    (appliedAt : Int) : Truthful (s.finish mode numRows req written recordFails appliedAt) := by
  unfold St.finish
  split
  · exact h
  · dsimp only
    split
    · exact h
    · split
      · exact h
      · intro r hr
        rcases Rows.mem_insertNew hr with hr | rfl
        · exact (h r hr).imp_left (mem_append_left _)
        · exact ⟨mem_append_right _ (mem_singleton_self _), rfl⟩

theorem Truthful.step {s s' : St B} {a : Action B} (h : Truthful s) (hs : step b federated mode numRows s a = some s') :
    Truthful s' := by
  cases a with
  | begin req now =>
    simp only [Ledger.step] at hs
    split at hs
    · cases hs
      exact fun r hr => (h r hr).imp_left (mem_append_left _)
    · cases hs
  | finish written recordFails appliedAt =>
    simp only [Ledger.step] at hs
    split at hs
    · obtain ⟨req, -, rfl⟩ := Option.map_eq_some_iff.mp hs
      exact h.finish req written recordFails appliedAt
    · cases hs
  | cleanup now =>
    simp only [Ledger.step] at hs
    split at hs
    · cases hs
      exact fun r hr => h r ((cleanup_sublist b).subset hr)
    · cases hs

/-- **A replay repeats what was applied**, in every run: an ingest under the same key, less than 24 hours ago. -/
theorem replay_of_applied (b : Backend) (federated : TableId → Bool) (mode : WriteMode) (numRows : B → Nat) {s : St B}
    (h : Runs.Reach (step b federated mode numRows) Runs.Free St.init s) {req : Request B} {now : Int} {ack : IngestAck}
    (hack : begin federated s.ledger req now = .answered (.ok ack)) (hreplayed : ack.replayed = true) :
    ∃ x ∈ s.applied, req.key = some x.key ∧ ack = replayAck x.entry ∧ now < x.entry.appliedAt + hours 24 := by
  have htrue : Truthful s := h.inv nofun fun _ _ _ hi _ hs => hi.step hs
  unfold begin at hack
  split at hack
  · cases hack
  · split at hack
    · rename_i cached hcached
      cases hack
      obtain ⟨key, hkey, hlookup⟩ := Option.bind_eq_some_iff.mp hcached
      obtain ⟨r, hr, rfl⟩ := Option.map_eq_some_iff.mp hlookup
      have hfound := find?_some hr
      simp only [Bool.and_eq_true, decide_eq_true_eq] at hfound
      obtain ⟨happlied, hexpires⟩ := htrue r (mem_of_find?_eq_some hr)
      exact ⟨_, happlied, hkey.trans (congrArg some hfound.1.symm), rfl, hexpires ▸ hfound.2⟩
    · split at hack
      · cases hack
        cases hreplayed
      · cases hack

/-- The order that is sent again after 23 hours. -/
theorem replay_of_applied_sent : ∃ x ∈ afterSent.applied, orderRequest.key = some x.key ∧
    (⟨11, 0, 3, 100, true⟩ : IngestAck) = replayAck x.entry ∧ hours 23 < x.entry.appliedAt + hours 24 :=
  replay_of_applied .postgres noneFederated .direct id
    (.step (.finish (.ok ⟨11, 3, 100⟩) false 1) (.step (.begin orderRequest 0) .init trivial rfl) trivial rfl)
    (by decide) rfl

end Ledger
