/-
**The file-drop watcher.**

The watcher polls prefixes of an object store.  A file below a prefix names its database and its
table by the first two segments of its path.
-/

import Pensieve.IngestLedger

namespace FileDrop

open List
open Catalog (Backend)
open Ledger (LedgerRow TableId SnapshotId lookupIdempotency recordIdempotency cleanup hours)

abbrev Text := List Char

abbrev Byte := UInt8

/-! ### Routes -/

structure File where
  path : Text
  content : List Byte
  deriving DecidableEq

def trimEndSlashes (s : Text) : Text := (s.reverse.dropWhile (· = '/')).reverse

def stripPrefix : Text → Text → Option Text
  | [], s => some s
  | _ :: _, [] => none
  | c :: cs, d :: ds => if c = d then stripPrefix cs ds else none

/-- `{prefix}/{database}/{table}/{filename}`; the filename keeps its own directories. -/
def splitPath (pre path : Text) : Option (Text × Text × Text) :=
  match stripPrefix (trimEndSlashes pre) path with
  | none => none
  | some rest =>
    match (rest.dropWhile (· = '/')).splitOn '/' with
    | database :: table :: p :: parts =>
      let filename := List.intercalate ['/'] (p :: parts)
      if database.isEmpty || table.isEmpty || filename.isEmpty then none else some (database, table, filename)
    | _ => none

def extension (filename : Text) : Text := ((filename.splitOn '.').getLastD []).map Char.toLower

def supported (filename : Text) : Bool := extension filename ∈ ["ndjson".toList, "jsonl".toList, "json".toList]

/-! ### The watcher and what it works on -/

abbrev Target := Text × Text

/-- The configuration, the catalog's ids, the hash in hexadecimal digits, and the rows of a content for a table. -/
structure Setup (R : Type) where
  prefixes : List Text
  deleteAfterIngest : Bool
  backend : Backend
  tableId : Target → TableId
  sha : List Byte → String
  parseNdjson : Target → List Byte → Option (List R)

variable {R : Type}

def idemKey (c : Setup R) (content : List Byte) : String := "filedrop:" ++ c.sha content

structure World where
  clock : Int
  files : List File
  ledger : List LedgerRow
  stored : Target → List (List Byte)
  ingested : List (Target × List Byte)

def World.init : World := ⟨0, [], [], fun _ => [], []⟩

inductive Calls
  | early
  | failed
  | committed (recorded : Bool)
  deriving DecidableEq

structure Poll where
  now : Int
  appliedAt : Int
  snapshotId : SnapshotId
  bytesWritten : ℕ
  calls : Calls
  deriving DecidableEq

namespace World

variable (c : Setup R) (s : World)

def record (target : Target) (content : List Byte) (rows : ℕ) (p : Poll) (at_ : Int) (ttl : Int) : World :=
  { s with
    ledger := recordIdempotency s.ledger (idemKey c content) ⟨c.tableId target, p.snapshotId, rows, p.bytesWritten, at_⟩
      ttl }

def reportIngested (target : Target) (content : List Byte) : World :=
  { s with ingested := s.ingested ++ [(target, content)] }

def processOne (pre : Text) (f : File) (p : Poll) : World :=
  match splitPath pre f.path with
  | none => s
  | some (database, table, filename) =>
    let target := (database, table)
    if p.calls = .early || !supported filename then s
    else
      match c.parseNdjson target f.content with
      | none => s
      | some rows =>
        if rows.isEmpty then
          -- an empty file is recorded, so that it is not read again
          if p.calls = .failed then s else s.record c target f.content 0 p p.now (hours (24 * 30))
        else
          match lookupIdempotency s.ledger (idemKey c f.content) p.now with
          | some _ => s.reportIngested target f.content
          | none =>
            match p.calls with
            | .committed recorded =>
              let s := { s with stored := Function.update s.stored target (s.stored target ++ [f.content]) }
              if recorded then
                let s := (s.record c target f.content rows.length p p.appliedAt (hours 24)).reportIngested
                  target f.content
                if c.deleteAfterIngest then { s with files := s.files.filter (· ≠ f) } else s
              else s
            | _ => s

end World

inductive Action
  | drop (f : File)
  | poll (pre : Text) (f : File) (p : Poll)
  | sweep (now : Int)
  deriving DecidableEq

def step (c : Setup R) (s : World) : Action → Option World
  | .drop f => if s.files.any (·.path = f.path) then none else some { s with files := s.files ++ [f] }
  | .poll pre f p =>
    if pre ∈ c.prefixes ∧ f ∈ s.files ∧ (trimEndSlashes pre ++ ['/']) <+: f.path ∧ s.clock ≤ p.now ∧
        p.now ≤ p.appliedAt then
      some { s.processOne c pre f p with clock := p.appliedAt }
    else none
  | .sweep now =>
    if s.clock ≤ now then some { s with ledger := cleanup c.backend s.ledger now, clock := now } else none

/-! ### Once -/

def Once (s : World) : Prop := ∀ target content, (target, content) ∈ s.ingested → (s.stored target).count content = 1

def LedgerFits (c : Setup R) (s : World) : Action → Prop
  | .poll pre f p => ∀ database table filename rows, splitPath pre f.path = some (database, table, filename) →
      p.calls ≠ .early → supported filename = true → c.parseNdjson (database, table) f.content = some rows →
      rows ≠ [] →
      ((lookupIdempotency s.ledger (idemKey c f.content) p.now).isSome = true ↔ f.content ∈ s.stored (database, table))
  | _ => True

structure Inv (s : World) : Prop where
  once : ∀ target, (s.stored target).Nodup
  ingested : ∀ target content, (target, content) ∈ s.ingested → content ∈ s.stored target

section Runs

variable {c : Setup R} {s s' : World} {pre : Text} {f : File} {p : Poll} {target : Target} {content : List Byte}

theorem Inv.once' (h : Inv s) : Once s := fun target content hmem =>
  count_eq_one_of_mem (h.once target) (h.ingested target content hmem)

theorem Inv.of_eq (h : Inv s) (hstored : s'.stored = s.stored) (hingested : s'.ingested = s.ingested) : Inv s' := by
  refine ⟨?_, ?_⟩
  · rw [hstored]
    exact h.once
  · rw [hstored, hingested]
    exact h.ingested

theorem Inv.reportIngested (h : Inv s) (hmem : content ∈ s.stored target) : Inv (s.reportIngested target content) := by
  refine ⟨h.once, fun t b hb => ?_⟩
  obtain hb | hb := mem_append.1 hb
  · exact h.ingested t b hb
  · cases mem_singleton.1 hb
    exact hmem

theorem Inv.record (h : Inv s) {rows : ℕ} {at_ ttl : Int} : Inv (s.record c target content rows p at_ ttl) :=
  h.of_eq rfl rfl

theorem Inv.store (h : Inv s) (hfresh : content ∉ s.stored target) :
    Inv { s with stored := Function.update s.stored target (s.stored target ++ [content]) } := by
  have hsub : ∀ t, s.stored t ⊆ Function.update s.stored target (s.stored target ++ [content]) t := by
    intro t
    by_cases ht : t = target
    · subst ht
      simp
    · simp [Function.update_of_ne ht]
  refine ⟨fun t => ?_, fun t b hb => hsub t (h.ingested t b hb)⟩
  by_cases ht : t = target
  · subst ht
    simp only [Function.update_self, nodup_append, nodup_singleton, mem_singleton]
    refine ⟨h.once t, trivial, ?_⟩
    rintro b hb _ rfl rfl
    exact hfresh hb
  · simp only [Function.update_of_ne ht]
    exact h.once t

theorem Inv.processOne (h : Inv s) (hfits : LedgerFits c s (.poll pre f p)) : Inv (s.processOne c pre f p) := by
  unfold World.processOne
  split
  next => exact h
  next database table filename hroute =>
    dsimp only
    split
    next => exact h
    next hreads =>
      simp only [Bool.or_eq_true, decide_eq_true_eq, Bool.not_eq_true', not_or, Bool.not_eq_false] at hreads
      split
      next => exact h
      next rows hparse =>
        split
        next hempty =>
          split
          · exact h
          · exact h.of_eq rfl rfl
        next hempty =>
          have hiff := hfits database table filename rows hroute hreads.1 hreads.2 hparse (by simpa using hempty)
          split
          next entry hlookup =>
            refine h.reportIngested (hiff.1 ?_)
            rw [hlookup]
            rfl
          next hlookup =>
            have hfresh : f.content ∉ s.stored (database, table) := by
              intro hmem
              have hsome := hiff.2 hmem
              rw [hlookup] at hsome
              cases hsome
            split
            next recorded hcalls =>
              have hstore := h.store hfresh
              split
              · have hreport : Inv (World.reportIngested (World.record c { s with
                    stored := Function.update s.stored (database, table)
                      (s.stored (database, table) ++ [f.content]) } (database, table) f.content rows.length p
                    p.appliedAt (hours 24)) (database, table) f.content) :=
                  hstore.record.reportIngested (by simp [World.record])
                split
                · exact hreport.of_eq rfl rfl
                · exact hreport
              · exact hstore
            next => exact h

theorem Inv.step {a : Action} (h : Inv s) (hfits : LedgerFits c s a) (hs : step c s a = some s') : Inv s' := by
  cases a with
  | drop f =>
    simp only [FileDrop.step] at hs
    split at hs
    · simp at hs
    · cases hs
      exact h.of_eq rfl rfl
  | poll pre f p =>
    simp only [FileDrop.step] at hs
    split at hs
    · cases hs
      exact (h.processOne hfits).of_eq rfl rfl
    · simp at hs
  | sweep now =>
    simp only [FileDrop.step] at hs
    split at hs
    · cases hs
      exact h.of_eq rfl rfl
    · simp at hs

theorem inv_init : Inv World.init := ⟨fun _ => nodup_nil, fun _ _ h => by cases h⟩

end Runs

/-! #### Two files with one content -/

/-- `{"n":1}` and a newline. -/
def oneRecord : List Byte := [123, 34, 110, 34, 58, 49, 125, 10]

/-- A watcher of the prefix `ingest`, as far as the file `oneRecord` goes. -/
def watcher : Setup ℕ where
  prefixes := ["ingest".toList]
  deleteAfterIngest := false
  backend := .sqlite
  tableId target := if target.2 = "orders".toList then 1 else 2
  sha content :=
    if content = oneRecord then "cedf74272c9fc8db5448283a93277e7e7eb7534b71df3bd8ab35fd9b1b73404c"
    else String.join (content.map fun b => toString b.toNat ++ "-")
  parseNdjson _ content := if content = oneRecord then some [1] else none

def ordersFile : File := ⟨"ingest/shop/orders/a.ndjson".toList, oneRecord⟩

def refundsFile : File := ⟨"ingest/shop/refunds/a.ndjson".toList, oneRecord⟩

def pollAt (now : Int) : Poll := ⟨now, now, 1, 100, .committed true⟩

end FileDrop
