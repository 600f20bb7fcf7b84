/-
**The catalog's types.**

The values that the catalog trait of `pensieve-core` passes around: identifiers, JSON values, extent
manifests, and the predicates a query prunes extents with.
-/

import Mathlib.Tactic

namespace Catalog

open List

/-! ### Identifiers and instants -/

abbrev Uuid := ℕ

abbrev TenantId := Uuid
abbrev TableId := Uuid
abbrev SnapshotId := Uuid
abbrev SchemaSnapshotId := Uuid
abbrev ExtentId := Uuid

/-- `DateTime<Utc>`, as nanoseconds since the Unix epoch. -/
abbrev DateTime := Int

/-! ### JSON values -/

/-- `serde_json::Value`, over the type `F` of its floating-point numbers. -/
inductive Json (F : Type) where
  | null
  | bool (b : Bool)
  | int (n : Int)
  | float (x : F)
  | str (s : String)
  | arr (items : List (Json F))
  | obj (fields : List (String × Json F))

section Equality

variable {F : Type} [DecidableEq F]

mutual
/-- Equality of JSON values, as `serde_json` compares them. -/
def Json.beq : Json F → Json F → Bool
  | .null, .null => true
  | .bool a, .bool b => a == b
  | .int a, .int b => a == b
  | .float a, .float b => decide (a = b)
  | .str a, .str b => a == b
  | .arr a, .arr b => Json.beqItems a b
  | .obj a, .obj b => Json.beqFields a b
  | _, _ => false

def Json.beqItems : List (Json F) → List (Json F) → Bool
  | [], [] => true
  | a :: as, b :: bs => a.beq b && Json.beqItems as bs
  | _, _ => false

def Json.beqFields : List (String × Json F) → List (String × Json F) → Bool
  | [], [] => true
  | (k, a) :: as, (l, b) :: bs => k == l && a.beq b && Json.beqFields as bs
  | _, _ => false
end

mutual
theorem Json.beq_iff_eq : ∀ a b : Json F, a.beq b = true ↔ a = b
  | .null, b => by cases b <;> simp [Json.beq]
  | .bool _, b => by cases b <;> simp [Json.beq]
  | .int _, b => by cases b <;> simp [Json.beq]
  | .float _, b => by cases b <;> simp [Json.beq]
  | .str _, b => by cases b <;> simp [Json.beq]
  | .arr xs, b => by
    cases b with
    | arr ys => simp [Json.beq, Json.beqItems_iff_eq xs ys]
    | _ => simp [Json.beq]
  | .obj xs, b => by
    cases b with
    | obj ys => simp [Json.beq, Json.beqFields_iff_eq xs ys]
    | _ => simp [Json.beq]

theorem Json.beqItems_iff_eq : ∀ as bs : List (Json F), Json.beqItems as bs = true ↔ as = bs
  | [], bs => by cases bs <;> simp [Json.beqItems]
  | a :: as, bs => by
    cases bs with
    | nil => simp [Json.beqItems]
    | cons b bs => simp [Json.beqItems, Json.beq_iff_eq a b, Json.beqItems_iff_eq as bs]

theorem Json.beqFields_iff_eq : ∀ as bs : List (String × Json F), Json.beqFields as bs = true ↔ as = bs
  | [], bs => by cases bs <;> simp [Json.beqFields]
  | (k, a) :: as, bs => by
    cases bs with
    | nil => simp [Json.beqFields]
    | cons b bs =>
      simp [Json.beqFields, Json.beq_iff_eq a b.2, Json.beqFields_iff_eq as bs, Prod.ext_iff]
end

instance : DecidableEq (Json F) := fun a b => decidable_of_iff (a.beq b = true) (a.beq_iff_eq b)

end Equality

section Access

variable {F : Type}

/-- `Value::get` with a string key. -/
def Json.get (v : Json F) (key : String) : Option (Json F) :=
  match v with
  | .obj fields => fields.lookup key
  | _ => none

def Json.asArray : Json F → Option (List (Json F))
  | .arr items => some items
  | _ => none

def Json.asStr : Json F → Option String
  | .str s => some s
  | _ => none

def Json.asF64 [IntCast F] : Json F → Option F
  | .int n => some n
  | .float x => some x
  | _ => none

/-- `Map::insert`: the value of a key that is there already is replaced. -/
def insertField (key : String) (value : Json F) : List (String × Json F) → List (String × Json F)
  | [] => [(key, value)]
  | (k, v) :: rest => if k = key then (key, value) :: rest else (k, v) :: insertField key value rest

theorem lookup_insertField_self (key : String) (value : Json F)
    (fields : List (String × Json F)) : (insertField key value fields).lookup key = some value := by
  induction fields with
  | nil => simp [insertField]
  | cons f rest ih =>
    obtain ⟨k, v⟩ := f
    unfold insertField
    split
    · simp
    · rename_i hne
      rw [lookup_cons, show (key == k) = false by simpa using Ne.symm hne]
      exact ih

theorem lookup_insertField_of_ne {key other : String} (h : other ≠ key) (value : Json F)
    (fields : List (String × Json F)) : (insertField key value fields).lookup other = fields.lookup other := by
  induction fields with
  | nil =>
    rw [insertField, lookup_cons, show (other == key) = false by simpa using h]
  | cons f rest ih =>
    obtain ⟨k, v⟩ := f
    unfold insertField
    split
    · rename_i heq
      subst heq
      rw [lookup_cons, lookup_cons, show (other == k) = false by simpa using h]
    · rw [lookup_cons, lookup_cons, ih]

end Access


structure ExtentManifest (J : Type) where
  id : ExtentId
  tableId : TableId
  schemaSnapshotId : SchemaSnapshotId
  objectPath : String
  byteSize : ℕ
  rowCount : ℕ
  minTimestamp : Option DateTime
  maxTimestamp : Option DateTime
  columnStats : J
  presentPaths : List String
  compactionGen : ℕ
  createdAt : DateTime
  deriving DecidableEq

/-! ### Pruning -/

structure TimeRange where
  startInclusive : DateTime
  endExclusive : DateTime
  deriving DecidableEq

/-- The column predicates that the catalog can test against `columnStats`. -/
inductive ColumnPrune (J F : Type) where
  | equals (value : J)
  | between (low high : J)
  | inSet (values : List J)
  | containsTokens (tokens : List String)
  | vectorDistance (query : List F) (threshold : F)
  deriving DecidableEq

/-- A predicate that the catalog evaluates against manifest-level statistics.  The source keeps the
column predicates in a map; here they are the list of its entries. -/
structure PrunePredicate (J F : Type) where
  timeRange : Option TimeRange
  requiredPaths : List String
  columnPredicates : List (String × ColumnPrune J F)
  deriving DecidableEq

/-- `PrunePredicate::default()`, which prunes nothing. -/
def PrunePredicate.default (J F : Type) : PrunePredicate J F :=
  { timeRange := none, requiredPaths := [], columnPredicates := [] }

inductive CatalogError where
  | conflict
  | sql (message : String)
  deriving DecidableEq

end Catalog
