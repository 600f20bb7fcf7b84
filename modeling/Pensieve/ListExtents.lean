/-
**Listing the extents of a table.**

`list_extents_in_tenant` reads the live extents of a table and drops those that the prune predicate
rules out.  The SQLite catalog reads every live row and tests the predicate in Rust; the Postgres
catalog puts it into the `WHERE` clause, as range overlap and `jsonb` containment, and only the
vector test is made in Rust afterwards.
-/

import Pensieve.SnapshotDb

namespace Catalog

open List

/-- The square root of the number type that stands for `f64`. -/
class HasSqrt (F : Type) where
  sqrt : F → F

/-- Exact on squares, rounded otherwise; for running the model. -/
instance : HasSqrt ℚ := ⟨Rat.sqrt⟩

noncomputable instance : HasSqrt ℝ := ⟨Real.sqrt⟩

variable {F : Type} [Field F] [LinearOrder F] [HasSqrt F]

/-! ### The statistics of a column -/

def distinctArray (stats : Json F) (col : String) : Option (List (Json F)) :=
  ((stats.get col).bind (·.get "distinct")).bind Json.asArray

def tokenArray (stats : Json F) (col : String) : Option (List (Json F)) :=
  ((stats.get col).bind (·.get "tokens")).bind Json.asArray

/-- `in_range`: numbers compare with numbers, strings with strings, and what does not compare is
taken to be in range. -/
def inRange (x low high : Json F) : Bool :=
  match x.asF64, low.asF64, high.asF64 with
  | some xv, some lo, some hi => xv ≥ lo ∧ xv ≤ hi
  | _, _, _ =>
    match x.asStr, low.asStr, high.asStr with
    | some xs, some ls, some hs => xs ≥ ls ∧ xs ≤ hs
    | _, _, _ => true

/-! ### The vector test -/

/-- The bound `1e-12` below which a norm counts as zero. -/
def tiny : F := 1 / 10 ^ 12

def norm (v : List F) : F := HasSqrt.sqrt ((v.map fun x => x * x).sum)

def cosineDistanceLowerBound (query centroid : List F) (radius : F) : Option F :=
  if query.length ≠ centroid.length ∨ query = [] then none
  else if norm query ≤ tiny then none
  else
    let distSq := (List.zipWith (fun q c => (q / norm query - c) * (q / norm query - c))
      query centroid).sum
    let d := max (HasSqrt.sqrt distSq - radius) 0
    some (1 / 2 * d * d)

/-- `keep_extent_by_vector`: missing or malformed statistics keep the extent. -/
def keepExtentByVector (stats : Json F) (col : String) (query : List F) (threshold : F) : Bool :=
  match (stats.get col).bind (·.get "vec") with
  | none => true
  | some vecStat =>
    match (vecStat.get "centroid").bind Json.asArray, (vecStat.get "radius").bind Json.asF64 with
    | none, _ => true
    | some _, none => true
    | some arr, some radius =>
      match cosineDistanceLowerBound query (arr.filterMap Json.asF64) radius with
      | some lb => lb < threshold
      | none => true

/-! ### Pruning in the SQLite catalog -/

def keepTime (timeRange : Option TimeRange) (m : ExtentManifest (Json F)) : Bool :=
  match timeRange with
  | none => true
  | some tr =>
    match m.minTimestamp, m.maxTimestamp with
    | some min, some max => max ≥ tr.startInclusive ∧ min < tr.endExclusive
    | _, _ => true

/-- Both catalogs: `present_paths @> …` is the same inclusion. -/
def keepPaths (requiredPaths : List String) (m : ExtentManifest (Json F)) : Bool :=
  requiredPaths.all fun p => p ∈ m.presentPaths

def keepColumn (stats : Json F) (col : String) : ColumnPrune (Json F) F → Bool
  | .equals v =>
    match distinctArray stats col with
    | some arr => v ∈ arr
    | none => true
  | .inSet vs =>
    match distinctArray stats col with
    | some arr => vs.any fun v => v ∈ arr
    | none => true
  | .between low high =>
    match distinctArray stats col with
    | some arr => arr.any fun x => inRange x low high
    | none => true
  | .containsTokens tokens =>
    match tokenArray stats col with
    | some toks => tokens.all fun t => Json.str t ∈ toks
    | none => true
  | .vectorDistance query threshold => keepExtentByVector stats col query threshold

def keepExtent (prune : PrunePredicate (Json F) F) (m : ExtentManifest (Json F)) : Bool :=
  keepTime prune.timeRange m && keepPaths prune.requiredPaths m &&
    prune.columnPredicates.all fun p => keepColumn m.columnStats p.1 p.2

/-! ### Pruning in the Postgres catalog -/

/-- A value of type `tstzrange`: empty, or half-open with `none` for an unbounded side. -/
inductive TsRange where
  | empty
  | span (lower upper : Option DateTime)
  deriving DecidableEq

/-- `tstzrange(a, b)`; an inverted range is an error. -/
def tstzrange (a b : Option DateTime) : Option TsRange :=
  match a, b with
  | some lo, some hi =>
    if hi < lo then none else if lo = hi then some .empty else some (.span (some lo) (some hi))
  | _, _ => some (.span a b)

def boundLt : Option DateTime → Option DateTime → Bool
  | some lo, some hi => lo < hi
  | _, _ => true

/-- `r && s`: the ranges have a point in common. -/
def TsRange.overlaps : TsRange → TsRange → Bool
  | .span lo₁ hi₁, .span lo₂ hi₂ => boundLt lo₁ hi₂ && boundLt lo₂ hi₁
  | _, _ => false

def pgKeepTime (timeRange : Option TimeRange) (m : ExtentManifest (Json F)) : Option Bool :=
  match timeRange with
  | none => some true
  | some tr => do
      let own ← tstzrange m.minTimestamp m.maxTimestamp
      let asked ← tstzrange (some tr.startInclusive) (some tr.endExclusive)
      pure (own.overlaps asked)

/-- Equality of `jsonb` values: numbers by value, the rest as they stand. -/
def jsonbEq (a b : Json F) : Bool :=
  match a.asF64, b.asF64 with
  | some x, some y => x = y
  | _, _ => a = b

/-- `left @> right` for an array on the right. -/
def jsonbContains (left : Json F) (right : List (Json F)) : Bool :=
  match left with
  | .arr items => right.all fun v => items.any fun x => jsonbEq x v
  | _ => false

/-- `col_ref IS NULL OR col_ref = 'null'::jsonb OR test`; the test may be an error. -/
def unknownOr (colRef : Option (Json F)) (test : Json F → Option Bool) : Option Bool :=
  match colRef with
  | none => some true
  | some .null => some true
  | some stat => test stat

/-- `EXISTS (SELECT 1 FROM jsonb_array_elements(stat) d(x) WHERE …)`; only an array has elements. -/
def existsElement (stat : Json F) (p : Json F → Bool) : Option Bool := stat.asArray.map fun items => items.any p

def pgKeepColumn (jsonbLe : Json F → Json F → Bool) (stats : Json F) (col : String) :
    ColumnPrune (Json F) F → Option Bool
  | .equals v =>
    unknownOr ((stats.get col).bind (·.get "distinct")) fun stat =>
      some (jsonbContains stat [v])
  | .inSet vs =>
    unknownOr ((stats.get col).bind (·.get "distinct")) fun stat =>
      existsElement stat fun x => vs.any fun v => jsonbEq x v
  | .between low high =>
    unknownOr ((stats.get col).bind (·.get "distinct")) fun stat =>
      existsElement stat fun x => jsonbLe low x && jsonbLe x high
  | .containsTokens tokens =>
    unknownOr ((stats.get col).bind (·.get "tokens")) fun stat =>
      some (jsonbContains stat (tokens.map Json.str))
  | .vectorDistance _ _ => some true

def allOk : List (Option Bool) → Option Bool
  | [] => some true
  | c :: cs => do
      let b ← c
      let bs ← allOk cs
      pure (b && bs)

/-- The `WHERE` clause beyond tenant, table and `deleted_at IS NULL`. -/
def pgWhere (jsonbLe : Json F → Json F → Bool) (prune : PrunePredicate (Json F) F)
    (m : ExtentManifest (Json F)) : Option Bool :=
  allOk (pgKeepTime prune.timeRange m :: some (keepPaths prune.requiredPaths m) ::
    prune.columnPredicates.map fun p => pgKeepColumn jsonbLe m.columnStats p.1 p.2)

def pgPostFilter (prune : PrunePredicate (Json F) F) (m : ExtentManifest (Json F)) : Bool :=
  prune.columnPredicates.all fun p =>
    match p.2 with
    | .vectorDistance query threshold => keepExtentByVector m.columnStats p.1 query threshold
    | _ => true

/-- Whether the query as a whole is an error: an inverted range in the predicate is one before any
row is looked at. -/
def pgRangeError (prune : PrunePredicate (Json F) F) : Bool :=
  match prune.timeRange with
  | none => false
  | some tr => (tstzrange (some tr.startInclusive) (some tr.endExclusive)).isNone

/-- `ORDER BY min_timestamp DESC NULLS LAST` -/
def listedBefore (a b : ExtentManifest (Json F)) : Bool :=
  match a.minTimestamp, b.minTimestamp with
  | some at', some bt => bt ≤ at'
  | some _, none => true
  | none, some _ => false
  | none, none => true

/-- `list_extents_in_tenant` of either catalog.  The snapshot is not used. -/
def listExtents (b : Backend) (jsonbLe : Json F → Json F → Bool) (db : Db (Json F))
    (tenant : TenantId) (tableId : TableId) (_snapshot : SnapshotId)
    (prune : PrunePredicate (Json F) F) : Except CatalogError (List (ExtentManifest (Json F))) :=
  let rows := liveExtents db tenant tableId
  match b with
  | .sqlite => .ok ((rows.filter (keepExtent prune)).insertionSort (listedBefore · ·))
  | .postgres =>
    if pgRangeError prune ∨ ∃ m ∈ rows, (pgWhere jsonbLe prune m).isNone then
      .error (.sql "invalid query argument")
    else
      .ok (((rows.filter fun m => pgWhere jsonbLe prune m = some true).filter
        (pgPostFilter prune)).insertionSort (listedBefore · ·))

/-! ### What is listed -/

theorem listExtents_sqlite (jsonbLe : Json F → Json F → Bool) (db : Db (Json F))
    (tenant : TenantId) (tableId : TableId) (snapshot : SnapshotId) (prune : PrunePredicate (Json F) F) :
    ∃ out, listExtents .sqlite jsonbLe db tenant tableId snapshot prune = .ok out ∧
      ∀ m, m ∈ out ↔ m ∈ liveExtents db tenant tableId ∧ keepExtent prune m := by
  refine ⟨_, rfl, fun m => ?_⟩
  rw [mem_insertionSort, mem_filter]

theorem keepExtent_default (m : ExtentManifest (Json F)) :
    keepExtent (PrunePredicate.default (Json F) F) m = true := rfl

omit [HasSqrt F] in
theorem pgWhere_default (jsonbLe : Json F → Json F → Bool) (m : ExtentManifest (Json F)) :
    pgWhere jsonbLe (PrunePredicate.default (Json F) F) m = some true := rfl

theorem listExtents_default (b : Backend) (jsonbLe : Json F → Json F → Bool) (db : Db (Json F))
    (tenant : TenantId) (tableId : TableId) (snapshot : SnapshotId) :
    ∃ out, listExtents b jsonbLe db tenant tableId snapshot (PrunePredicate.default (Json F) F) = .ok out ∧
      out.Perm (liveExtents db tenant tableId) := by
  cases b with
  | sqlite =>
    refine ⟨_, rfl, (perm_insertionSort _ _).trans ?_⟩
    rw [filter_eq_self.mpr fun m _ => keepExtent_default m]
  | postgres =>
    refine ⟨_, if_neg ?_, (perm_insertionSort _ _).trans ?_⟩
    · simp [pgRangeError, PrunePredicate.default, pgWhere, pgKeepTime, keepPaths, allOk]
    · rw [filter_eq_self.mpr, filter_eq_self.mpr]
      · intro m _
        simp [pgWhere_default]
      · intro m _
        simp [pgPostFilter, PrunePredicate.default]

end Catalog
