/-
**The two catalogs prune alike, except on touching ranges.**

The SQLite catalog says that its Rust-side pruning matches the Postgres catalog's results.  The path
and column tests do match.
-/

import Pensieve.EqualityPrune
import Pensieve.SnapshotCommit

namespace Catalog

open List

variable {F : Type} [Field F] [LinearOrder F] [HasSqrt F]

/-! ### Manifests and predicates -/

def IsKey (j : Json F) : Prop := (∃ s, j = .str s) ∨ ∃ n, j = .int n

/-- Statistics as the writer records them: a set is missing, `null`, or an array of keys. -/
structure StatsWellFormed (stats : Json F) : Prop where
  distinct : ∀ col d, (stats.get col).bind (·.get "distinct") = some d →
    d = .null ∨ ∃ items, d = .arr items ∧ ∀ x ∈ items, IsKey x
  tokens : ∀ col d, (stats.get col).bind (·.get "tokens") = some d →
    d = .null ∨ ∃ items, d = .arr items ∧ ∀ x ∈ items, IsKey x

structure WellFormed (m : ExtentManifest (Json F)) : Prop where
  stats : StatsWellFormed m.columnStats
  times : ∀ min max, m.minTimestamp = some min → m.maxTimestamp = some max → min ≤ max

/-- A column predicate as the planner makes them: no `BETWEEN`, and equality only with keys. -/
def ColumnPrune.IsKeyTest : ColumnPrune (Json F) F → Prop
  | .equals v => IsKey v
  | .inSet vs => ∀ v ∈ vs, IsKey v
  | .between _ _ => False
  | .containsTokens _ => True
  | .vectorDistance _ _ => True

def KeyPredicates (prune : PrunePredicate (Json F) F) : Prop := ∀ p ∈ prune.columnPredicates, p.2.IsKeyTest

section Columns

variable [CharZero F]

omit [HasSqrt F] in
theorem jsonbEq_of_isKey {a b : Json F} (ha : IsKey a) (hb : IsKey b) : jsonbEq a b = decide (a = b) := by
  rcases ha with ⟨s, rfl⟩ | ⟨n, rfl⟩ <;> rcases hb with ⟨t, rfl⟩ | ⟨k, rfl⟩ <;>
    simp [jsonbEq, Json.asF64]

omit [HasSqrt F] in
theorem any_jsonbEq {items : List (Json F)} (hitems : ∀ x ∈ items, IsKey x) {v : Json F}
    (hv : IsKey v) : (items.any fun x => jsonbEq x v) = decide (v ∈ items) := by
  induction items with
  | nil => rfl
  | cons x items ih =>
    rw [any_cons, ih fun y hy => hitems y (by simp [hy]), jsonbEq_of_isKey (hitems x (by simp)) hv]
    simp [eq_comm]

def keepInSql (stats : Json F) (col : String) : ColumnPrune (Json F) F → Bool
  | .vectorDistance _ _ => true
  | p => keepColumn stats col p

theorem pgKeepColumn_eq (jsonbLe : Json F → Json F → Bool) {stats : Json F}
    (hstats : StatsWellFormed stats) (col : String) {p : ColumnPrune (Json F) F}
    (hp : p.IsKeyTest) : pgKeepColumn jsonbLe stats col p = some (keepInSql stats col p) := by
  cases p with
  | equals v =>
    change pgKeepColumn jsonbLe stats col (.equals v) = some (keepColumn stats col (.equals v))
    rw [pgKeepColumn, keepColumn, distinctArray]
    cases hd : (stats.get col).bind (·.get "distinct") with
    | none => rfl
    | some d =>
      rcases hstats.distinct col d hd with rfl | ⟨items, rfl, hitems⟩
      · rfl
      · simp only [unknownOr, jsonbContains, all_cons, all_nil, Bool.and_true,
          Option.bind_some, Json.asArray, any_jsonbEq hitems hp]
  | inSet vs =>
    change pgKeepColumn jsonbLe stats col (.inSet vs) = some (keepColumn stats col (.inSet vs))
    rw [pgKeepColumn, keepColumn, distinctArray]
    cases hd : (stats.get col).bind (·.get "distinct") with
    | none => rfl
    | some d =>
      rcases hstats.distinct col d hd with rfl | ⟨items, rfl, hitems⟩
      · rfl
      · simp only [unknownOr, existsElement, Json.asArray, Option.map_some, Option.bind_some, Option.some.injEq]
        -- the two loops run over the two sets in either order
        rw [Bool.eq_iff_iff, any_eq_true, any_eq_true]
        constructor
        · intro h
          obtain ⟨x, hx, h⟩ := h
          obtain ⟨v, hv, heq⟩ := any_eq_true.mp h
          rw [jsonbEq_of_isKey (hitems x hx) (hp v hv), decide_eq_true_eq] at heq
          exact ⟨v, hv, decide_eq_true (heq ▸ hx)⟩
        · intro h
          obtain ⟨v, hv, hmem⟩ := h
          have hmem := of_decide_eq_true hmem
          refine ⟨v, hmem, any_eq_true.mpr ⟨v, hv, ?_⟩⟩
          rw [jsonbEq_of_isKey (hitems v hmem) (hp v hv)]
          exact decide_eq_true rfl
  | containsTokens tokens =>
    change pgKeepColumn jsonbLe stats col (.containsTokens tokens) = some (keepColumn stats col (.containsTokens tokens))
    rw [pgKeepColumn, keepColumn, tokenArray]
    cases hd : (stats.get col).bind (·.get "tokens") with
    | none => rfl
    | some d =>
      rcases hstats.tokens col d hd with rfl | ⟨items, rfl, hitems⟩
      · rfl
      · simp only [unknownOr, jsonbContains, Json.asArray, Option.bind_some, all_map, Option.some.injEq]
        congr 1
        funext t
        exact any_jsonbEq hitems (.inl ⟨t, rfl⟩)
  | between low high => exact hp.elim
  | vectorDistance query threshold => rfl

end Columns

/-! ### The time tests -/

/-- An extent on which the two time tests agree, for a range that does not end before it begins.  A
closed range that meets the asked range must be more than an instant, must not only touch its start,
and the asked range must not be empty; a missing bound must not matter. -/
def TimeAgrees (tr : TimeRange) (m : ExtentManifest (Json F)) : Prop :=
  match m.minTimestamp, m.maxTimestamp with
  | some min, some max =>
    tr.startInclusive ≤ max ∧ min < tr.endExclusive →
      min ≠ max ∧ tr.startInclusive ≠ max ∧ tr.startInclusive ≠ tr.endExclusive
  | none, some max => tr.startInclusive < max ∧ tr.startInclusive ≠ tr.endExclusive
  | some min, none => min < tr.endExclusive ∧ tr.startInclusive ≠ tr.endExclusive
  | none, none => tr.startInclusive ≠ tr.endExclusive

theorem tstzrange_of_le {a b : DateTime} (h : a ≤ b) :
    tstzrange (some a) (some b) = some (if a = b then .empty else .span (some a) (some b)) := by
  rw [tstzrange, if_neg (not_lt.mpr h)]
  split <;> rfl

omit [Field F] [LinearOrder F] [HasSqrt F] in
/-- The Postgres test passes no extent that the SQLite test drops, and they agree where
`TimeAgrees` says so. -/
theorem pgKeepTime_eq {tr : TimeRange} (htr : tr.startInclusive ≤ tr.endExclusive)
    {m : ExtentManifest (Json F)}
    (hm : ∀ min max, m.minTimestamp = some min → m.maxTimestamp = some max → min ≤ max) :
    ∃ t, pgKeepTime (some tr) m = some t ∧ (t = true → keepTime (some tr) m = true) ∧
      (keepTime (some tr) m = t ↔ TimeAgrees tr m) := by
  unfold pgKeepTime keepTime TimeAgrees
  dsimp only
  rw [tstzrange_of_le htr]
  by_cases hempty : tr.startInclusive = tr.endExclusive
  · -- nothing overlaps the empty range
    rw [if_pos hempty]
    cases hmin : m.minTimestamp with
    | none =>
      cases hmax : m.maxTimestamp with
      | none | some max => exact ⟨_, rfl, fun _ => rfl, by simp [TsRange.overlaps, hempty]⟩
    | some min =>
      cases hmax : m.maxTimestamp with
      | none => exact ⟨_, rfl, fun _ => rfl, by simp [TsRange.overlaps, hempty]⟩
      | some max =>
        rw [tstzrange_of_le (hm min max hmin hmax)]
        by_cases hinstant : min = max
        · exact ⟨_, rfl, by simp [TsRange.overlaps, hinstant], by simp [TsRange.overlaps, hinstant, hempty]⟩
        · exact ⟨_, rfl, by simp [TsRange.overlaps, hinstant], by simp [TsRange.overlaps, hinstant, hempty]⟩
  · rw [if_neg hempty]
    cases hmin : m.minTimestamp with
    | none =>
      cases hmax : m.maxTimestamp with
      | none | some max => exact ⟨_, rfl, fun _ => rfl, by simp [TsRange.overlaps, boundLt, hempty]⟩
    | some min =>
      cases hmax : m.maxTimestamp with
      | none => exact ⟨_, rfl, fun _ => rfl, by simp [TsRange.overlaps, boundLt, hempty]⟩
      | some max =>
        have hle := hm min max hmin hmax
        rw [tstzrange_of_le hle]
        by_cases hinstant : min = max
        · exact ⟨_, rfl, by simp [TsRange.overlaps, hinstant], by simp [TsRange.overlaps, hinstant]⟩
        · rw [if_neg hinstant]
          refine ⟨_, rfl, ?_, ?_⟩
          · simp only [TsRange.overlaps, boundLt, Bool.and_eq_true, decide_eq_true_eq]
            grind
          · simp only [TsRange.overlaps, boundLt, Bool.decide_and, ne_eq, hinstant, hempty]
            grind

/-! ### The listings -/

theorem allOk_map_some (l : List Bool) : allOk (l.map some) = some (l.all id) := by
  induction l with
  | nil => rfl
  | cons b l ih =>
    rw [map_cons, allOk, ih]
    rfl

def keepOther (prune : PrunePredicate (Json F) F) (m : ExtentManifest (Json F)) : Bool :=
  keepPaths prune.requiredPaths m && prune.columnPredicates.all fun p => keepColumn m.columnStats p.1 p.2

theorem keepExtent_eq (prune : PrunePredicate (Json F) F) (m : ExtentManifest (Json F)) :
    keepExtent prune m = (keepTime prune.timeRange m && keepOther prune m) := by
  rw [keepExtent, keepOther, Bool.and_assoc]

/-- What the `WHERE` clause tests of paths and columns. -/
def keepOtherInSql (prune : PrunePredicate (Json F) F) (m : ExtentManifest (Json F)) : Bool :=
  keepPaths prune.requiredPaths m && prune.columnPredicates.all fun p => keepInSql m.columnStats p.1 p.2

theorem keepOther_eq (prune : PrunePredicate (Json F) F) (m : ExtentManifest (Json F)) :
    keepOther prune m = (keepOtherInSql prune m && pgPostFilter prune m) := by
  have hcols : ∀ preds : List (String × ColumnPrune (Json F) F),
      (preds.all fun p => keepColumn m.columnStats p.1 p.2) =
        ((preds.all fun p => keepInSql m.columnStats p.1 p.2) && preds.all fun p =>
          match p.2 with
          | .vectorDistance query threshold => keepExtentByVector m.columnStats p.1 query threshold
          | _ => true) := by
    intro preds
    induction preds with
    | nil => rfl
    | cons p preds ih =>
      rw [all_cons, all_cons, all_cons, ih]
      cases p.2 with
      | vectorDistance query threshold => simp [keepColumn, keepInSql, Bool.and_left_comm]
      | _ => simp [keepInSql, Bool.and_assoc]
  rw [keepOther, keepOtherInSql, hcols, ← Bool.and_assoc]
  exact congrArg _ rfl

theorem pgWhere_eq [CharZero F] (jsonbLe : Json F → Json F → Bool)
    {prune : PrunePredicate (Json F) F} (hprune : KeyPredicates prune)
    {m : ExtentManifest (Json F)} (hm : WellFormed m) :
    pgWhere jsonbLe prune m = (pgKeepTime prune.timeRange m).map fun t => t && keepOtherInSql prune m := by
  have hcols : (prune.columnPredicates.map fun p => pgKeepColumn jsonbLe m.columnStats p.1 p.2) =
      (prune.columnPredicates.map fun p => keepInSql m.columnStats p.1 p.2).map some := by
    rw [map_map]
    refine map_congr_left ?_
    intro p hp
    exact pgKeepColumn_eq jsonbLe hm.stats p.1 (hprune p hp)
  have hrest : allOk (some (keepPaths prune.requiredPaths m) ::
      prune.columnPredicates.map fun p => pgKeepColumn jsonbLe m.columnStats p.1 p.2) =
      some (keepOtherInSql prune m) := by
    rw [hcols]
    have hall := allOk_map_some (keepPaths prune.requiredPaths m ::
      prune.columnPredicates.map fun p => keepInSql m.columnStats p.1 p.2)
    rw [map_cons] at hall
    rw [hall, keepOtherInSql, all_cons, all_map]
    rfl
  rw [pgWhere, allOk, hrest]
  cases pgKeepTime prune.timeRange m <;> rfl

/-- **The catalogs prune alike**: both list the same extents, among them every live extent that passes
the other tests and whose closed range contains an instant of the range that is asked for. -/
def PruneAlike (jsonbLe : Json F → Json F → Bool) (db : Db (Json F)) (tenant : TenantId)
    (tableId : TableId) (snapshot : SnapshotId) (prune : PrunePredicate (Json F) F) : Prop :=
  ∃ inSqlite inPostgres, listExtents .sqlite jsonbLe db tenant tableId snapshot prune = .ok inSqlite ∧
    listExtents .postgres jsonbLe db tenant tableId snapshot prune = .ok inPostgres ∧
    (∀ m, m ∈ inSqlite ↔ m ∈ inPostgres) ∧
    ∀ m ∈ liveExtents db tenant tableId, keepOther prune m = true →
      ∀ tr min max t, prune.timeRange = some tr → m.minTimestamp = some min →
        m.maxTimestamp = some max → min ≤ t → t ≤ max → tr.startInclusive ≤ t →
        t < tr.endExclusive → m ∈ inSqlite ∧ m ∈ inPostgres

theorem listExtents_postgres [CharZero F] (jsonbLe : Json F → Json F → Bool) {db : Db (Json F)}
    {tenant : TenantId} {tableId : TableId} (snapshot : SnapshotId)
    {prune : PrunePredicate (Json F) F}
    (hlive : ∀ m ∈ liveExtents db tenant tableId, WellFormed m) (hprune : KeyPredicates prune)
    (htr : ∀ tr, prune.timeRange = some tr → tr.startInclusive ≤ tr.endExclusive) :
    ∃ out, listExtents .postgres jsonbLe db tenant tableId snapshot prune = .ok out ∧
      ∀ m, m ∈ out ↔ m ∈ liveExtents db tenant tableId ∧
        pgKeepTime prune.timeRange m = some true ∧ keepOther prune m = true := by
  have hwhere : ∀ m ∈ liveExtents db tenant tableId, ∃ t,
      pgKeepTime prune.timeRange m = some t ∧ pgWhere jsonbLe prune m = some (t && keepOtherInSql prune m) := by
    intro m hm
    have hkeep : ∃ t, pgKeepTime prune.timeRange m = some t := by
      cases hr : prune.timeRange with
      | none => exact ⟨true, rfl⟩
      | some tr =>
        obtain ⟨t, ht, -⟩ := pgKeepTime_eq (htr tr hr) (hlive m hm).times
        exact ⟨t, ht⟩
    obtain ⟨t, ht⟩ := hkeep
    exact ⟨t, ht, by rw [pgWhere_eq jsonbLe hprune (hlive m hm), ht, Option.map_some]⟩
  have hrange : pgRangeError prune = false := by
    unfold pgRangeError
    split
    · rfl
    · rename_i tr hr
      rw [tstzrange_of_le (htr tr hr)]
      rfl
  refine ⟨_, if_neg ?_, ?_⟩
  · intro herr
    rcases herr with herr | ⟨m, hm, hnone⟩
    · rw [hrange] at herr
      cases herr
    · obtain ⟨t, -, hw⟩ := hwhere m hm
      rw [hw] at hnone
      cases hnone
  · intro m
    rw [mem_insertionSort, mem_filter, mem_filter]
    constructor
    · intro h
      obtain ⟨⟨hm, hw⟩, hpost⟩ := h
      obtain ⟨t, ht, hw'⟩ := hwhere m hm
      rw [hw'] at hw
      have hboth : (t && keepOtherInSql prune m) = true := by simpa using hw
      rw [Bool.and_eq_true] at hboth
      exact ⟨hm, by rw [ht, hboth.1], by rw [keepOther_eq, hboth.2, hpost, Bool.and_self]⟩
    · intro h
      obtain ⟨hm, ht, hother⟩ := h
      rw [keepOther_eq, Bool.and_eq_true] at hother
      refine ⟨⟨hm, ?_⟩, hother.2⟩
      rw [pgWhere_eq jsonbLe hprune (hlive m hm), ht, hother.1]
      rfl

/-- **When the catalogs prune alike.**  For every database whose manifests are as the writer makes
them and every predicate on times, paths and keys: exactly when the range does not end before it
begins, and the time tests agree on every live extent that passes the other tests. -/
theorem pruneAlike_iff_timeAgrees [CharZero F] (jsonbLe : Json F → Json F → Bool)
    {db : Db (Json F)} {tenant : TenantId} {tableId : TableId} (snapshot : SnapshotId)
    {prune : PrunePredicate (Json F) F}
    (hlive : ∀ m ∈ liveExtents db tenant tableId, WellFormed m) (hprune : KeyPredicates prune) :
    PruneAlike jsonbLe db tenant tableId snapshot prune ↔
      ∀ tr, prune.timeRange = some tr → tr.startInclusive ≤ tr.endExclusive ∧
        ∀ m ∈ liveExtents db tenant tableId, keepOther prune m = true → TimeAgrees tr m := by
  obtain ⟨inSqlite, hsqlite, hmemSqlite⟩ := listExtents_sqlite jsonbLe db tenant tableId snapshot prune
  constructor
  · intro h tr htr
    obtain ⟨out, inPostgres, hout, hpostgres, hsame, -⟩ := h
    rw [hsqlite] at hout
    cases hout
    have hle : tr.startInclusive ≤ tr.endExclusive := by
      by_contra hlt
      have herr : pgRangeError prune = true := by
        rw [pgRangeError, htr]
        dsimp only
        rw [tstzrange, if_pos (not_le.mp hlt)]
        rfl
      have hfail : listExtents .postgres jsonbLe db tenant tableId snapshot prune =
          .error (.sql "invalid query argument") := if_pos (.inl herr)
      rw [hfail] at hpostgres
      cases hpostgres
    have hle' : ∀ tr', prune.timeRange = some tr' → tr'.startInclusive ≤ tr'.endExclusive := by
      intro tr' htr'
      rw [htr] at htr'
      cases htr'
      exact hle
    obtain ⟨out, hout, hmemPostgres⟩ := listExtents_postgres jsonbLe snapshot hlive hprune hle'
    rw [hpostgres] at hout
    cases hout
    refine ⟨hle, ?_⟩
    intro m hm hother
    obtain ⟨t, ht, himp, hiff⟩ := pgKeepTime_eq hle (hlive m hm).times
    refine hiff.mp ?_
    -- listed by the one exactly if listed by the other, so the two tests have one outcome
    have hlists := hsame m
    rw [hmemSqlite, hmemPostgres, keepExtent_eq, htr, ht, hother, Bool.and_true] at hlists
    cases ht' : t with
    | true => exact himp ht'
    | false =>
      rw [ht'] at hlists
      simpa [hm] using hlists
  · intro h
    obtain ⟨inPostgres, hpostgres, hmemPostgres⟩ :=
      listExtents_postgres jsonbLe snapshot hlive hprune fun tr htr => (h tr htr).1
    have hsame : ∀ m, m ∈ inSqlite ↔ m ∈ inPostgres := by
      intro m
      rw [hmemSqlite, hmemPostgres, keepExtent_eq, Bool.and_eq_true]
      refine and_congr_right ?_
      intro hm
      cases htr : prune.timeRange with
      | none => simp [keepTime, pgKeepTime]
      | some tr =>
        obtain ⟨hle, hagree⟩ := h tr htr
        obtain ⟨t, ht, -, hiff⟩ := pgKeepTime_eq hle (hlive m hm).times
        rw [ht, Option.some.injEq]
        refine and_congr_left ?_
        intro hother
        rw [hiff.mpr (hagree m hm hother)]
    refine ⟨inSqlite, inPostgres, hsqlite, hpostgres, hsame, ?_⟩
    intro m hm hother tr min max t htr hmin hmax h₁ h₂ h₃ h₄
    have hin : m ∈ inSqlite := by
      rw [hmemSqlite, keepExtent_eq, hother, Bool.and_true]
      refine ⟨hm, ?_⟩
      simp only [keepTime, htr, hmin, hmax]
      exact decide_eq_true ⟨h₃.trans h₂, h₁.trans_lt h₄⟩
    exact ⟨hin, (hsame m).mp hin⟩

/-! ### Two small databases -/

def timedManifest (min max : DateTime) : ExtentManifest (Json ℚ) :=
  { smallManifest (.obj []) 100 with minTimestamp := some min, maxTimestamp := some max }

def oneExtentDb (min max : DateTime) : Db (Json ℚ) :=
  { tables := [], snapshots := [], manifests := []
    extents := [⟨timedManifest min max, 0, 50, none⟩] }

def rangePredicate (start stop : DateTime) : PrunePredicate (Json ℚ) ℚ :=
  { timeRange := some ⟨start, stop⟩, requiredPaths := [], columnPredicates := [] }

theorem wellFormed_oneExtentDb {min max : DateTime} (h : min ≤ max) :
    ∀ m ∈ liveExtents (oneExtentDb min max) 0 1, WellFormed m := by
  intro m hm
  obtain rfl : m = timedManifest min max := mem_singleton.mp hm
  refine ⟨⟨?_, ?_⟩, ?_⟩
  · intro col d hd
    cases hd
  · intro col d hd
    cases hd
  · intro a b ha hb
    cases ha
    cases hb
    exact h

/-- An extent from 5 to 7 is listed by both catalogs for the range from 6 to 10. -/
theorem pruneAlike_inside : PruneAlike (fun _ _ => true) (oneExtentDb 5 7) 0 1 11 (rangePredicate 6 10) := by
  refine (pruneAlike_iff_timeAgrees _ 11 (wellFormed_oneExtentDb (by decide)) ?_).mpr ?_
  · intro p hp
    cases hp
  · intro tr htr
    cases htr
    refine ⟨by decide, ?_⟩
    intro m hm _
    obtain rfl : m = timedManifest 5 7 := mem_singleton.mp hm
    exact fun _ => by decide

/-- **An extent of one instant is lost in Postgres.**  The range from 0 to 10 contains the instant
5, the SQLite catalog lists the extent, and the Postgres catalog does not. -/
theorem single_instant_extent_lost : liveExtents (oneExtentDb 5 5) 0 1 = [timedManifest 5 5] ∧
    listExtents .sqlite (fun _ _ => true) (oneExtentDb 5 5) 0 1 11 (rangePredicate 0 10) = .ok [timedManifest 5 5] ∧
    listExtents .postgres (fun _ _ => true) (oneExtentDb 5 5) 0 1 11 (rangePredicate 0 10) = .ok [] ∧
    ¬ PruneAlike (fun _ _ => true) (oneExtentDb 5 5) 0 1 11 (rangePredicate 0 10) := by
  have hsqlite : listExtents .sqlite (fun _ _ => true) (oneExtentDb 5 5) 0 1 11
      (rangePredicate 0 10) = .ok [timedManifest 5 5] := rfl
  have hpostgres : listExtents .postgres (fun _ _ => true) (oneExtentDb 5 5) 0 1 11
      (rangePredicate 0 10) = .ok [] := rfl
  refine ⟨rfl, hsqlite, hpostgres, ?_⟩
  intro h
  obtain ⟨inSqlite, inPostgres, hs, hp, hsame, -⟩ := h
  rw [hsqlite] at hs
  rw [hpostgres] at hp
  cases hs
  cases hp
  exact not_mem_nil ((hsame _).mp (mem_singleton.mpr rfl))

end Catalog

/-! ### What the writer and the planner make -/

namespace Exec

open List
open Arrow Catalog

variable {F : Type} [Field F] [LinearOrder F] [HasSqrt F]

omit [Field F] [LinearOrder F] [HasSqrt F] in
theorem isKey_setJson {α : Type} [LinearOrder α] {image : α → Json F} (h : ∀ x, IsKey (image x))
    (set : Option (List α)) : Tlm.setJson image set = .null ∨
      ∃ items, Tlm.setJson image set = .arr items ∧ ∀ x ∈ items, IsKey x := by
  cases set with
  | none => exact .inl rfl
  | some set =>
    refine .inr ⟨_, rfl, ?_⟩
    intro x hx
    obtain ⟨y, -, rfl⟩ := mem_map.mp hx
    exact h y

theorem finish_keys (a : Tlm.ColumnAcc F) {entry : Json F} (h : a.finish = some entry)
    {key : String} (hkey : key = "distinct" ∨ key = "tokens") {d : Json F}
    (hd : entry.get key = some d) : d = .null ∨ ∃ items, d = .arr items ∧ ∀ x ∈ items, IsKey x := by
  unfold Tlm.ColumnAcc.finish at h
  split at h
  · obtain ⟨v, -, rfl⟩ := Option.map_eq_some_iff.mp h
    rcases hkey with rfl | rfl <;> cases hd
  · cases h
    rcases hkey with rfl | rfl <;> cases hd <;> exact isKey_setJson (fun s => .inl ⟨s, rfl⟩) _
  · cases h
    rcases hkey with rfl | rfl
    · cases hd
      exact isKey_setJson (fun n => .inr ⟨n, rfl⟩) _
    · cases hd
      exact .inl rfl

theorem wellFormed_writeExtent {schema : Schema} {batches : List (RecordBatch F)}
    {result : Tlm.ExtentWriteResult F} (h : Tlm.writeExtent schema batches = some result)
    {m : ExtentManifest (Json F)} (hmin : m.minTimestamp = result.minTimestampNanos)
    (hmax : m.maxTimestamp = result.maxTimestampNanos)
    (hstats : m.columnStats = result.columnStats) : WellFormed m := by
  obtain ⟨w, -, rfl⟩ := Tlm.writeExtent_eq_some h
  have hkeys : ∀ key, key = "distinct" ∨ key = "tokens" → ∀ col d, (m.columnStats.get col).bind (·.get key) = some d →
        d = .null ∨ ∃ items, d = .arr items ∧ ∀ x ∈ items, IsKey x := by
    intro key hkey col d hd
    obtain ⟨entry, hentry, hd⟩ := Option.bind_eq_some_iff.mp hd
    rw [hstats] at hentry
    obtain ⟨a, -, ha⟩ := Tlm.exists_of_lookup_finish hentry
    exact finish_keys a ha hkey hd
  refine ⟨⟨hkeys "distinct" (.inl rfl), hkeys "tokens" (.inr rfl)⟩, ?_⟩
  intro lo hi hlo hhi
  obtain ⟨hmin', hmax'⟩ := Tlm.writeExtent_times h
  rw [hmin, hmin'] at hlo
  rw [hmax, hmax'] at hhi
  exact (min?_eq_some_iff.mp hlo).2 hi (max?_eq_some_iff.mp hhi).1

omit [Field F] [LinearOrder F] [HasSqrt F] in
theorem isKey_scalarToJson {lit : ScalarValue F} {j : Json F} (h : scalarToJson lit = some j) : IsKey j := by
  unfold scalarToJson at h
  split at h <;> cases h
  · exact .inl ⟨_, rfl⟩
  · exact .inl ⟨_, rfl⟩
  · exact .inr ⟨_, rfl⟩
  · exact .inr ⟨_, rfl⟩

omit [Field F] [LinearOrder F] [HasSqrt F] in
theorem isKey_walk {indexable : List String} {e : Expr F}
    {state state' : Option String × List (Json F)} (h : walk indexable e state = some state')
    (hstate : ∀ j ∈ state.2, IsKey j) : ∀ j ∈ state'.2, IsKey j := by
  induction e, state using walk.induct generalizing state' with
  | case1 left right state ihl ihr =>
    rw [walk] at h
    obtain ⟨mid, hmid, hright⟩ := Option.bind_eq_some_iff.mp h
    exact ihr mid hright (ihl hmid hstate)
  | case2 left right state =>
    rw [walk] at h
    obtain ⟨⟨n, lit⟩, -, h⟩ := Option.bind_eq_some_iff.mp h
    dsimp only at h
    split at h
    · cases h
    · obtain ⟨j, hj, h⟩ := Option.bind_eq_some_iff.mp h
      cases h
      intro k hk
      rcases mem_append.mp hk with hk | hk
      · exact hstate k hk
      · rw [mem_singleton.mp hk]
        exact isKey_scalarToJson hj
  | case3 e state h₁ h₂ =>
    rw [walk] at h
    · cases h
    · exact h₁
    · exact h₂

omit [Field F] [LinearOrder F] [HasSqrt F] in
theorem isKey_mapM {list : List (Expr F)} {vals : List (Json F)}
    (h : list.mapM literalToJson = some vals) : ∀ j ∈ vals, IsKey j := by
  induction list generalizing vals with
  | nil =>
    cases h
    simp
  | cons e list ih =>
    rw [mapM_cons] at h
    obtain ⟨j, hj, h⟩ := Option.bind_eq_some_iff.mp h
    obtain ⟨rest, hrest, h⟩ := Option.bind_eq_some_iff.mp h
    cases h
    intro k hk
    rcases mem_cons.mp hk with rfl | hk
    · cases e with
      | literal lit => exact isKey_scalarToJson hj
      | _ => cases hj
    · exact ih hrest k hk

omit [Field F] [LinearOrder F] [HasSqrt F] in
theorem isKeyTest_extractEquality {f : Expr F} {indexable : List String}
    {entry : String × ColumnPrune (Json F) F} (h : extractEquality f indexable = some entry) :
    entry.2.IsKeyTest := by
  unfold extractEquality at h
  split at h
  · obtain ⟨⟨c, lit⟩, -, h⟩ := Option.bind_eq_some_iff.mp h
    obtain ⟨j, hj, h⟩ := Option.bind_eq_some_iff.mp h
    cases h
    exact isKey_scalarToJson hj
  · obtain ⟨state, hleft, h⟩ := Option.bind_eq_some_iff.mp h
    obtain ⟨⟨c, values⟩, hright, h⟩ := Option.bind_eq_some_iff.mp h
    obtain ⟨n, -, h⟩ := Option.bind_eq_some_iff.mp h
    cases h
    exact isKey_walk hright (isKey_walk hleft (by simp))
  · split at h
    · obtain ⟨vals, hvals, rfl⟩ := Option.map_eq_some_iff.mp h
      exact isKey_mapM hvals
    · cases h
  · cases h

omit [LinearOrder F] [HasSqrt F] in
theorem keyPredicates_buildPrunePredicate (eng : Engine F) (table : TableRef)
    (filters : List (Expr F)) : KeyPredicates (buildPrunePredicate eng table filters) := by
  intro entry hmem
  obtain ⟨f, -, hpred⟩ := exists_filter_of_mem hmem
  rcases columnPredicate_eq_some hpred with hpred | ⟨tokens, htokens⟩ | ⟨query, threshold, hvec⟩
  · exact isKeyTest_extractEquality hpred
  · rw [htokens]
    trivial
  · rw [hvec]
    trivial

def Written (m : ExtentManifest (Json F)) : Prop :=
  ∃ schema batches result, Tlm.writeExtent schema batches = some result ∧ m.minTimestamp = result.minTimestampNanos ∧
    m.maxTimestamp = result.maxTimestampNanos ∧ m.columnStats = result.columnStats

def loggedDb (r : Tlm.ExtentWriteResult ℚ) : Db (Json ℚ) :=
  { oneExtentDb 0 0 with
    extents := [⟨{ timedManifest 0 0 with
      minTimestamp := r.minTimestampNanos, maxTimestamp := r.maxTimestampNanos, columnStats := r.columnStats }, 0, 50, none⟩] }

end Exec
