/-
**Equality pruning.**

An equality filter on a string or integer column becomes a test of the extent's distinct set.  The
writer puts the JSON image of every value of the column into that set, or drops the set; the planner
asks for the JSON image of the literal.
-/

import Pensieve.Planner

namespace Exec

open List
open Arrow Catalog Like

variable {F : Type} [Field F] [LinearOrder F] [HasSqrt F]

/-! ### The writer's side -/

def cellJson : Value F → Option (Json F)
  | .str s => some (.str s)
  | .int n => some (.int n)
  | _ => none

/-- **The distinct set is absent or exact.**  It is absent for a column whose type has none, or that
has as many distinct values as the cap; else it holds the images of the values, and nothing more. -/
def DistinctExact (stats : Json F) (f : Field) (cells : List (Value F)) : Prop :=
  match distinctArray stats f.name with
  | none =>
    (f.dataType ≠ .utf8 ∧ f.dataType ≠ .int32 ∧ f.dataType ≠ .int64) ∨
      Tlm.distinctSetCap ≤ (cells.filterMap cellJson).dedup.length
  | some arr => ∀ j, j ∈ arr ↔ ∃ v ∈ cells, cellJson v = some j

omit [Field F] [HasSqrt F] in
theorem distinctExact_of_set {α : Type} [LinearOrder α] {stats : Json F} {f : Field}
    {cells : List (Value F)} (proj : Value F → Option α) (image : α → Json F)
    (himage : Function.Injective image) (hproj : ∀ v ∈ cells, cellJson v = (proj v).map image)
    (hstats : (stats.get f.name).bind (·.get "distinct") =
      some (Tlm.setJson image ((cells.filterMap proj).foldl Tlm.pushDistinct (some [])))) :
    DistinctExact stats f cells := by
  have hcells : cells.filterMap cellJson = (cells.filterMap proj).map image := by
    rw [map_filterMap]
    exact filterMap_congr hproj
  cases hset : (cells.filterMap proj).foldl Tlm.pushDistinct (some []) with
  | none =>
    have harr : distinctArray stats f.name = none := by
      rw [distinctArray, hstats, hset]
      rfl
    rw [DistinctExact, harr]
    refine .inr ?_
    rw [hcells, dedup_map_of_injective himage, length_map]
    have hcap := Tlm.cap_le_of_foldl_pushDistinct nodup_nil (nil_subset []) hset
    exact hcap
  | some set =>
    have harr : distinctArray stats f.name = some ((set.insertionSort (· ≤ ·)).map image) := by
      rw [distinctArray, hstats, hset]
      rfl
    rw [DistinctExact, harr]
    intro j
    have hmem : ∀ x, x ∈ set ↔ x ∈ cells.filterMap proj := by
      intro x
      simpa using Tlm.mem_foldl_pushDistinct hset
    constructor
    · intro hj
      obtain ⟨x, hx, rfl⟩ := mem_map.mp hj
      rw [mem_insertionSort, hmem, mem_filterMap] at hx
      obtain ⟨v, hv, hvx⟩ := hx
      exact ⟨v, hv, by rw [hproj v hv, hvx, Option.map_some]⟩
    · intro hj
      obtain ⟨v, hv, hvj⟩ := hj
      rw [hproj v hv] at hvj
      obtain ⟨x, hx, rfl⟩ := Option.map_eq_some_iff.mp hvj
      refine mem_map_of_mem ?_
      rw [mem_insertionSort, hmem]
      exact mem_filterMap.mpr ⟨v, hv, hx⟩

omit [Field F] [HasSqrt F] in
theorem distinctExact_of_none {stats : Json F} {f : Field} {cells : List (Value F)}
    (hstats : (stats.get f.name).bind (·.get "distinct") = none)
    (htype : f.dataType ≠ .utf8 ∧ f.dataType ≠ .int32 ∧ f.dataType ≠ .int64) : DistinctExact stats f cells := by
  have harr : distinctArray stats f.name = none := by
    rw [distinctArray, hstats]
    rfl
  rw [DistinctExact, harr]
  exact .inl htype

omit [Field F] [LinearOrder F] [HasSqrt F] in
theorem cellJson_of_string {dt : DataType} (hdt : dt ∈ Tlm.IndexableKind.string.dataTypes) {v : Value F}
    (hv : dt.admits v = true) : cellJson v = (Tlm.asStr v).map Json.str := by
  simp only [Tlm.IndexableKind.dataTypes, mem_cons, not_mem_nil, or_false] at hdt
  rcases hdt with rfl | rfl <;> cases v <;> first | rfl | cases hv

omit [Field F] [LinearOrder F] [HasSqrt F] in
theorem cellJson_of_int {dt : DataType} (hdt : dt = .int32 ∨ dt = .int64) {v : Value F}
    (hv : dt.admits v = true) : cellJson v = (Tlm.asInt v).map Json.int := by
  rcases hdt with rfl | rfl <;> cases v <;> first | rfl | cases hv

section Extent

variable {table : TableRef} {schema : Schema} {batches : List (RecordBatch F)}
  {result : Tlm.ExtentWriteResult F}

/-- **The distinct set of every column of an extent is absent or exact**, whatever batches it was
written from. -/
theorem distinctExact (h : IsExtentOf table schema batches result) {i : ℕ} {f : Field}
    (hf : schema[i]? = some f) : DistinctExact result.columnStats f (Tlm.colCells batches i) := by
  have hadmits : ∀ v ∈ Tlm.colCells batches i, f.dataType.admits v = true := fun v hv =>
    Tlm.writeExtent_admits h.written hf hv
  cases hkind : Tlm.indexableKind f.dataType with
  | none =>
    refine distinctExact_of_none ?_ ?_
    · rw [Tlm.writeExtent_get_none h.distinct h.written hf hkind]
      rfl
    · refine ⟨?_, ?_, ?_⟩ <;> intro htype <;> simp [htype, Tlm.indexableKind] at hkind
  | some kind =>
    obtain ⟨a, rfl, hrec, hget⟩ := Tlm.writeExtent_get h.distinct h.written hf hkind
    have htype := Tlm.mem_dataTypes hkind
    unfold Tlm.ColumnAcc.Records at hrec
    unfold Tlm.ColumnAcc.finish at hget
    cases ha : a.kind with
    | string =>
      rw [ha] at hrec hget htype
      refine distinctExact_of_set Tlm.asStr Json.str (fun s t hst => Json.str.inj hst)
        (fun v hv => cellJson_of_string htype (hadmits v hv)) ?_
      rw [hget, ← hrec.1]
      rfl
    | int32 =>
      rw [ha] at hrec hget htype
      refine distinctExact_of_set Tlm.asInt Json.int (fun s t hst => Json.int.inj hst)
        (fun v hv => cellJson_of_int (.inl (mem_singleton.mp htype)) (hadmits v hv)) ?_
      rw [hget, ← hrec]
      rfl
    | int64 =>
      rw [ha] at hrec hget htype
      refine distinctExact_of_set Tlm.asInt Json.int (fun s t hst => Json.int.inj hst)
        (fun v hv => cellJson_of_int (.inr (mem_singleton.mp htype)) (hadmits v hv)) ?_
      rw [hget, ← hrec]
      rfl
    | vector dim =>
      rw [ha] at hget htype
      refine distinctExact_of_none ?_ (by simp [mem_singleton.mp htype])
      rw [hget]
      cases a.vectorStat <;> rfl

/-! ### The query's side -/

variable {lit : ScalarValue F} {j : Json F}

omit [HasSqrt F] in
theorem cellJson_of_eq (eng : Engine F) {dt : DataType}
    (hdt : dt = .utf8 ∨ dt = .largeUtf8 ∨ dt = .int32 ∨ dt = .int64) {v : Value F}
    (hv : dt.admits v = true) (heq : compareDatum eng .eq (cellDatum dt v) (scalarDatum lit) = some true)
    (hj : scalarToJson lit = some j) : cellJson v = some j := by
  -- only strings and integers are admitted, and only literals of these two have an image
  have hcell : cellDatum dt v = match v with
      | .str s => .str s
      | .int n => .int n
      | _ => .null := by
    rcases hdt with rfl | rfl | rfl | rfl <;> cases v <;> first | rfl | cases hv
  rw [hcell] at heq
  unfold scalarToJson at hj
  split at hj <;> cases hj <;> cases v <;> simp_all [compareDatum, scalarDatum, Operator.test, cellJson]

omit [HasSqrt F] in
theorem compareDatum_eq_comm (eng : Engine F) (x y : Datum F) :
    compareDatum eng .eq x y = compareDatum eng .eq y x := by
  cases x <;> cases y <;> simp [compareDatum, Operator.test, eq_comm]

def HasImage (schema : Schema) (batches : List (RecordBatch F)) (col : String) (j : Json F) : Prop :=
  ∃ i f v, schema[i]? = some f ∧ f.name = col ∧ v ∈ Tlm.colCells batches i ∧ cellJson v = some j

variable {b : RecordBatch F} {col : String}

theorem hasImage_of_eq (h : IsExtentOf table schema batches result) (eng : Engine F)
    (hb : b ∈ batches) {row : ℕ} (hcol : col ∈ indexableCols table)
    (heq : compareDatum eng .eq (columnDatum b row col) (scalarDatum lit) = some true)
    (hj : scalarToJson lit = some j) : HasImage schema batches col j := by
  have hne : columnDatum b row col ≠ .null := by
    intro hnull
    rw [hnull] at heq
    cases heq
  obtain ⟨i, f, v, hf, rfl, hv, hadmits, hdatum⟩ := h.columnDatum_ne_null hb hne
  have hdt := (TableRef.mem_names (mem_of_getElem? (h.getElem? hf))).mp hcol
  rw [hdatum] at heq
  exact ⟨i, f, v, hf, rfl, hv, cellJson_of_eq eng (by simpa using hdt) hadmits heq hj⟩

omit [Field F] [LinearOrder F] [HasSqrt F] in
theorem columnAndLiteral_eq_some {indexable : List String} {left right : Expr F}
    (h : columnAndLiteral indexable left right = some (col, lit)) :
    col ∈ indexable ∧ (left = .column col ∧ right = .literal lit ∨ left = .literal lit ∧ right = .column col) := by
  unfold columnAndLiteral at h
  split at h
  · split at h
    · rename_i hmem
      cases h
      exact ⟨hmem, .inl ⟨rfl, rfl⟩⟩
    · cases h
  · split at h
    · rename_i hmem
      cases h
      exact ⟨hmem, .inr ⟨rfl, rfl⟩⟩
    · cases h
  · cases h

theorem hasImage_of_leaf (h : IsExtentOf table schema batches result) (eng : Engine F)
    (hb : b ∈ batches) {row : ℕ} {left right : Expr F}
    (hleaf : columnAndLiteral (indexableCols table) left right = some (col, lit))
    (hj : scalarToJson lit = some j) (htrue : holds eng b row (.binary left .eq right) = some true) :
    HasImage schema batches col j := by
  obtain ⟨hcol, ⟨rfl, rfl⟩ | ⟨rfl, rfl⟩⟩ := columnAndLiteral_eq_some hleaf
  · exact hasImage_of_eq h eng hb hcol htrue hj
  · have hswap : compareDatum eng .eq (columnDatum b row col) (scalarDatum lit) = some true := by
      rw [compareDatum_eq_comm]
      exact htrue
    exact hasImage_of_eq h eng hb hcol hswap hj

omit [Field F] [LinearOrder F] [HasSqrt F] in
theorem walk_grows {indexable : List String} {e : Expr F}
    {state state' : Option String × List (Json F)} (h : walk indexable e state = some state') :
    (∀ c, state.1 = some c → state'.1 = some c) ∧ ∀ j ∈ state.2, j ∈ state'.2 := by
  induction e, state using walk.induct generalizing state' with
  | case1 left right state ihl ihr =>
    rw [walk] at h
    obtain ⟨mid, hmid, hright⟩ := Option.bind_eq_some_iff.mp h
    obtain ⟨hcol, hvals⟩ := ihl hmid
    obtain ⟨hcol', hvals'⟩ := ihr mid hright
    exact ⟨fun c hc => hcol' c (hcol c hc), fun j hj => hvals' j (hvals j hj)⟩
  | case2 left right state =>
    rw [walk] at h
    obtain ⟨⟨n, lit⟩, -, h⟩ := Option.bind_eq_some_iff.mp h
    dsimp only at h
    split at h
    · cases h
    · rename_i hsame
      obtain ⟨j, -, h⟩ := Option.bind_eq_some_iff.mp h
      cases h
      refine ⟨?_, fun j hj => mem_append_left _ hj⟩
      intro c hc
      rw [hc] at hsame
      simpa using Eq.symm (by simpa using hsame)
  | case3 e state h₁ h₂ =>
    rw [walk] at h
    · cases h
    · exact h₁
    · exact h₂

theorem hasImage_of_walk (h : IsExtentOf table schema batches result) (eng : Engine F)
    (hb : b ∈ batches) {row : ℕ} {e : Expr F} {state state' : Option String × List (Json F)}
    (hwalk : walk (indexableCols table) e state = some state') (htrue : holds eng b row e = some true) :
    ∃ col j, state'.1 = some col ∧ j ∈ state'.2 ∧ HasImage schema batches col j := by
  induction e, state using walk.induct generalizing state' with
  | case1 left right state ihl ihr =>
    rw [walk] at hwalk
    obtain ⟨mid, hmid, hright⟩ := Option.bind_eq_some_iff.mp hwalk
    rw [holds, Tlm.or3_eq_true] at htrue
    rcases htrue with hl | hr
    · obtain ⟨col, j, hcol, hj, himage⟩ := ihl hmid hl
      obtain ⟨hkeepCol, hkeepVals⟩ := walk_grows hright
      exact ⟨col, j, hkeepCol col hcol, hkeepVals j hj, himage⟩
    · exact ihr mid hright hr
  | case2 left right state =>
    rw [walk] at hwalk
    obtain ⟨⟨n, lit⟩, hleaf, hwalk⟩ := Option.bind_eq_some_iff.mp hwalk
    dsimp only at hwalk
    split at hwalk
    · cases hwalk
    · obtain ⟨j, hj, hwalk⟩ := Option.bind_eq_some_iff.mp hwalk
      cases hwalk
      exact ⟨n, j, rfl, by simp, hasImage_of_leaf h eng hb hleaf hj htrue⟩
  | case3 e state h₁ h₂ =>
    rw [walk] at hwalk
    · cases hwalk
    · exact h₁
    · exact h₂

/-! ### Keeping the extent -/

theorem mem_distinctArray (h : IsExtentOf table schema batches result)
    (himage : HasImage schema batches col j) {arr : List (Json F)}
    (harr : distinctArray result.columnStats col = some arr) : j ∈ arr := by
  obtain ⟨i, f, v, hf, rfl, hv, hj⟩ := himage
  have hexact := distinctExact h hf
  rw [DistinctExact, harr] at hexact
  exact (hexact j).mpr ⟨v, hv, hj⟩

theorem keepColumn_equals (h : IsExtentOf table schema batches result) (himage : HasImage schema batches col j) :
    keepColumn result.columnStats col (.equals j) = true := by
  rw [keepColumn]
  split
  · rename_i arr harr
    exact decide_eq_true (mem_distinctArray h himage harr)
  · rfl

theorem keepColumn_inSet (h : IsExtentOf table schema batches result) {vals : List (Json F)}
    (hj : j ∈ vals) (himage : HasImage schema batches col j) :
    keepColumn result.columnStats col (.inSet vals) = true := by
  rw [keepColumn]
  split
  · rename_i arr harr
    exact any_eq_true.mpr ⟨j, hj, decide_eq_true (mem_distinctArray h himage harr)⟩
  · rfl

omit [Field F] [LinearOrder F] [HasSqrt F] in
theorem mem_of_mapM_literalToJson {list : List (Expr F)} {vals : List (Json F)}
    (h : list.mapM literalToJson = some vals) {e : Expr F} (he : e ∈ list) :
    ∃ lit j, e = .literal lit ∧ scalarToJson lit = some j ∧ j ∈ vals := by
  induction list generalizing vals with
  | nil => cases he
  | cons x list ih =>
    rw [mapM_cons] at h
    obtain ⟨j, hj, h⟩ := Option.bind_eq_some_iff.mp h
    obtain ⟨rest, hrest, h⟩ := Option.bind_eq_some_iff.mp h
    cases h
    rcases mem_cons.mp he with rfl | he
    · cases e with
      | literal lit => exact ⟨lit, j, rfl, hj, mem_cons_self⟩
      | _ => cases hj
    · obtain ⟨lit, k, hlit, hk, hmem⟩ := ih hrest he
      exact ⟨lit, k, hlit, hk, mem_cons_of_mem _ hmem⟩

/-- **One filter.**  An extent with a row that satisfies an equality filter passes the test that the
filter becomes. -/
theorem keepColumn_of_holds (h : IsExtentOf table schema batches result) (eng : Engine F)
    (hb : b ∈ batches) {row : ℕ} {f : Expr F} {prune : ColumnPrune (Json F) F}
    (hextract : extractEquality f (indexableCols table) = some (col, prune))
    (htrue : holds eng b row f = some true) : keepColumn result.columnStats col prune = true := by
  unfold extractEquality at hextract
  split at hextract
  · rename_i left right
    obtain ⟨⟨c, lit⟩, hleaf, hextract⟩ := Option.bind_eq_some_iff.mp hextract
    obtain ⟨j, hj, hextract⟩ := Option.bind_eq_some_iff.mp hextract
    cases hextract
    exact keepColumn_equals h (hasImage_of_leaf h eng hb hleaf hj htrue)
  · rename_i left right
    obtain ⟨state, hleft, hextract⟩ := Option.bind_eq_some_iff.mp hextract
    obtain ⟨⟨c, values⟩, hright, hextract⟩ := Option.bind_eq_some_iff.mp hextract
    obtain ⟨n, hn, hextract⟩ := Option.bind_eq_some_iff.mp hextract
    cases hextract
    -- the two arms are one step of the walk
    have hwalk : walk (indexableCols table) (.binary left .or right) (none, []) = some (c, values) := by
      rw [walk, hleft, Option.bind_some]
      exact hright
    obtain ⟨col', j, hcol', hj, himage⟩ := hasImage_of_walk h eng hb hwalk htrue
    obtain rfl : col' = col := by
      rw [show c = some col from hn] at hcol'
      exact (Option.some.inj hcol').symm
    exact keepColumn_inSet h hj himage
  · rename_i c list
    split at hextract
    · rename_i hc
      obtain ⟨vals, hvals, heq⟩ := Option.map_eq_some_iff.mp hextract
      cases heq
      rw [holds, negateIf, Option.map_eq_some_iff] at htrue
      obtain ⟨t, ht, htt⟩ := htrue
      obtain rfl : t = true := by simpa using htt
      rw [Tlm.foldr_or3_eq_true] at ht
      obtain ⟨e, he, hcmp⟩ := mem_map.mp ht
      obtain ⟨lit, j, rfl, hlit, hj⟩ := mem_of_mapM_literalToJson hvals he
      exact keepColumn_inSet h hj (hasImage_of_eq h eng hb hc hcmp hlit)
    · cases hextract
  · cases hextract

/-! ### The scan -/

def isEquality : ColumnPrune (Json F) F → Bool
  | .equals _ => true
  | .inSet _ => true
  | _ => false

def equalityPart (prune : PrunePredicate (Json F) F) : PrunePredicate (Json F) F :=
  { timeRange := none, requiredPaths := []
    columnPredicates := prune.columnPredicates.filter fun p => isEquality p.2 }

omit [LinearOrder F] [HasSqrt F] in
theorem extractEquality_of_mem {eng : Engine F} {filters : List (Expr F)}
    {entry : String × ColumnPrune (Json F) F}
    (hmem : entry ∈ (buildPrunePredicate eng table filters).columnPredicates) (heq : isEquality entry.2 = true) :
    ∃ f ∈ filters, extractEquality f (indexableCols table) = some entry := by
  obtain ⟨f, hf, hpred⟩ := exists_filter_of_mem hmem
  rcases columnPredicate_eq_some hpred with hpred | ⟨tokens, htokens⟩ | ⟨query, threshold, hvec⟩
  · exact ⟨f, hf, hpred⟩
  · rw [htokens] at heq
    cases heq
  · rw [hvec] at heq
    cases heq

/-- **Equality pruning never loses a row.**  For every extent of a table, every list of filters and
every row of the extent: each distinct set that the extent records is absent or exact; equal values
have one image; a filter that the row satisfies keeps the extent; and a row that satisfies the
equality filters of the list has its extent listed under all the equality tests of the scan. -/
theorem equality_pruning_sound (eng : Engine F) (h : IsExtentOf table schema batches result) (filters : List (Expr F)) :
    (∀ i f, schema[i]? = some f → DistinctExact result.columnStats f (Tlm.colCells batches i)) ∧
    (∀ dt : DataType, dt = .utf8 ∨ dt = .largeUtf8 ∨ dt = .int32 ∨ dt = .int64 →
      ∀ (v : Value F) (lit : ScalarValue F) (j : Json F), dt.admits v = true →
        compareDatum eng .eq (cellDatum dt v) (scalarDatum lit) = some true →
        scalarToJson lit = some j → cellJson v = some j) ∧
    ∀ b ∈ batches, ∀ row, (∀ f ∈ filters, ∀ col prune, extractEquality f (indexableCols table) = some (col, prune) →
        holds eng b row f = some true → keepColumn result.columnStats col prune = true) ∧
      ((∀ f ∈ filters, (extractEquality f (indexableCols table)).isSome → holds eng b row f = some true) →
        ∀ jsonbLe db tenant tableId snapshot m, m ∈ liveExtents db tenant tableId → m.columnStats = result.columnStats →
          ∃ out, listExtents .sqlite jsonbLe db tenant tableId snapshot
              (equalityPart (buildPrunePredicate eng table filters)) = .ok out ∧ m ∈ out) := by
  refine ⟨fun i f hf => distinctExact h hf, ?_, ?_⟩
  · intro dt hdt v lit j hv heq hj
    exact cellJson_of_eq eng hdt hv heq hj
  · intro b hb row
    refine ⟨fun f _ col prune hextract htrue => keepColumn_of_holds h eng hb hextract htrue, ?_⟩
    intro htrue jsonbLe db tenant tableId snapshot m hlive hstats
    obtain ⟨out, hout, hmem⟩ := listExtents_sqlite jsonbLe db tenant tableId snapshot
      (equalityPart (buildPrunePredicate eng table filters))
    refine ⟨out, hout, (hmem m).mpr ⟨hlive, ?_⟩⟩
    have hcols : ∀ p ∈ (equalityPart (buildPrunePredicate eng table filters)).columnPredicates,
        keepColumn m.columnStats p.1 p.2 = true := by
      intro p hp
      obtain ⟨hp, heq⟩ := mem_filter.mp hp
      obtain ⟨f, hf, hextract⟩ := extractEquality_of_mem hp heq
      rw [hstats]
      exact keepColumn_of_holds h eng hb hextract (htrue f hf (by rw [hextract]; rfl))
    rw [keepExtent, Bool.and_eq_true]
    exact ⟨rfl, all_eq_true.mpr hcols⟩

end Extent

/-! ### A small table -/

def plainEngine : Engine ℚ :=
  { parseTimestamp := fun _ => none, parseFromRfc3339 := fun _ => none
    parse_agree := by simp
    sameLetter := fun c d => c.toLower = d.toLower
    sameLetter_refl := by simp
    cast := fun _ _ => .null, value := fun _ _ _ => .null, truth := fun _ _ _ => none }

def logTable : TableRef :=
  { schema := [⟨"at", .timestamp .nanosecond none⟩, ⟨"service", .utf8⟩, ⟨"code", .int32⟩]
    distinct := by decide }

def logBatch : RecordBatch ℚ :=
  { schema := logTable.schema
    columns := [[.ts 5, .ts 7], [.str "api", .str "db"], [.int 200, .null]], numRows := 2
    width := rfl, height := by simp
    typed := by simp [logTable, DataType.admits, InI64] }

/-- The filter `service = 'cache' OR service = 'db'`. -/
def serviceFilter : Expr ℚ :=
  .binary (.binary (.column "service") .eq (.literal (.utf8 (some "cache")))) .or
    (.binary (.literal (.utf8 (some "db"))) .eq (.column "service"))

/-- The second line satisfies the filter, so its extent passes the test that the filter becomes. -/
theorem equality_pruning_sound_logBatch : ∃ result, IsExtentOf logTable logTable.schema [logBatch] result ∧
      extractEquality serviceFilter (indexableCols logTable) = some ("service", .inSet [.str "cache", .str "db"]) ∧
      keepColumn result.columnStats "service" (.inSet [.str "cache", .str "db"]) = true := by
  have hwritten : IsExtentOf logTable logTable.schema [logBatch]
      ((Tlm.writeExtent logTable.schema [logBatch]).get (by decide)) :=
    ⟨prefix_rfl, by simp⟩
  have hextract : extractEquality serviceFilter (indexableCols logTable) =
      some ("service", .inSet [.str "cache", .str "db"]) := by decide
  refine ⟨_, hwritten, hextract, ?_⟩
  exact ((equality_pruning_sound plainEngine hwritten [serviceFilter]).2.2 logBatch (by simp) 1).1
    serviceFilter (by simp) _ _ hextract (by decide)

end Exec
