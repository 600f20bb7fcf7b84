/-
**Vector pruning.**

A bound on the cosine distance of an embedding column becomes a test of the extent's centroid and
radius.  In exact arithmetic the lower bound that the two give is right for every row that the
statistics cover.
-/

import Pensieve.UnitSphere
import Pensieve.EqualityPrune

namespace Exec

open List
open Arrow Catalog Like

/-! ### The filter -/

variable {col : String}

section Filter

variable {F : Type} [Field F] [LinearOrder F] [HasSqrt F]

omit [LinearOrder F] [HasSqrt F] in
theorem scalarToF64_eq (s : ScalarValue F) : scalarToF64 s = (scalarDatum s).number := by
  unfold scalarToF64
  split
  · rfl
  · rfl
  · rfl
  · rfl
  · rename_i h₁ h₂ h₃ h₄
    cases s with
    | utf8 v | largeUtf8 v | timestamp u v tz => cases v <;> rfl
    | other repr => rfl
    | int32 v =>
      cases v with
      | none => rfl
      | some n => exact absurd rfl (h₄ n)
    | int64 v =>
      cases v with
      | none => rfl
      | some n => exact absurd rfl (h₃ n)
    | float32 v =>
      cases v with
      | none => rfl
      | some x => exact absurd rfl (h₂ x)
    | float64 v =>
      cases v with
      | none => rfl
      | some x => exact absurd rfl (h₁ x)

omit [HasSqrt F] in
theorem compareDatum_threshold (eng : Engine F) {s : ScalarValue F} {t : F}
    (h : scalarToF64 s = some t) (op : Operator) (x : F) :
    compareDatum eng op (.float x) (scalarDatum s) = op.test x t ∧
      compareDatum eng op (scalarDatum s) (.float x) = op.test t x := by
  rw [scalarToF64_eq] at h
  cases hd : scalarDatum s with
  | int n | float y =>
    rw [hd] at h
    cases h
    exact ⟨rfl, rfl⟩
  | _ =>
    rw [hd] at h
    cases h

variable {arr : Expr F}

omit [LinearOrder F] [HasSqrt F] in
theorem vecOperand_of_decodeMakeArray {eng : Engine F} {b : RecordBatch F} {row : ℕ} {query : List F}
    (h : decodeMakeArray arr = some query) : vecOperand eng b row arr = some query := by
  unfold decodeMakeArray at h
  split at h
  · rename_i name args
    split at h
    · cases h
    · rename_i hname
      have hname' : name = "make_array" := by
        by_contra hne
        exact hname (.inl hne)
      rw [vecOperand, if_pos hname', ← h]
      congr 1
      funext a
      cases a with
      | literal s => exact (scalarToF64_eq s).symm
      | _ => rfl
  · cases h

variable {cols : List String}

omit [Field F] [LinearOrder F] [HasSqrt F] in
theorem vectorArgument_eq_some {x y : Expr F} (h : vectorArgument cols x y = some (col, arr)) :
    col ∈ cols ∧ (x = .column col ∧ y = arr ∨ y = .column col ∧ x = arr) := by
  unfold vectorArgument at h
  split at h
  · rename_i c
    split at h
    · rename_i hmem
      cases h
      exact ⟨hmem, .inl ⟨rfl, rfl⟩⟩
    · split at h
      · rename_i d
        split at h
        · rename_i hmem
          cases h
          exact ⟨hmem, .inr ⟨rfl, rfl⟩⟩
        · cases h
      · cases h
  · rename_i d hcol
    split at h
    · rename_i hmem
      cases h
      exact ⟨hmem, .inr ⟨rfl, rfl⟩⟩
    · cases h
  · cases h

theorem cosine_comm (a b : List F) : cosine a b = cosine b a := by
  have hmul : (List.zipWith (· * ·) a b) = List.zipWith (· * ·) b a := zipWith_comm_of_comm fun x y => mul_comm x y
  have hbad : (a.length ≠ b.length ∨ a = []) ↔ (b.length ≠ a.length ∨ b = []) := by
    rw [ne_comm]
    refine or_congr_right' fun hlen => ?_
    rw [← length_eq_zero_iff, ← length_eq_zero_iff, not_not.mp hlen]
  simp only [cosine, hmul, hbad, or_comm (a := (a.map fun x => x * x).sum = 0),
    mul_comm (HasSqrt.sqrt (a.map fun x => x * x).sum)]

def distanceDatum (b : RecordBatch F) (row : ℕ) (col : String) (query : List F) : Datum F :=
  match columnDatum b row col with
  | .vec v => (cosine v query).elim .null .float
  | _ => .null

theorem operand_distance {eng : Engine F} {b : RecordBatch F} {row : ℕ} {x y : Expr F}
    {query : List F} (hargs : x = .column col ∧ y = arr ∨ y = .column col ∧ x = arr)
    (harr : decodeMakeArray arr = some query) : operand eng b row (.scalarFunction "cosine_distance" [x, y]) =
      distanceDatum b row col query := by
  have hvec : vecOperand eng b row arr = some query := vecOperand_of_decodeMakeArray harr
  unfold distanceDatum
  rcases hargs with ⟨rfl, rfl⟩ | ⟨rfl, rfl⟩
  · rw [operand, hvec, vecOperand]
    cases columnDatum b row col <;> rfl
  · rw [operand, hvec, vecOperand]
    cases hdatum : columnDatum b row col with
    | vec v =>
      dsimp only
      rw [cosine_comm]
    | _ => rfl

def isStrict : Expr F → Bool
  | .binary _ .lt _ => true
  | .binary _ .gt _ => true
  | _ => false

def WithinThreshold (strict : Bool) (x t : F) : Prop := if strict then x < t else x ≤ t

theorem distanceDatum_cases (b : RecordBatch F) (row : ℕ) (col : String) (query : List F) :
    (∃ v x, columnDatum b row col = .vec v ∧ cosine v query = some x ∧ distanceDatum b row col query = .float x) ∨
    ((∀ v x, columnDatum b row col = .vec v → cosine v query ≠ some x) ∧ distanceDatum b row col query = .null) := by
  unfold distanceDatum
  cases hdatum : columnDatum b row col with
  | vec v =>
    cases hcos : cosine v query with
    | none =>
      refine .inr ⟨?_, by simp [hcos]⟩
      intro w x hw
      cases hw
      simp [hcos]
    | some x => exact .inl ⟨v, x, rfl, hcos, by simp [hcos]⟩
  | _ => exact .inr ⟨by simp, rfl⟩

theorem compare_distance (eng : Engine F) (b : RecordBatch F) (row : ℕ) (col : String)
    (query : List F) {s : ScalarValue F} {t : F} (ht : scalarToF64 s = some t) (op : Operator) :
    (compareDatum eng op (distanceDatum b row col query) (scalarDatum s) = some true ↔
      ∃ v x, columnDatum b row col = .vec v ∧ cosine v query = some x ∧ op.test x t = some true) ∧
    (compareDatum eng op (scalarDatum s) (distanceDatum b row col query) = some true ↔
      ∃ v x, columnDatum b row col = .vec v ∧ cosine v query = some x ∧ op.test t x = some true) := by
  rcases distanceDatum_cases b row col query with ⟨v, x, hv, hx, hd⟩ | ⟨hnone, hd⟩
  · obtain ⟨hleft, hright⟩ := compareDatum_threshold eng ht op x
    have huniq : ∀ P : F → Prop, (∃ w y, columnDatum b row col = .vec w ∧ cosine w query = some y ∧ P y) ↔ P x := by
      intro P
      constructor
      · intro ⟨w, y, hw, hy, hP⟩
        rw [hv] at hw
        cases hw
        rw [hx] at hy
        cases hy
        exact hP
      · intro hP
        exact ⟨v, x, hv, hx, hP⟩
    rw [hd, hleft, hright, huniq, huniq]
    exact ⟨Iff.rfl, Iff.rfl⟩
  · rw [hd]
    constructor
    · constructor
      · intro hcmp
        exact absurd rfl (ne_null_of_compareDatum hcmp).1
      · intro ⟨v, x, hv, hx, _⟩
        exact absurd hx (hnone v x hv)
    · constructor
      · intro hcmp
        exact absurd rfl (ne_null_of_compareDatum hcmp).2
      · intro ⟨v, x, hv, hx, _⟩
        exact absurd hx (hnone v x hv)

/-- **The filters that are pushed down**: a bound from above on the distance between the column and
an array of numbers, either way round. -/
inductive IsVectorFilter (col : String) (query : List F) (t : F) : Expr F → Prop where
  | lt {x y arr : Expr F} {s : ScalarValue F}
      (args : x = .column col ∧ y = arr ∨ y = .column col ∧ x = arr)
      (array : decodeMakeArray arr = some query) (threshold : scalarToF64 s = some t) :
      IsVectorFilter col query t (.binary (.scalarFunction "cosine_distance" [x, y]) .lt (.literal s))
  | ltEq {x y arr : Expr F} {s : ScalarValue F}
      (args : x = .column col ∧ y = arr ∨ y = .column col ∧ x = arr)
      (array : decodeMakeArray arr = some query) (threshold : scalarToF64 s = some t) :
      IsVectorFilter col query t (.binary (.scalarFunction "cosine_distance" [x, y]) .ltEq (.literal s))
  | gt {x y arr : Expr F} {s : ScalarValue F}
      (args : x = .column col ∧ y = arr ∨ y = .column col ∧ x = arr)
      (array : decodeMakeArray arr = some query) (threshold : scalarToF64 s = some t) :
      IsVectorFilter col query t (.binary (.literal s) .gt (.scalarFunction "cosine_distance" [x, y]))
  | gtEq {x y arr : Expr F} {s : ScalarValue F}
      (args : x = .column col ∧ y = arr ∨ y = .column col ∧ x = arr)
      (array : decodeMakeArray arr = some query) (threshold : scalarToF64 s = some t) :
      IsVectorFilter col query t (.binary (.literal s) .gtEq (.scalarFunction "cosine_distance" [x, y]))

omit [LinearOrder F] [HasSqrt F] in
theorem vectorArgument_of_array {x y : Expr F} {query : List F}
    (hargs : x = .column col ∧ y = arr ∨ y = .column col ∧ x = arr)
    (harr : decodeMakeArray arr = some query) (hmem : col ∈ cols) : vectorArgument cols x y = some (col, arr) := by
  rcases hargs with ⟨rfl, rfl⟩ | ⟨rfl, rfl⟩
  · exact if_pos hmem
  · cases x with
    | scalarFunction name args => exact if_pos hmem
    | _ => cases harr

omit [LinearOrder F] [HasSqrt F] in
theorem extractVectorDistance_eq_some_iff {f : Expr F} {col : String} {query : List F} {t : F} :
    extractVectorDistance f cols = some (col, .vectorDistance query t) ↔ col ∈ cols ∧ IsVectorFilter col query t f := by
  constructor
  · intro hextract
    unfold extractVectorDistance at hextract
    split at hextract
    · rename_i left op right
      obtain ⟨⟨dist, thresh⟩, hsides, hextract⟩ := Option.bind_eq_some_iff.mp hextract
      dsimp only at hextract
      split at hextract
      · rename_i x y
        obtain ⟨⟨c, arr⟩, hargs, hextract⟩ := Option.bind_eq_some_iff.mp hextract
        obtain ⟨q, hquery, hextract⟩ := Option.bind_eq_some_iff.mp hextract
        cases thresh with
        | literal s =>
          obtain ⟨u, hu, hextract⟩ := Option.bind_eq_some_iff.mp hextract
          cases hextract
          obtain ⟨hmem, hargs⟩ := vectorArgument_eq_some hargs
          refine ⟨hmem, ?_⟩
          -- the sides of the comparison, by its operator
          cases op with
          | lt =>
            cases hsides
            exact .lt hargs hquery hu
          | ltEq =>
            cases hsides
            exact .ltEq hargs hquery hu
          | gt =>
            cases hsides
            exact .gt hargs hquery hu
          | gtEq =>
            cases hsides
            exact .gtEq hargs hquery hu
          | _ => cases hsides
        | _ => cases hextract
      · cases hextract
    · cases hextract
  · intro ⟨hmem, hfilter⟩
    cases hfilter with
    | lt args array threshold | ltEq args array threshold | gt args array threshold
    | gtEq args array threshold =>
      simp [extractVectorDistance, distanceAndThreshold, vectorArgument_of_array args array hmem, array, threshold]

/-- **The truth of a filter that is pushed down**: the row has a vector, and its distance from the
query is within the threshold. -/
theorem holds_vectorFilter (eng : Engine F) {f : Expr F} {query : List F} {t : F}
    (hf : IsVectorFilter col query t f) (b : RecordBatch F) (row : ℕ) : holds eng b row f = some true ↔
      ∃ v x, columnDatum b row col = .vec v ∧ cosine v query = some x ∧ WithinThreshold (isStrict f) x t := by
  cases hf with
  | lt args array threshold =>
    rw [holds_binary (by simp) (by simp), operand_distance args array, operand,
      (compare_distance eng b row col query threshold .lt).1]
    simp [Operator.test, WithinThreshold, isStrict]
  | ltEq args array threshold =>
    rw [holds_binary (by simp) (by simp), operand_distance args array, operand,
      (compare_distance eng b row col query threshold .ltEq).1]
    simp [Operator.test, WithinThreshold, isStrict]
  | gt args array threshold =>
    rw [holds_binary (by simp) (by simp), operand_distance args array, operand,
      (compare_distance eng b row col query threshold .gt).2]
    simp [Operator.test, WithinThreshold, isStrict]
  | gtEq args array threshold =>
    rw [holds_binary (by simp) (by simp), operand_distance args array, operand,
      (compare_distance eng b row col query threshold .gtEq).2]
    simp [Operator.test, WithinThreshold, isStrict]

end Filter

/-! ### The distance in exact arithmetic -/

open UnitSphere

theorem tiny_pos : (0 : ℝ) < tiny := by
  unfold tiny
  positivity

variable {v : List ℝ}

theorem norm_eq {n : ℕ} (hv : v.length = n) : Catalog.norm v = ‖vec n v‖ := (norm_vec hv).symm

theorem norm_normalize {n : ℕ} {v : List ℝ} (hv : v.length = n) (hne : Catalog.norm v ≠ 0) :
    ‖vec n (Tlm.normalize v)‖ = 1 := by
  rw [norm_eq hv] at hne
  rw [Tlm.normalize, vec_div, norm_eq hv]
  exact norm_smul_inv_norm (norm_ne_zero_iff.mp hne)

theorem length_normalize (v : List ℝ) : (Tlm.normalize v).length = v.length := length_map _

theorem sum_sq_eq_zero_iff (v : List ℝ) : (v.map fun x => x * x).sum = 0 ↔ Catalog.norm v = 0 := by
  have hnonneg : 0 ≤ (v.map fun x => x * x).sum := by
    refine sum_nonneg ?_
    intro y hy
    obtain ⟨x, -, rfl⟩ := mem_map.mp hy
    exact mul_self_nonneg x
  exact (Real.sqrt_eq_zero hnonneg).symm

theorem cosine_eq_some_iff {a b : List ℝ} {x : ℝ} :
    cosine a b = some x ↔ a.length = b.length ∧ a ≠ [] ∧ Catalog.norm a ≠ 0 ∧
      Catalog.norm b ≠ 0 ∧ x = 1 - inner ℝ (vec a.length (Tlm.normalize a)) (vec a.length (Tlm.normalize b)) := by
  unfold cosine
  by_cases hlen : a.length = b.length
  · by_cases hnil : a = []
    · simp [hnil]
    · simp only [hlen, hnil, ne_eq, not_true_eq_false, or_self, if_false, true_and,
        not_false_eq_true, sum_sq_eq_zero_iff]
      by_cases hzero : Catalog.norm a = 0 ∨ Catalog.norm b = 0
      · rw [if_pos hzero]
        simp only [reduceCtorEq, false_iff]
        tauto
      · obtain ⟨ha, hb⟩ := not_or.mp hzero
        rw [if_neg hzero]
        have hinner : inner ℝ (vec a.length (Tlm.normalize a)) (vec a.length (Tlm.normalize b)) =
            (List.zipWith (· * ·) a b).sum / (Catalog.norm a * Catalog.norm b) := by
          rw [Tlm.normalize, Tlm.normalize, vec_div, vec_div, real_inner_smul_left,
            real_inner_smul_right, inner_vec rfl hlen.symm]
          field_simp
        rw [hinner]
        simp only [Option.some.injEq, ha, hb, not_false_eq_true, true_and]
        exact eq_comm
  · simp [hlen]

variable {radius : ℝ}

variable {centroid : List ℝ}

theorem cosineDistanceLowerBound_eq {query : List ℝ} (hlen : query.length = centroid.length)
    (hne : query ≠ []) (hlong : tiny < Catalog.norm query) : cosineDistanceLowerBound query centroid radius =
      some (ballBound (vec query.length (Tlm.normalize query)) (vec query.length centroid) radius) := by
  have hzip : List.zipWith (fun q c => (q / Catalog.norm query - c) * (q / Catalog.norm query - c))
      query centroid = List.zipWith (fun x c => (x - c) * (x - c)) (Tlm.normalize query) centroid := by
    rw [Tlm.normalize, zipWith_map_left]
  unfold cosineDistanceLowerBound
  rw [if_neg (by simp [hlen, hne]), if_neg (not_le.mpr hlong), hzip, ballBound,
    dist_vec (length_normalize query) hlen.symm]
  rfl

theorem cosineDistanceLowerBound_short {query : List ℝ}
    (hshort : Catalog.norm query ≤ tiny) : cosineDistanceLowerBound query centroid radius = none := by
  unfold cosineDistanceLowerBound
  rw [if_pos hshort, ite_self]

/-! ### The statistics of an extent -/

variable {rows : List (List ℝ)}

theorem centroidDistance_le_vecRadius {r : List ℝ}
    (hr : r ∈ rows) : Tlm.centroidDistance centroid r ≤ Tlm.vecRadius centroid rows := by
  have hrun : ∀ (rows : List (List ℝ)) (start : ℝ),
      start ≤ rows.foldl (fun radius r => if Tlm.centroidDistance centroid r > radius then
        Tlm.centroidDistance centroid r else radius) start ∧
      ∀ r ∈ rows, Tlm.centroidDistance centroid r ≤ rows.foldl (fun radius r =>
        if Tlm.centroidDistance centroid r > radius then Tlm.centroidDistance centroid r
        else radius) start := by
    intro rows
    induction rows with
    | nil => simp
    | cons r rows ih =>
      intro start
      obtain ⟨hstart, hrows⟩ := ih
        (if Tlm.centroidDistance centroid r > start then Tlm.centroidDistance centroid r else start)
      have hstep : start ≤ (if Tlm.centroidDistance centroid r > start then
          Tlm.centroidDistance centroid r else start) ∧
        Tlm.centroidDistance centroid r ≤ (if Tlm.centroidDistance centroid r > start then
          Tlm.centroidDistance centroid r else start) := by
        split
        · rename_i hgt
          exact ⟨hgt.le, le_rfl⟩
        · rename_i hle
          exact ⟨le_rfl, not_lt.mp hle⟩
      refine ⟨hstep.1.trans hstart, ?_⟩
      intro r' hr'
      rcases mem_cons.mp hr' with rfl | hr'
      · exact hstep.2.trans hstart
      · exact hrows r' hr'
  exact (hrun rows 0).2 r hr

noncomputable def meanOf (dim : ℕ) (units : List (List ℝ)) : List ℝ :=
  (units.foldl (List.zipWith (· + ·)) (List.replicate dim 0)).map (· / (units.length : ℝ))

variable {dim : ℕ}

theorem length_meanOf {units : List (List ℝ)} (hunits : ∀ u ∈ units, u.length = dim) :
    (meanOf dim units).length = dim := by
  have hrun : ∀ start : List ℝ, start.length = dim → (units.foldl (List.zipWith (· + ·)) start).length = dim := by
    induction units with
    | nil => exact fun start hstart => hstart
    | cons u units ih =>
      intro start hstart
      refine ih (fun w hw => hunits w (mem_cons_of_mem _ hw)) _ ?_
      rw [length_zipWith, hstart, hunits u mem_cons_self, min_self]
  rw [meanOf, length_map]
  exact hrun _ length_replicate

def recordedBall (stats : Json ℝ) (col : String) : Option (List ℝ × ℝ) :=
  ((stats.get col).bind (·.get "vec")).bind fun v =>
    ((v.get "centroid").bind Json.asArray).bind fun arr =>
      ((v.get "radius").bind Json.asF64).map fun radius => (arr.filterMap Json.asF64, radius)

theorem keepExtentByVector_eq (stats : Json ℝ) (col : String) (query : List ℝ) (t : ℝ) :
    keepExtentByVector stats col query t = (recordedBall stats col).all fun ball =>
        (cosineDistanceLowerBound query ball.1 ball.2).all fun lb => lb < t := by
  unfold keepExtentByVector recordedBall
  cases (stats.get col).bind (·.get "vec") with
  | none => rfl
  | some v =>
    dsimp only [Option.bind_some]
    cases (v.get "centroid").bind Json.asArray with
    | none => rfl
    | some arr =>
      cases (v.get "radius").bind Json.asF64 with
      | none => rfl
      | some radius =>
        dsimp only [Option.bind_some, Option.map_some, Option.all_some]
        cases cosineDistanceLowerBound query (arr.filterMap Json.asF64) radius <;> rfl

/-- **What an extent records of an embedding column**: nothing, if it has no row or too many; else
the mean and the radius of the directions of the rows that are not too short. -/
theorem recordedBall_cases {table : TableRef} {schema : Schema} {batches : List (RecordBatch ℝ)}
    {result : Tlm.ExtentWriteResult ℝ} (h : IsExtentOf table schema batches result) {i : ℕ}
    {f : Field} (hf : schema[i]? = some f)
    (hdt : f.dataType = .fixedSizeList .float32 dim) {units : List (List ℝ)}
    (hunits : Tlm.unitRows (Tlm.colCells batches i) = units) : (recordedBall result.columnStats f.name = none ∧
      (units = [] ∨ Tlm.vecRowCap < units.length)) ∨ (units ≠ [] ∧ recordedBall result.columnStats f.name =
      some (meanOf dim units, Tlm.vecRadius (meanOf dim units) units)) := by
  have hkind : Tlm.indexableKind f.dataType = some (.vector dim) := by rw [hdt]; rfl
  obtain ⟨a, hk, hrec, hget⟩ := Tlm.writeExtent_get h.distinct h.written hf hkind
  rw [Tlm.ColumnAcc.Records, hk, hunits] at hrec
  have hfinish : a.finish = a.vectorStat.map fun v => .obj [("vec", v)] := by
    rw [Tlm.ColumnAcc.finish, hk]
  rcases hrec with ⟨hsum, hmany⟩ | ⟨hsum, hrows, hcount⟩
  · refine .inl ⟨?_, .inr hmany⟩
    rw [recordedBall, hget, hfinish, Tlm.ColumnAcc.vectorStat, hsum]
    rfl
  · by_cases hempty : units = []
    · refine .inl ⟨?_, .inl hempty⟩
      rw [recordedBall, hget, hfinish, Tlm.ColumnAcc.vectorStat, hsum, hrows, hcount, hempty]
      rfl
    · refine .inr ⟨hempty, ?_⟩
      have hne : a.vecCount ≠ 0 := by
        rw [hcount]
        exact fun hzero => hempty (length_eq_zero_iff.mp hzero)
      have hfloats : ((meanOf dim units).map Json.float).filterMap Json.asF64 = meanOf dim units := by
        rw [filterMap_map]
        exact filterMap_some
      rw [recordedBall, hget, hfinish, Tlm.ColumnAcc.vectorStat, hsum, hrows]
      simp only [Option.bind_eq_bind, Option.bind_some, if_neg hne, Option.map_some]
      rw [hcount]
      exact congrArg (fun c => some (c, Tlm.vecRadius (meanOf dim units) units)) hfloats

theorem mem_unitRows {cells : List (Value ℝ)} {u : List ℝ} :
    u ∈ Tlm.unitRows cells ↔ ∃ v, Value.vec v ∈ cells ∧ tiny < Catalog.norm v ∧ Tlm.normalize v = u := by
  simp only [Tlm.unitRows, mem_map, mem_filter, mem_filterMap, decide_eq_true_eq, not_le]
  constructor
  · rintro ⟨v, ⟨⟨c, hc, hcv⟩, hlong⟩, hu⟩
    cases c with
    | vec w =>
      cases hcv
      exact ⟨v, hc, hlong, hu⟩
    | _ => cases hcv
  · rintro ⟨v, hv, hlong, hu⟩
    exact ⟨v, ⟨⟨_, hv, rfl⟩, hlong⟩, hu⟩

/-! ### The lower bound -/

variable {query : List ℝ}

section Extent

variable {table : TableRef} {schema : Schema} {batches : List (RecordBatch ℝ)}
  {result : Tlm.ExtentWriteResult ℝ}

variable {centroid : List ℝ}

theorem recordedBall_holds (h : IsExtentOf table schema batches result) {i : ℕ} {f : Field}
    (hf : schema[i]? = some f) {dim : ℕ} (hdt : f.dataType = .fixedSizeList .float32 dim) {radius : ℝ}
    (hball : recordedBall result.columnStats f.name = some (centroid, radius)) :
    centroid.length = dim ∧ Tlm.unitRows (Tlm.colCells batches i) ≠ [] ∧
      ∀ u ∈ Tlm.unitRows (Tlm.colCells batches i), u.length = dim ∧ ‖vec dim u‖ = 1 ∧
        dist (vec dim u) (vec dim centroid) ≤ radius := by
  rcases recordedBall_cases h hf hdt rfl with ⟨hnone, -⟩ | ⟨hne, hsome⟩
  · rw [hball] at hnone
    cases hnone
  · rw [hball] at hsome
    cases hsome
    have hrow : ∀ u ∈ Tlm.unitRows (Tlm.colCells batches i), u.length = dim ∧ ‖vec dim u‖ = 1 := by
      intro u hu
      obtain ⟨v, hv, hlong, rfl⟩ := mem_unitRows.mp hu
      have hlen : v.length = dim := by
        have hadmits := Tlm.writeExtent_admits h.written hf hv
        rw [hdt] at hadmits
        simpa [DataType.admits] using hadmits
      exact ⟨(length_normalize v).trans hlen, norm_normalize hlen (ne_of_gt (tiny_pos.trans hlong))⟩
    have hmean := length_meanOf fun u hu => (hrow u hu).1
    refine ⟨hmean, hne, fun u hu => ⟨(hrow u hu).1, (hrow u hu).2, ?_⟩⟩
    rw [dist_vec (hrow u hu).1 hmean]
    exact centroidDistance_le_vecRadius hu

theorem lowerBound_le_inner (h : IsExtentOf table schema batches result) {i : ℕ} {f : Field}
    (hf : schema[i]? = some f) (hdt : f.dataType = .fixedSizeList .float32 dim)
    (hball : recordedBall result.columnStats f.name = some (centroid, radius)) {lb : ℝ}
    (hlb : cosineDistanceLowerBound query centroid radius = some lb) :
    query.length = dim ∧ ‖vec dim (Tlm.normalize query)‖ = 1 ∧ ∀ u ∈ Tlm.unitRows (Tlm.colCells batches i),
        lb ≤ 1 - inner ℝ (vec dim (Tlm.normalize query)) (vec dim u) := by
  obtain ⟨hcentroid, -, hunits⟩ := recordedBall_holds h hf hdt hball
  have hshape : query.length = centroid.length ∧ query ≠ [] := by
    by_contra hbad
    have : cosineDistanceLowerBound query centroid radius = none := if_pos (by tauto)
    rw [this] at hlb
    cases hlb
  have hlong : tiny < Catalog.norm query := by
    by_contra hshort
    rw [cosineDistanceLowerBound_short (not_lt.mp hshort)] at hlb
    cases hlb
  have hquery : query.length = dim := hshape.1.trans hcentroid
  rw [cosineDistanceLowerBound_eq hshape.1 hshape.2 hlong, hquery] at hlb
  cases hlb
  have hunit : ‖vec dim (Tlm.normalize query)‖ = 1 := norm_normalize hquery (ne_of_gt (tiny_pos.trans hlong))
  refine ⟨hquery, hunit, fun u hu => ?_⟩
  obtain ⟨-, hu', hnear⟩ := hunits u hu
  exact ballBound_le hunit hu' hnear

theorem lowerBound_le_cosine (h : IsExtentOf table schema batches result) {i : ℕ} {f : Field}
    (hf : schema[i]? = some f) (hdt : f.dataType = .fixedSizeList .float32 dim)
    (hball : recordedBall result.columnStats f.name = some (centroid, radius)) {query v : List ℝ}
    {lb x : ℝ} (hlb : cosineDistanceLowerBound query centroid radius = some lb)
    (hv : Value.vec v ∈ Tlm.colCells batches i) (hlong : tiny < Catalog.norm v)
    (hx : cosine v query = some x) : lb ≤ x := by
  obtain ⟨hquery, -, hbound⟩ := lowerBound_le_inner h hf hdt hball hlb
  obtain ⟨hlen, -, -, -, rfl⟩ := cosine_eq_some_iff.mp hx
  rw [hlen, hquery, real_inner_comm]
  exact hbound _ (mem_unitRows.mpr ⟨v, hv, hlong, rfl⟩)

theorem lowerBound_le_two (h : IsExtentOf table schema batches result) {i : ℕ} {f : Field}
    (hf : schema[i]? = some f) {dim : ℕ} (hdt : f.dataType = .fixedSizeList .float32 dim)
    (hball : recordedBall result.columnStats f.name = some (centroid, radius)) {lb : ℝ}
    (hlb : cosineDistanceLowerBound query centroid radius = some lb) : lb ≤ 2 := by
  obtain ⟨-, hne, hunits⟩ := recordedBall_holds h hf hdt hball
  obtain ⟨-, hquery, hbound⟩ := lowerBound_le_inner h hf hdt hball hlb
  obtain ⟨u, hu⟩ := exists_mem_of_ne_nil _ hne
  exact (hbound u hu).trans (one_sub_inner_le_two hquery (hunits u hu).2.1)

end Extent

/-! ### Which rows are lost -/

/-- **Vector pruning does not lose a row vector**: every extent with a row that has the vector and
satisfies the filter passes the test that the filter becomes. -/
def VectorPruningSound (eng : Engine ℝ) (f : Expr ℝ) (col : String) (query : List ℝ) (t : ℝ) (v : List ℝ) : Prop :=
  ∀ (table : TableRef) (schema : Schema) (batches : List (RecordBatch ℝ))
    (result : Tlm.ExtentWriteResult ℝ), IsExtentOf table schema batches result →
    ∀ b ∈ batches, ∀ row, extractVectorDistance f (floatVectorCols table) = some (col, .vectorDistance query t) →
      columnDatum b row col = .vec v → holds eng b row f = some true →
      keepColumn result.columnStats col (.vectorDistance query t) = true

/-- **The row vectors that are not lost.**  The vector does not satisfy the filter; or the threshold
is above every distance; or the query is too short for a bound; or the vector is long enough for the
statistics, and nearer than the threshold. -/
def VectorSafe (strict : Bool) (query : List ℝ) (t : ℝ) (v : List ℝ) : Prop :=
  ∀ x, cosine v query = some x → WithinThreshold strict x t →
    2 < t ∨ Catalog.norm query ≤ tiny ∨ (tiny < Catalog.norm v ∧ x < t)

theorem vectorPruningSound_of_vectorSafe {eng : Engine ℝ} {f : Expr ℝ} {t : ℝ} (hfilter : IsVectorFilter col query t f)
    (hsafe : VectorSafe (isStrict f) query t v) : VectorPruningSound eng f col query t v := by
  intro table schema batches result h b hb row hextract hdatum htrue
  obtain ⟨w, x, hw, hx, hwithin⟩ := (holds_vectorFilter eng hfilter b row).mp htrue
  rw [hdatum] at hw
  cases hw
  have hcol := (extractVectorDistance_eq_some_iff.mp hextract).1
  obtain ⟨i, g, c, hg, rfl, hc, hadmits, hcell⟩ := h.columnDatum_ne_null hb (by rw [hdatum]; simp)
  obtain ⟨dim, hdt⟩ : ∃ dim, g.dataType = .fixedSizeList .float32 dim := by
    have hkind := (TableRef.mem_names (mem_of_getElem? (h.getElem? hg))).mp hcol
    split at hkind
    · rename_i dim heq
      exact ⟨dim, heq⟩
    · cases hkind
  have hv : Value.vec v ∈ Tlm.colCells batches i := by
    rw [hdatum, hdt] at hcell
    cases c with
    | vec xs =>
      cases hcell
      exact hc
    | _ => cases hcell
  rw [keepColumn, keepExtentByVector_eq]
  cases hball : recordedBall result.columnStats g.name with
  | none => rfl
  | some ball =>
    rw [Option.all_some]
    cases hlb : cosineDistanceLowerBound query ball.1 ball.2 with
    | none => rfl
    | some lb =>
      rw [Option.all_some, decide_eq_true_eq]
      rcases hsafe x hx hwithin with htwo | hshort | ⟨hlong, hlt⟩
      · exact (lowerBound_le_two h hg hdt hball hlb).trans_lt htwo
      · rw [cosineDistanceLowerBound_short hshort] at hlb
        cases hlb
      · exact (lowerBound_le_cosine h hg hdt hball hlb hv hlong hx).trans_lt hlt

/-! ### Extents that are dropped -/

theorem ne_append_at (col : String) : col ≠ col ++ "_at" := by
  intro heq
  have hlen := congrArg String.length heq
  rw [String.length_append] at hlen
  exact absurd hlen (by simp)

def vecTable (col : String) (dim : ℕ) : TableRef :=
  { schema := [⟨col, .fixedSizeList .float32 dim⟩, ⟨col ++ "_at", .timestamp .nanosecond none⟩]
    distinct := by simp [Schema.Distinct, ne_append_at] }

def vecBatch (col : String) (dim : ℕ) (rows : List (List ℝ)) (hrows : ∀ r ∈ rows, r.length = dim) : RecordBatch ℝ :=
  { schema := (vecTable col dim).schema
    columns := [rows.map .vec, rows.map fun _ => .null], numRows := rows.length
    width := rfl, height := by simp
    typed := by simpa [vecTable, DataType.admits] using hrows }

theorem exists_vecExtent (col : String) (dim : ℕ) (rows : List (List ℝ)) (hrows : ∀ r ∈ rows, r.length = dim) :
    ∃ result, IsExtentOf (vecTable col dim) (vecTable col dim).schema [vecBatch col dim rows hrows] result := by
  have hwritten : ∃ result, Tlm.writeExtent (vecTable col dim).schema
      [vecBatch col dim rows hrows] = some result :=
    Tlm.writeExtent_isSome (by simp [vecBatch]) (by simp [vecTable])
  obtain ⟨result, hresult⟩ := hwritten
  exact ⟨result, prefix_rfl, hresult⟩

theorem columnDatum_vecBatch (col : String) (hrows : ∀ r ∈ v :: rows, r.length = dim) :
    columnDatum (vecBatch col dim (v :: rows) hrows) 0 col = .vec v := by
  simp [columnDatum, vecBatch, vecTable, RecordBatch.cell, indexOf, findIdx?_cons, RecordBatch.column, cellDatum]

theorem unitRows_vecBatch (col : String) (dim : ℕ) (rows : List (List ℝ)) (hrows : ∀ r ∈ rows, r.length = dim) :
    Tlm.unitRows (Tlm.colCells [vecBatch col dim rows hrows] 0) =
      (rows.filter fun v => ¬ Catalog.norm v ≤ tiny).map Tlm.normalize := by
  have hcells : Tlm.colCells [vecBatch col dim rows hrows] 0 = rows.map .vec := by
    simp [Tlm.colCells, vecBatch, RecordBatch.column]
  have hvecs : (rows.map Value.vec).filterMap Tlm.asVec = rows := by
    rw [filterMap_map]
    exact filterMap_some
  rw [hcells, Tlm.unitRows, hvecs]

theorem meanOf_singleton {u : List ℝ} (hu : u.length = dim) : meanOf dim [u] = u := by
  have hsum : List.zipWith (· + ·) (List.replicate dim (0 : ℝ)) u = u := by
    subst hu
    induction u with
    | nil => rfl
    | cons x u ih => rw [length_cons, replicate_succ, zipWith_cons_cons, ih, zero_add]
  rw [meanOf, foldl_cons, foldl_nil, hsum]
  simp

theorem vecRadius_singleton (u : List ℝ) : Tlm.vecRadius u [u] = 0 := by
  have hself : Tlm.centroidDistance u u = 0 := by
    have hdist := dist_self (vec u.length u)
    rw [dist_vec rfl rfl] at hdist
    exact hdist
  simp [Tlm.vecRadius, hself]

theorem keepColumn_oneDirection {hrows : ∀ r ∈ rows, r.length = dim}
    {result : Tlm.ExtentWriteResult ℝ}
    (h : IsExtentOf (vecTable col dim) (vecTable col dim).schema [vecBatch col dim rows hrows] result)
    {w : List ℝ} (hw : w.length = dim) (hlongW : tiny < Catalog.norm w)
    (hunits : (rows.filter fun v => ¬ Catalog.norm v ≤ tiny) = [w]) (hquery : query.length = dim)
    (hne : query ≠ []) (hlong : tiny < Catalog.norm query) (t : ℝ) :
    keepColumn result.columnStats col (.vectorDistance query t) =
      decide (1 - inner ℝ (vec dim (Tlm.normalize query)) (vec dim (Tlm.normalize w)) < t) := by
  have hu : (Tlm.normalize w).length = dim := (length_normalize w).trans hw
  have hrecorded : Tlm.unitRows (Tlm.colCells [vecBatch col dim rows hrows] 0) = [Tlm.normalize w] := by
    rw [unitRows_vecBatch, hunits]
    rfl
  have hf : (vecTable col dim).schema[0]? = some ⟨col, .fixedSizeList .float32 dim⟩ := rfl
  have hball : recordedBall result.columnStats col = some (Tlm.normalize w, 0) := by
    rcases recordedBall_cases h hf rfl hrecorded with ⟨-, hbad⟩ | ⟨-, hsome⟩
    · exact absurd hbad (by simp [Tlm.vecRowCap])
    · rw [meanOf_singleton hu, vecRadius_singleton] at hsome
      exact hsome
  rw [keepColumn, keepExtentByVector_eq, hball, Option.all_some,
    cosineDistanceLowerBound_eq (hquery.trans hu.symm) hne hlong, Option.all_some, hquery,
    ballBound_zero (norm_normalize hquery (ne_of_gt (tiny_pos.trans hlong)))
      (norm_normalize hw (ne_of_gt (tiny_pos.trans hlongW)))]

theorem opposite_facts {n : ℕ} {q : List ℝ} (hq : q.length = n) (hne : Catalog.norm q ≠ 0) :
    (q.map (-·)).length = n ∧ Catalog.norm (q.map (-·)) = Catalog.norm q ∧
      inner ℝ (vec n (Tlm.normalize q)) (vec n (Tlm.normalize (q.map (-·)))) = (-1 : ℝ) := by
  have hlen : (q.map (-·)).length = n := by rw [length_map, hq]
  have hvec : vec n (q.map (-·)) = -vec n q := by
    ext i
    rw [vec_apply, PiLp.neg_apply, vec_apply, getD_eq_getElem?_getD, getD_eq_getElem?_getD, getElem?_map]
    cases q[(i : ℕ)]? <;> simp
  have hnorm : Catalog.norm (q.map (-·)) = Catalog.norm q := by
    rw [norm_eq hlen, norm_eq hq, hvec, norm_neg]
  refine ⟨hlen, hnorm, ?_⟩
  have hopp : vec n (Tlm.normalize (q.map (-·))) = -vec n (Tlm.normalize q) := by
    rw [Tlm.normalize, Tlm.normalize, vec_div, vec_div, hvec, hnorm, smul_neg]
  rw [hopp, inner_neg_right, real_inner_self_eq_norm_sq, norm_normalize hq hne]
  norm_num

theorem vectorSafe_of_vectorPruningSound {eng : Engine ℝ} {f : Expr ℝ} {t : ℝ} (hfilter : IsVectorFilter col query t f)
    (hsound : VectorPruningSound eng f col query t v) : VectorSafe (isStrict f) query t v := by
  intro x hx hwithin
  obtain ⟨hlen, hnil, hv, hq, hx'⟩ := cosine_eq_some_iff.mp hx
  have hquery : query ≠ [] := by
    intro hnil'
    rw [hnil', length_nil, length_eq_zero_iff] at hlen
    exact hnil hlen
  by_contra hlost
  simp only [not_or, not_lt, not_le, not_and] at hlost
  obtain ⟨htwo, hlong, htie⟩ := hlost
  have hextract : extractVectorDistance f (floatVectorCols (vecTable col v.length)) =
      some (col, .vectorDistance query t) :=
    extractVectorDistance_eq_some_iff.mpr ⟨by simp [floatVectorCols, vecTable], hfilter⟩
  by_cases hshort : Catalog.norm v ≤ tiny
  · -- the statistics pass the row over; the other row is opposite to the query
    obtain ⟨hlenOpp, hnormOpp, hinner⟩ := opposite_facts hlen.symm hq
    have hrows : ∀ r ∈ [v, query.map (-·)], r.length = v.length := by
      simp [hlen]
    obtain ⟨result, h⟩ := exists_vecExtent col v.length [v, query.map (-·)] hrows
    have hdatum := columnDatum_vecBatch col hrows
    have htrue := (holds_vectorFilter eng hfilter _ 0).mpr ⟨v, x, hdatum, hx, hwithin⟩
    have hkept := hsound _ _ _ result h _ mem_cons_self 0 hextract hdatum htrue
    rw [keepColumn_oneDirection h hlenOpp (by rw [hnormOpp]; exact hlong)
      (by simp [hshort, hnormOpp, hlong]) hlen.symm hquery hlong, hinner,
      decide_eq_true_eq] at hkept
    linarith
  · -- the distance is the threshold itself
    have hlongV : tiny < Catalog.norm v := not_le.mp hshort
    have hrows : ∀ r ∈ [v], r.length = v.length := by simp
    obtain ⟨result, h⟩ := exists_vecExtent col v.length [v] hrows
    have hdatum := columnDatum_vecBatch col hrows
    have htrue := (holds_vectorFilter eng hfilter _ 0).mpr ⟨v, x, hdatum, hx, hwithin⟩
    have hkept := hsound _ _ _ result h _ mem_cons_self 0 hextract hdatum htrue
    rw [keepColumn_oneDirection h rfl hlongV (by simp [hlongV]) hlen.symm hquery hlong,
      real_inner_comm, ← hx', decide_eq_true_eq] at hkept
    exact absurd hkept (not_lt.mpr (htie hlongV))

/-- **Exactly which rows vector pruning loses.**  Let a filter be pushed down.  In every extent the
lower bound that the statistics give is at most the distance of every row that they cover; and a row
vector is never lost if and only if it is safe. -/
theorem vectorPruning_exact (eng : Engine ℝ) {f : Expr ℝ} {col : String} {query : List ℝ} {t : ℝ}
    (hfilter : IsVectorFilter col query t f) (v : List ℝ) :
    (∀ (table : TableRef) (schema : Schema) (batches : List (RecordBatch ℝ))
      (result : Tlm.ExtentWriteResult ℝ), IsExtentOf table schema batches result →
      ∀ i g dim, schema[i]? = some g → g.dataType = .fixedSizeList .float32 dim →
      ∀ centroid radius lb, recordedBall result.columnStats g.name = some (centroid, radius) →
      cosineDistanceLowerBound query centroid radius = some lb →
      ∀ w x, Value.vec w ∈ Tlm.colCells batches i → tiny < Catalog.norm w → cosine w query = some x → lb ≤ x) ∧
    (VectorPruningSound eng f col query t v ↔ VectorSafe (isStrict f) query t v) := by
  refine ⟨?_, vectorSafe_of_vectorPruningSound hfilter, vectorPruningSound_of_vectorSafe hfilter⟩
  intro table schema batches result h i g dim hg hdt centroid radius lb hball hlb w x hw hlong hx
  exact lowerBound_le_cosine h hg hdt hball hlb hw hlong hx

/-! ### One embedding -/

def realEngine : Engine ℝ :=
  { parseTimestamp := plainEngine.parseTimestamp, parseFromRfc3339 := plainEngine.parseFromRfc3339
    parse_agree := plainEngine.parse_agree
    sameLetter := fun c d => c = d
    sameLetter_refl := by simp
    cast := fun _ _ => .null, value := fun _ _ _ => .null, truth := fun _ _ _ => none }

/-- The filter `cosine_distance(emb, make_array(1.0)) op t`. -/
def embFilter (op : Operator) (t : ℝ) : Expr ℝ :=
  .binary (.scalarFunction "cosine_distance"
    [.column "emb", .scalarFunction "make_array" [.literal (.float64 (some 1))]]) op
    (.literal (.float64 (some t)))

theorem decode_one : decodeMakeArray (.scalarFunction "make_array" [.literal (.float64 (some (1 : ℝ)))]) =
      some [1] := by
  simp [decodeMakeArray, scalarToF64]

theorem cosine_one : cosine [(1 : ℝ)] [1] = some 0 := by
  simp [cosine, HasSqrt.sqrt]

theorem tiny_lt_norm_one : tiny < Catalog.norm [(1 : ℝ)] := by
  have hnorm : Catalog.norm [(1 : ℝ)] = 1 := by simp [Catalog.norm, HasSqrt.sqrt]
  rw [hnorm]
  norm_num [tiny]

/-- **`<= 0` loses the vector itself.**  The row has the vector of the query, so its distance is zero;
the lower bound is zero as well, and zero is not below the threshold. -/
theorem at_most_zero_drops_match : ∃ b result, IsExtentOf (vecTable "emb" 1) (vecTable "emb" 1).schema [b] result ∧
      extractVectorDistance (embFilter .ltEq 0) (floatVectorCols (vecTable "emb" 1)) =
        some ("emb", .vectorDistance [1] 0) ∧ holds realEngine b 0 (embFilter .ltEq 0) = some true ∧
      keepExtentByVector result.columnStats "emb" [1] 0 = false := by
  have hfilter : IsVectorFilter "emb" [1] 0 (embFilter .ltEq 0) := .ltEq (.inl ⟨rfl, rfl⟩) decode_one rfl
  have hrows : ∀ r ∈ [[(1 : ℝ)]], r.length = 1 := by simp
  obtain ⟨result, h⟩ := exists_vecExtent "emb" 1 [[1]] hrows
  refine ⟨_, result, h, ?_, ?_, ?_⟩
  · exact extractVectorDistance_eq_some_iff.mpr ⟨by simp [floatVectorCols, vecTable], hfilter⟩
  · refine (holds_vectorFilter realEngine hfilter _ 0).mpr ⟨[1], 0, columnDatum_vecBatch "emb" hrows, cosine_one, ?_⟩
    exact le_refl (0 : ℝ)
  · have hkeep : keepExtentByVector result.columnStats "emb" [1] 0 =
        decide (1 - inner ℝ (vec 1 (Tlm.normalize [1])) (vec 1 (Tlm.normalize [1])) < (0 : ℝ)) :=
      keepColumn_oneDirection h rfl tiny_lt_norm_one (by simp [tiny_lt_norm_one]) rfl (by simp)
        tiny_lt_norm_one 0
    obtain ⟨-, -, -, -, hx⟩ := cosine_eq_some_iff.mp cosine_one
    have hx' : (0 : ℝ) = 1 - inner ℝ (vec 1 (Tlm.normalize [(1 : ℝ)])) (vec 1 (Tlm.normalize [1])) := hx
    rw [hkeep, ← hx']
    simp

/-- Under `< 1` the vector of the query is never lost. -/
theorem below_one_keeps_match : IsVectorFilter "emb" [1] 1 (embFilter .lt 1) ∧
      VectorPruningSound realEngine (embFilter .lt 1) "emb" [1] 1 [1] := by
  have hfilter : IsVectorFilter "emb" [1] 1 (embFilter .lt 1) := .lt (.inl ⟨rfl, rfl⟩) decode_one rfl
  refine ⟨hfilter, (vectorPruning_exact realEngine hfilter [1]).2.mpr ?_⟩
  intro x hx _
  rw [cosine_one] at hx
  cases hx
  exact .inr (.inr ⟨tiny_lt_norm_one, one_pos⟩)

end Exec
