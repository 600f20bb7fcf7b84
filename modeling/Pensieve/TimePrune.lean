/-
**Time pruning.**

The time bounds among the filters of a scan become one half-open range, which the catalog tests
against the time range of an extent and the reader against that of each block.
-/

import Pensieve.EqualityPrune

namespace Exec

open List
open Arrow Catalog Like

variable {F : Type} [Field F] [LinearOrder F] [HasSqrt F]

/-! ### Literals -/

variable {t : Int}

theorem timestampOpt_eq_some {secs nanos : Int} (h : timestampOpt secs nanos = some t) :
    t = secs * 1000000000 + nanos ∧ nanos < 2000000000 := by
  unfold timestampOpt at h
  split at h
  · rename_i hrange
    cases h
    omega
  · cases h

variable {n : Int}

theorem tmod_nonneg_of_asU32 {p q : Int} (hp : 0 < p) (hq : 0 < q) (hpq : p * q = 1000000000)
    (h : asU32 (n.tmod p * q) < 2000000000) : 0 ≤ n.tmod p := by
  by_contra hneg
  have hlt : -p < n.tmod p := Int.lt_tmod_of_pos n hp
  have h₁ : -1000000000 < n.tmod p * q := by nlinarith
  have h₂ : n.tmod p * q < 0 := by nlinarith
  unfold asU32 at h
  omega

theorem instant_of_timestampOpt {p q : Int} (hp : 0 < p) (hq : 0 < q) (hpq : p * q = 1000000000)
    (h : timestampOpt (n.tdiv p) (asU32 (n.tmod p * q)) = some t) : t = n * q := by
  obtain ⟨rfl, hlt⟩ := timestampOpt_eq_some h
  have hnonneg := tmod_nonneg_of_asU32 hp hq hpq hlt
  have hbound : n.tmod p < p := Int.tmod_lt_of_pos n hp
  have hsmall : asU32 (n.tmod p * q) = n.tmod p * q := by
    have h₁ : n.tmod p * q < 1000000000 := by nlinarith
    have h₂ : 0 ≤ n.tmod p * q := by positivity
    unfold asU32
    omega
  have hdiv : p * n.tdiv p + n.tmod p = n := Int.mul_tdiv_add_tmod n p
  calc n.tdiv p * 1000000000 + asU32 (n.tmod p * q)
      = (p * n.tdiv p + n.tmod p) * q := by rw [hsmall, ← hpq]; ring
    _ = n * q := by rw [hdiv]

variable {eng : Engine F}

variable {v : ScalarValue F}

omit [Field F] [LinearOrder F] [HasSqrt F] in
theorem tsFromScalar_eq_some {t : DateTime} (h : tsFromScalar eng v = some t) :
    scalarDatum v = .instant t ∨ ∃ s, scalarDatum v = .str s ∧ eng.parseFromRfc3339 s = some t := by
  unfold tsFromScalar at h
  split at h
  · rename_i n tz
    refine .inl ?_
    obtain ⟨rfl, -⟩ := timestampOpt_eq_some h
    have hsmall : asU32 (n % 1000000000) = n % 1000000000 := by
      unfold asU32
      omega
    rw [hsmall, scalarDatum, TimeUnit.nanos]
    congr 1
    omega
  · rename_i n tz
    refine .inl ?_
    rw [instant_of_timestampOpt (by decide) (by decide) (by decide) h]
    rfl
  · rename_i n tz
    refine .inl ?_
    rw [instant_of_timestampOpt (by decide) (by decide) (by decide) h]
    rfl
  · rename_i n tz
    refine .inl ?_
    obtain ⟨rfl, -⟩ := timestampOpt_eq_some h
    rw [scalarDatum, TimeUnit.nanos]
    congr 1
    omega
  · exact .inr ⟨_, rfl, h⟩
  · exact .inr ⟨_, rfl, h⟩
  · cases h

/-- A comparison of an instant with the value is one with the instant `t`. -/
def ReadsAs (eng : Engine F) (d : Datum F) (t : Int) : Prop :=
  ∀ (op : Operator) (n : Int), (compareDatum eng op (.instant n) d = some true → op.test n t = some true) ∧
      (compareDatum eng op d (.instant n) = some true → op.test t n = some true)

omit [HasSqrt F] in
theorem readsAs_str {s : String}
    (h : eng.parseFromRfc3339 s = some t) : ReadsAs eng (.str s : Datum F) t := by
  intro op n
  constructor
  · intro hcmp
    obtain ⟨u, hu, htest⟩ := Option.bind_eq_some_iff.mp hcmp
    rw [eng.parse_agree s t u h hu]
    exact htest
  · intro hcmp
    obtain ⟨u, hu, htest⟩ := Option.bind_eq_some_iff.mp hcmp
    rw [eng.parse_agree s t u h hu]
    exact htest

omit [HasSqrt F] in
theorem readsAs_scalar (h : tsFromScalar eng v = some t) : ReadsAs eng (scalarDatum v) t := by
  rcases tsFromScalar_eq_some h with hd | ⟨s, hd, hs⟩
  · rw [hd]
    exact fun op n => ⟨id, id⟩
  · rw [hd]
    exact readsAs_str hs

omit [HasSqrt F] in
theorem readsAs_of_ne {eng : Engine F} {d : Datum F} (t : Int) (h₁ : ∀ n, d ≠ .instant n)
    (h₂ : ∀ s, d ≠ .str s) : ReadsAs eng d t := by
  intro op n
  cases d with
  | instant m => exact absurd rfl (h₁ m)
  | str s => exact absurd rfl (h₂ s)
  | _ => constructor <;> intro hcmp <;> cases hcmp

omit [Field F] [LinearOrder F] [HasSqrt F] in
theorem cellDatum_ne_instant {dt : DataType} (h : ∀ u tz, dt ≠ .timestamp u tz) (v : Value F)
    (n : Int) : cellDatum dt v ≠ .instant n := by
  unfold cellDatum
  split
  · rename_i u tz n
    exact absurd rfl (h u tz)
  all_goals exact fun heq => by cases heq

omit [HasSqrt F] in
/-- Under a cast the planner reads the literal itself, and the cast gives the same instant, or a
value that does not compare with the time column. -/
theorem readsAs_cast (h : tsFromScalar eng v = some t) (dt : DataType) : ReadsAs eng (castDatum eng v dt) t := by
  unfold castDatum
  split
  · rcases tsFromScalar_eq_some h with hd | ⟨s, hd, hs⟩
    · rw [hd]
      dsimp only
      split
      · exact fun op n => ⟨id, id⟩
      · exact readsAs_of_ne t (by simp) (by simp)
    · rw [hd]
      dsimp only
      cases hparse : eng.parseTimestamp s with
      | none => exact readsAs_of_ne t (by simp) (by simp)
      | some u =>
        rw [eng.parse_agree s t u hs hparse]
        exact fun op n => ⟨id, id⟩
  · exact readsAs_of_ne t (by simp) (by simp)
  · rename_i hns hts
    have hne := cellDatum_ne_instant hts (eng.cast v dt)
    split
    · exact readsAs_of_ne t (by simp) (by simp)
    · rename_i hstr
      exact readsAs_of_ne t hne hstr

theorem readsAs_of_tsFromExpr {lit : Expr F} (h : tsFromExpr eng lit = some t) (b : RecordBatch F)
    (row : ℕ) : ReadsAs eng (operand eng b row lit) t := by
  unfold tsFromExpr at h
  split at h
  · rename_i v
    exact readsAs_scalar h
  · rename_i v dt
    exact readsAs_cast h dt
  · cases h

/-! ### Bounds -/

def TimeBound.lower : TimeBound → Option Int
  | .gtOrGe t _ => some t
  | .ltOrLe _ _ => none
  | .between low _ => some low

def TimeBound.upper : TimeBound → Option Int
  | .gtOrGe _ _ => none
  | .ltOrLe t inclusive => some (if inclusive then t + 1 else t)
  | .between _ high => some (high + 1)

def TimeBound.Within (bound : TimeBound) (n : Int) : Prop :=
  (∀ lo, bound.lower = some lo → lo ≤ n) ∧ ∀ hi, bound.upper = some hi → n < hi

theorem within_gtOrGe {inclusive : Bool} (h : t ≤ n) : (TimeBound.gtOrGe t inclusive).Within n := by
  constructor
  · intro lo hlo
    cases hlo
    exact h
  · intro hi hhi
    cases hhi

theorem within_ltOrLe {inclusive : Bool} (h : n < if inclusive then t + 1 else t) :
    (TimeBound.ltOrLe t inclusive).Within n := by
  constructor
  · intro lo hlo
    cases hlo
  · intro hi hhi
    cases hhi
    exact h

theorem within_of_test {op : Operator} {bound : TimeBound} (hbound : boundOfOp op t = some bound)
    (h : op.test n t = some true) : bound.Within n := by
  cases op with
  | gt =>
    cases hbound
    exact within_gtOrGe (le_of_lt (by simpa [Operator.test] using h))
  | gtEq =>
    cases hbound
    exact within_gtOrGe (by simpa [Operator.test] using h)
  | lt =>
    cases hbound
    exact within_ltOrLe (by simpa [Operator.test] using h)
  | ltEq =>
    cases hbound
    refine within_ltOrLe ?_
    rw [if_pos rfl]
    exact Int.lt_add_one_of_le (by simpa [Operator.test] using h)
  | _ => cases hbound

theorem test_flipOp {op : Operator} (h : op.test t n = some true) : (flipOp op).test n t = some true := by
  cases op with
  | eq => simpa [flipOp, Operator.test] using (by simpa [Operator.test] using h : t = n).symm
  | notEq => simpa [flipOp, Operator.test] using (by simpa [Operator.test] using h : t ≠ n).symm
  | and | or | other name => cases h
  | _ => simpa [flipOp, Operator.test] using h

omit [Field F] [LinearOrder F] [HasSqrt F] in
theorem eq_of_isColumn {e : Expr F} {name : String} (h : e.isColumn name = true) : e = .column name := by
  unfold Expr.isColumn at h
  split at h
  · rw [of_decide_eq_true h]
  · cases h

variable {b : RecordBatch F} {row : ℕ}

theorem bound_of_holds {f : Expr F} {tsCol : String} {bound : TimeBound}
    (hextract : extractTimeBound eng f tsCol = some bound) (h : holds eng b row f = some true) :
    columnDatum b row tsCol ≠ .null ∧ ∀ n, columnDatum b row tsCol = .instant n → bound.Within n := by
  unfold extractTimeBound at hextract
  split at hextract
  · rename_i left op right
    obtain ⟨⟨op', lit⟩, hnorm, hextract⟩ := Option.bind_eq_some_iff.mp hextract
    obtain ⟨t, ht, hbound⟩ := Option.bind_eq_some_iff.mp hextract
    unfold normalizeComparison at hnorm
    split at hnorm
    · -- the time column on the left
      rename_i hleft
      cases hnorm
      rw [eq_of_isColumn hleft, holds_binary (by rintro rfl; cases hbound)
        (by rintro rfl; cases hbound), operand] at h
      refine ⟨(ne_null_of_compareDatum h).1, fun n hn => ?_⟩
      rw [hn] at h
      exact within_of_test hbound ((readsAs_of_tsFromExpr ht b row op n).1 h)
    · split at hnorm
      · -- the time column on the right
        rename_i hright
        cases hnorm
        rw [eq_of_isColumn hright, holds_binary (by rintro rfl; cases hbound)
          (by rintro rfl; cases hbound)] at h
        have hcmp : compareDatum eng op (operand eng b row left) (columnDatum b row tsCol) = some true := h
        refine ⟨(ne_null_of_compareDatum hcmp).2, fun n hn => ?_⟩
        rw [hn] at hcmp
        exact within_of_test hbound (test_flipOp ((readsAs_of_tsFromExpr ht b row op n).2 hcmp))
      · cases hnorm
  · rename_i e low high
    split at hextract
    · rename_i he
      obtain ⟨lo, hlo, hextract⟩ := Option.bind_eq_some_iff.mp hextract
      obtain ⟨hi, hhi, hextract⟩ := Option.bind_eq_some_iff.mp hextract
      cases hextract
      rw [eq_of_isColumn he, holds, negateIf, Option.map_eq_some_iff] at h
      obtain ⟨x, hx, hxx⟩ := h
      obtain rfl : x = true := by simpa using hxx
      rw [Tlm.and3_eq_true, operand] at hx
      refine ⟨(ne_null_of_compareDatum hx.1).1, fun n hn => ?_⟩
      rw [hn] at hx
      have hlow := (readsAs_of_tsFromExpr hlo b row .gtEq n).1 hx.1
      have hhigh := (readsAs_of_tsFromExpr hhi b row .ltEq n).1 hx.2
      constructor
      · intro l hl
        cases hl
        simpa [Operator.test] using hlow
      · intro u hu
        cases hu
        exact Int.lt_add_one_of_le (by simpa [Operator.test] using hhigh)
    · cases hextract
  · cases hextract

def timeBounds (eng : Engine F) (table : TableRef) (filters : List (Expr F)) : List TimeBound :=
  match tsColumn table with
  | none => []
  | some tsCol => filters.filterMap fun f => extractTimeBound eng f tsCol

def lowerBounds (eng : Engine F) (table : TableRef) (filters : List (Expr F)) : List Int :=
  (timeBounds eng table filters).filterMap TimeBound.lower

def upperBounds (eng : Engine F) (table : TableRef) (filters : List (Expr F)) : List Int :=
  (timeBounds eng table filters).filterMap TimeBound.upper

omit [Field F] [LinearOrder F] [HasSqrt F] in
theorem foldl_timeStep (eng : Engine F) (tsCol : String) (filters : List (Expr F)) (lowers uppers : List Int) :
    filters.foldl (timeStep eng tsCol) (lowers.max?, uppers.min?) =
      ((lowers ++ (filters.filterMap fun f => extractTimeBound eng f tsCol).filterMap TimeBound.lower).max?,
        (uppers ++ (filters.filterMap fun f => extractTimeBound eng f tsCol).filterMap TimeBound.upper).min?) := by
  induction filters generalizing lowers uppers with
  | nil => simp
  | cons f filters ih =>
    rw [foldl_cons]
    cases hbound : extractTimeBound eng f tsCol with
    | none =>
      have hstep : timeStep eng tsCol (lowers.max?, uppers.min?) f = (lowers.max?, uppers.min?) := by
        simp only [timeStep, hbound]
      rw [hstep, ih]
      simp only [filterMap_cons, hbound]
    | some bound =>
      simp only [filterMap_cons, hbound]
      cases bound with
      | gtOrGe t inclusive =>
        have hstep : timeStep eng tsCol (lowers.max?, uppers.min?) f = ((lowers ++ [t]).max?, uppers.min?) := by
          simp only [timeStep, hbound, Tlm.max?_concat]
        rw [hstep, ih]
        simp [TimeBound.lower, TimeBound.upper]
      | ltOrLe t inclusive =>
        have hstep : timeStep eng tsCol (lowers.max?, uppers.min?) f =
            (lowers.max?, (uppers ++ [if inclusive then t + 1 else t]).min?) := by
          simp only [timeStep, hbound, Tlm.min?_concat]
        rw [hstep, ih]
        simp [TimeBound.lower, TimeBound.upper]
      | between low high =>
        have hstep : timeStep eng tsCol (lowers.max?, uppers.min?) f =
            ((lowers ++ [low]).max?, (uppers ++ [high + 1]).min?) := by
          simp only [timeStep, hbound, Tlm.max?_concat, Tlm.min?_concat]
        rw [hstep, ih]
        simp [TimeBound.lower, TimeBound.upper]

omit [LinearOrder F] [HasSqrt F] in
theorem timeRange_buildPrunePredicate (eng : Engine F) (table : TableRef) (filters : List (Expr F)) :
    (buildPrunePredicate eng table filters).timeRange =
      timeRangeOf ((lowerBounds eng table filters).max?, (upperBounds eng table filters).min?) := by
  unfold buildPrunePredicate lowerBounds upperBounds timeBounds
  cases tsColumn table with
  | none => rfl
  | some tsCol => exact congrArg timeRangeOf (foldl_timeStep eng tsCol filters [] [])

/-! ### The instants of a block -/

def rowInstant (table : TableRef) (b : RecordBatch F) (row : ℕ) : Option Int :=
  (tsColumn table).bind fun tsCol =>
    match columnDatum b row tsCol with
    | .instant n => some n
    | _ => none

theorem tsColumn_eq_some {table : TableRef} {tsCol : String} (h : tsColumn table = some tsCol) :
    ∃ i f, Tlm.tsPosition table.schema = some i ∧ table.schema[i]? = some f ∧ f.name = tsCol ∧
      f.dataType.isTimestampNs = true := by
  obtain ⟨f, hfind, hname⟩ := Option.map_eq_some_iff.mp h
  rw [find?_eq_bind_findIdx?_getElem?] at hfind
  obtain ⟨i, hi, hf⟩ := Option.bind_eq_some_iff.mp hfind
  obtain ⟨hlt, hns, -⟩ := findIdx?_eq_some_iff_getElem.mp hi
  obtain ⟨_, hfi⟩ := List.getElem?_eq_some_iff.mp hf
  rw [hfi] at hns
  exact ⟨i, f, hi, hf, hname, hns⟩

section Extent

variable {table : TableRef} {schema : Schema} {batches : List (RecordBatch F)}
  {result : Tlm.ExtentWriteResult F}

variable {n : Int}

theorem rowInstant_eq_some (h : IsExtentOf table schema batches result) (hb : b ∈ batches)
    (hrow : rowInstant table b row = some n) :
    ∃ i f, Tlm.tsPosition table.schema = some i ∧ Tlm.tsPosition schema = some i ∧
      schema[i]? = some f ∧ f.dataType.isTimestampNs = true ∧ tsColumn table = some f.name ∧
      Value.ts n ∈ b.column i := by
  obtain ⟨tsCol, hcol, hdatum⟩ := Option.bind_eq_some_iff.mp hrow
  split at hdatum
  · rename_i m hm
    cases hdatum
    obtain ⟨i, f, hi, hf, rfl, hns⟩ := tsColumn_eq_some hcol
    obtain ⟨j, g, v, hg, hname, hv, -, hv'⟩ := Exec.columnDatum_ne_null (by rw [hm]; simp)
    rw [(Tlm.writeExtent_blocks h.written).1 b hb] at hg
    -- names are distinct, so the column of the cell is the time column
    have hij : j = i := by
      have hj := indexOf_of_distinct table.distinct (h.getElem? hg)
      rw [hname, indexOf_of_distinct table.distinct hf] at hj
      exact (Option.some.inj hj).symm
    subst hij
    obtain rfl : f = g := by
      rw [h.getElem? hg] at hf
      exact (Option.some.inj hf).symm
    have hpos : Tlm.tsPosition schema = some j := by
      obtain ⟨hlt, hgj⟩ := List.getElem?_eq_some_iff.mp hg
      refine findIdx?_eq_some_iff_getElem.mpr ⟨hlt, by rw [hgj]; exact hns, ?_⟩
      intro k hk
      obtain ⟨_, _, hfirst⟩ := findIdx?_eq_some_iff_getElem.mp hi
      have := hfirst k hk
      obtain ⟨rest, hrest⟩ := h.evolved
      simpa [← hrest, getElem_append_left (hk.trans hlt)] using this
    refine ⟨j, f, hi, hpos, hg, hns, hcol, ?_⟩
    -- a cell of a nanosecond column that reads as an instant holds that instant
    rw [hm] at hv'
    cases hdt : f.dataType with
    | timestamp u tz =>
      rw [hdt] at hns hv'
      cases u with
      | nanosecond =>
        cases v with
        | ts x =>
          simp only [cellDatum, TimeUnit.nanos, mul_one, Datum.instant.injEq] at hv'
          rw [hv']
          exact hv
        | _ => cases hv'
      | _ => cases hns
    | _ =>
      rw [hdt] at hns
      cases hns
  · cases hdatum

theorem exists_rowInstant (h : IsExtentOf table schema batches result) (hb : b ∈ batches) {i : ℕ}
    {f : Field} (hf : schema[i]? = some f) (hns : f.dataType.isTimestampNs = true)
    (hcol : tsColumn table = some f.name) (hn : Value.ts n ∈ b.column i) : ∃ row, rowInstant table b row = some n := by
  obtain ⟨row, hrow⟩ := getElem?_of_mem hn
  refine ⟨row, ?_⟩
  have hschema := (Tlm.writeExtent_blocks h.written).1 b hb
  have hidx : indexOf b.schema f.name = some i := by
    rw [hschema]
    exact indexOf_of_distinct h.distinct hf
  have hcell : b.cell f.name row = .ts n := by
    rw [RecordBatch.cell, hidx]
    dsimp only
    rw [getD_eq_getElem?_getD, hrow, Option.getD_some]
  have hfind : (b.schema.find? fun g => g.name = f.name) = some f := by
    rw [find?_eq_bind_findIdx?_getElem?,
      show b.schema.findIdx? (fun g => decide (g.name = f.name)) = some i from hidx,
      Option.bind_some, hschema, hf]
  have hdatum : columnDatum b row f.name = .instant n := by
    rw [columnDatum, hfind]
    dsimp only
    rw [hcell]
    cases hdt : f.dataType with
    | timestamp u tz =>
      rw [hdt] at hns
      cases u with
      | nanosecond => simp [cellDatum, TimeUnit.nanos]
      | _ => cases hns
    | _ =>
      rw [hdt] at hns
      cases hns
  rw [rowInstant, hcol, Option.bind_some, hdatum]

theorem inI64_of_rowInstant (h : IsExtentOf table schema batches result) (hb : b ∈ batches)
    (hrow : rowInstant table b row = some n) : InI64 n := by
  obtain ⟨i, f, -, -, hf, hns, -, hmem⟩ := rowInstant_eq_some h hb hrow
  have hadmits := Tlm.writeExtent_admits h.written hf (mem_flatMap.mpr ⟨b, hb, hmem⟩)
  cases hdt : f.dataType with
  | timestamp u tz =>
    rw [hdt] at hadmits
    simpa [DataType.admits] using hadmits
  | _ =>
    rw [hdt] at hns
    cases hns

theorem exists_blockRange (h : IsExtentOf table schema batches result) {b : RecordBatch F}
    (hb : b ∈ batches) {bs : Tlm.BlockStats} (hbs : Tlm.statsForBatch b = some bs)
    (hrow : rowInstant table b row = some n) : ∃ i mn mx nulls, Tlm.tsPosition table.schema = some i ∧
      bs.stat (table.schema.map Field.name) i = some (.ts mn mx nulls) ∧
      (∃ r, rowInstant table b r = some mn) ∧ (∃ r, rowInstant table b r = some mx) ∧
      ∀ r v, rowInstant table b r = some v → mn ≤ v ∧ v ≤ mx := by
  obtain ⟨i, f, hi, -, hf, hns, hcol, hmem⟩ := rowInstant_eq_some h hb hrow
  have hschema := (Tlm.writeExtent_blocks h.written).1 b hb
  have hcells : ∀ v, some v ∈ (b.column i).map Tlm.asTs → Value.ts v ∈ b.column i := by
    intro v hv
    obtain ⟨x, hx, hxv⟩ := mem_map.mp hv
    cases x with
    | ts y =>
      cases hxv
      exact hx
    | _ => cases hxv
  have hmap : ∀ v, Value.ts v ∈ b.column i → some v ∈ (b.column i).map Tlm.asTs := by
    intro v hv
    exact mem_map.mpr ⟨_, hv, rfl⟩
  obtain ⟨⟨mn, mx, nulls⟩, hmm⟩ := Tlm.minMax_isSome (hmap n hmem)
  have hrange : ∀ v, some v ∈ (b.column i).map Tlm.asTs → InI64 v := by
    intro v hv
    obtain ⟨r, hr⟩ := exists_rowInstant h hb hf hns hcol (hcells v hv)
    exact inI64_of_rowInstant h hb hr
  obtain ⟨hmn, hmx⟩ := Tlm.minMax_attained hmm hrange
  refine ⟨i, mn, mx, nulls, hi, ?_, exists_rowInstant h hb hf hns hcol (hcells mn hmn),
    exists_rowInstant h hb hf hns hcol (hcells mx hmx), ?_⟩
  · rw [Tlm.BlockStats.stat, getElem?_map, h.getElem? hf, Option.map_some, Option.bind_some]
    refine Tlm.lookup_statsForBatch_of_distinct (hschema ▸ h.distinct) hbs (hschema ▸ hf) ?_
    cases hdt : f.dataType with
    | timestamp u tz =>
      rw [hdt] at hns
      cases u with
      | nanosecond => simp [Tlm.colStat, Tlm.tsStats, hmm]
      | _ => cases hns
    | _ =>
      rw [hdt] at hns
      cases hns
  · intro r v hr
    obtain ⟨j, g, hj, -, -, -, -, hv⟩ := rowInstant_eq_some h hb hr
    rw [hi] at hj
    cases hj
    exact Tlm.minMax_bounds hmm (hmap v hv)

theorem exists_extentRange (h : IsExtentOf table schema batches result) (hb : b ∈ batches)
    (hrow : rowInstant table b row = some n) :
    ∃ mn mx, result.minTimestampNanos = some mn ∧ result.maxTimestampNanos = some mx ∧
      ∀ r v, rowInstant table b r = some v → mn ≤ v ∧ v ≤ mx := by
  have hmem : ∀ r v, rowInstant table b r = some v → v ∈ Tlm.tsValues schema batches := by
    intro r v hr
    obtain ⟨i, f, -, hi, -, -, -, hv⟩ := rowInstant_eq_some h hb hr
    rw [Tlm.tsValues, hi]
    exact mem_filterMap.mpr ⟨_, mem_flatMap.mpr ⟨b, hb, hv⟩, rfl⟩
  obtain ⟨hmin, hmax⟩ := Tlm.writeExtent_times h.written
  obtain ⟨mn, hmn⟩ := Option.isSome_iff_exists.mp (isSome_min?_of_mem (hmem row n hrow))
  obtain ⟨mx, hmx⟩ := Option.isSome_iff_exists.mp (isSome_max?_of_mem (hmem row n hrow))
  refine ⟨mn, mx, hmin.trans hmn, hmax.trans hmx, ?_⟩
  intro r v hr
  exact ⟨(min?_eq_some_iff.mp hmn).2 v (hmem r v hr), (max?_eq_some_iff.mp hmx).2 v (hmem r v hr)⟩

end Extent

/-! ### The two tests -/

def blockPredicateWithoutTime (eng : Engine F) (table : TableRef) (filters : List (Expr F)) : Tlm.BlockPredicate F :=
  buildBlockPredicate table { buildPrunePredicate eng table filters with timeRange := none }

omit [Field F] [LinearOrder F] [HasSqrt F] in
theorem evaluateAll_append (bs : Tlm.BlockStats) (names : List String) (ps qs : List (Tlm.BlockPredicate F)) :
    Tlm.evaluateAll bs names (ps ++ qs) = (Tlm.evaluateAll bs names ps && Tlm.evaluateAll bs names qs) := by
  induction ps with
  | nil => simp [Tlm.evaluateAll]
  | cons p ps ih => rw [cons_append, Tlm.evaluateAll, Tlm.evaluateAll, ih, Bool.and_assoc]

omit [Field F] [LinearOrder F] [HasSqrt F] in
theorem evaluate_buildBlockPredicate (bs : Tlm.BlockStats) (names : List String) (table : TableRef)
    (prune : PrunePredicate (Json F) F) : Tlm.evaluate bs names (buildBlockPredicate table prune) =
      (Tlm.evaluateAll bs names (timePart table prune.timeRange : List (Tlm.BlockPredicate F)) &&
        Tlm.evaluateAll bs names (prune.columnPredicates.filterMap (columnPart table))) := by
  rw [← evaluateAll_append]
  unfold buildBlockPredicate
  split
  · rename_i hparts
    rw [hparts]
    simp [Tlm.evaluate, Tlm.evaluateAll]
  · rename_i p hparts
    rw [hparts]
    simp [Tlm.evaluateAll]
  · simp [Tlm.evaluate]

def SatisfiesTimeBounds (eng : Engine F) (table : TableRef) (b : RecordBatch F) (row : ℕ)
    (filters : List (Expr F)) : Prop :=
  ∀ tsCol, tsColumn table = some tsCol → ∀ f ∈ filters, (extractTimeBound eng f tsCol).isSome →
    holds eng b row f = some true

/-- The extent with manifest `m` passes the catalog's time test, and its block with statistics `bs`
the reader's test. -/
def SurvivesTime (eng : Engine F) (table : TableRef) (filters : List (Expr F))
    (m : ExtentManifest (Json F)) (bs : Tlm.BlockStats) : Prop :=
  keepTime (buildPrunePredicate eng table filters).timeRange m = true ∧ Tlm.evaluate bs (table.schema.map Field.name)
      (buildBlockPredicate table (buildPrunePredicate eng table filters)) = true

theorem timeRangeOf_eq {lowers uppers : List Int} (hlow : ∀ lo ∈ lowers, lo ≤ n)
    (hup : ∀ hi ∈ uppers, n < hi) (hsome : lowers ≠ [] ∨ uppers ≠ []) : timeRangeOf (lowers.max?, uppers.min?) =
      some ⟨lowers.max?.getD farPast, uppers.min?.getD farFuture⟩ := by
  cases hlo : lowers.max? with
  | none =>
    cases hhi : uppers.min? with
    | none =>
      rw [max?_eq_none_iff] at hlo
      rw [min?_eq_none_iff] at hhi
      exact absurd hsome (by simp [hlo, hhi])
    | some hi => rfl
  | some lo =>
    cases hhi : uppers.min? with
    | none => rfl
    | some hi =>
      have h₁ := hlow lo (max?_mem hlo)
      have h₂ := hup hi (min?_mem hhi)
      exact if_pos (h₁.trans_lt h₂)

theorem start_le_iff {lowers : List Int} {mx : Int} (hn : InI64 n) (hlow : ∀ lo ∈ lowers, lo ≤ n)
    (hmx : n ≤ mx) : (timestampNanosOpt (lowers.max?.getD farPast)).getD Tlm.i64Min ≤ mx ↔ (lowers = [] → 0 ≤ mx) := by
  cases hlo : lowers.max? with
  | none =>
    rw [max?_eq_none_iff] at hlo
    simp [hlo, timestampNanosOpt, farPast, InI64]
  | some lo =>
    have hmem := max?_mem hlo
    have hle : lo ≤ n := hlow lo hmem
    have hne : lowers ≠ [] := ne_nil_of_mem hmem
    rw [Option.getD_some, timestampNanosOpt]
    refine ⟨fun _ hnil => absurd hnil hne, fun _ => ?_⟩
    split
    · exact hle.trans hmx
    · exact hn.1.trans hmx

/-- The end of the range in the block predicate, against the first instant of a block: an end past
`i64` becomes the last instant of `i64`. -/
theorem lt_stop_iff {uppers : List Int} {mn : Int} (hn : InI64 n) (hup : ∀ hi ∈ uppers, n < hi)
    (hmn : mn ≤ n) : mn < (timestampNanosOpt (uppers.min?.getD farFuture)).getD Tlm.i64Max ↔
      ((∀ u ∈ uppers, 2 ^ 63 ≤ u) → mn < 2 ^ 63 - 1) := by
  cases hhi : uppers.min? with
  | none =>
    rw [min?_eq_none_iff] at hhi
    simp [hhi, timestampNanosOpt, farFuture, InI64, Tlm.i64Max]
  | some hi =>
    have hmem := min?_mem hhi
    have hlt : n < hi := hup hi hmem
    have hmin := (min?_eq_some_iff.mp hhi).2
    rw [Option.getD_some, timestampNanosOpt]
    by_cases h64 : hi < 2 ^ 63
    · have hin : InI64 hi := ⟨hn.1.trans hlt.le, h64⟩
      rw [if_pos hin, Option.getD_some]
      refine ⟨fun _ hall => absurd (hall hi hmem) (not_le.mpr h64), fun _ => hmn.trans_lt hlt⟩
    · have hout : ¬ InI64 hi := fun hin => h64 hin.2
      rw [if_neg hout, Option.getD_none, Tlm.i64Max]
      refine ⟨fun hlt _ => hlt, fun himp => himp ?_⟩
      intro u hu
      exact (not_lt.mp h64).trans (hmin u hu)

section Extent

variable {table : TableRef} {schema : Schema} {batches : List (RecordBatch F)}
  {result : Tlm.ExtentWriteResult F}

theorem rowInstant_of_holds (h : IsExtentOf table schema batches result)
    {tsCol : String} (hcol : tsColumn table = some tsCol) {f : Expr F} {bound : TimeBound}
    (hextract : extractTimeBound eng f tsCol = some bound) (hb : b ∈ batches) (htrue : holds eng b row f = some true) :
    ∃ n, rowInstant table b row = some n ∧ bound.Within n := by
  obtain ⟨hne, hwithin⟩ := bound_of_holds hextract htrue
  obtain ⟨i, g, v, hg, hname, hv, hadmits, hdatum⟩ := h.columnDatum_ne_null hb hne
  obtain ⟨j, f', -, hf', hname', hns⟩ := tsColumn_eq_some hcol
  obtain rfl : g = f' := table.distinct.field_eq (mem_of_getElem? (h.getElem? hg))
    (mem_of_getElem? hf') (hname.trans hname'.symm)
  -- a value of a nanosecond column that is not null is an instant
  obtain ⟨n, hn⟩ : ∃ n, columnDatum b row tsCol = .instant n := by
    rw [hdatum] at hne ⊢
    cases hdt : g.dataType with
    | timestamp u tz =>
      rw [hdt] at hadmits hne
      cases v with
      | ts x => exact ⟨_, rfl⟩
      | null => exact absurd rfl hne
      | _ => cases hadmits
    | _ =>
      rw [hdt] at hns
      cases hns
  refine ⟨n, ?_, hwithin n hn⟩
  rw [rowInstant, hcol, Option.bind_some, hn]

variable {filters : List (Expr F)}

omit [LinearOrder F] [HasSqrt F] in
theorem survivesTime_of_unbounded (hnone : timeBounds eng table filters = []) (m : ExtentManifest (Json F))
    (bs : Tlm.BlockStats) : SurvivesTime eng table filters m bs ↔ Tlm.evaluate bs (table.schema.map Field.name)
        (blockPredicateWithoutTime eng table filters) = true := by
  have hrange : (buildPrunePredicate eng table filters).timeRange = none := by
    rw [timeRange_buildPrunePredicate, lowerBounds, upperBounds, hnone]
    rfl
  have hprune : { buildPrunePredicate eng table filters with timeRange := none } =
      buildPrunePredicate eng table filters := by
    rw [← hrange]
  rw [SurvivesTime, blockPredicateWithoutTime, hprune, hrange]
  simp [keepTime]

theorem exists_instant_within (h : IsExtentOf table schema batches result) (hb : b ∈ batches)
    (hrow : SatisfiesTimeBounds eng table b row filters) (hsome : timeBounds eng table filters ≠ []) :
    ∃ n, rowInstant table b row = some n ∧ (∀ lo ∈ lowerBounds eng table filters, lo ≤ n) ∧
      (∀ hi ∈ upperBounds eng table filters, n < hi) ∧
      (lowerBounds eng table filters ≠ [] ∨ upperBounds eng table filters ≠ []) := by
  have hwithin : ∀ bound ∈ timeBounds eng table filters, ∃ n, rowInstant table b row = some n ∧ bound.Within n := by
    intro bound hbound
    unfold timeBounds at hbound
    cases hcol : tsColumn table with
    | none =>
      rw [hcol] at hbound
      cases hbound
    | some tsCol =>
      rw [hcol] at hbound
      obtain ⟨f, hf, hextract⟩ := mem_filterMap.mp hbound
      exact rowInstant_of_holds h hcol hextract hb (hrow tsCol hcol f hf (by rw [hextract]; rfl))
  obtain ⟨first, hfirst⟩ := exists_mem_of_ne_nil _ hsome
  obtain ⟨n, hn, -⟩ := hwithin first hfirst
  have hall : ∀ bound ∈ timeBounds eng table filters, bound.Within n := by
    intro bound hbound
    obtain ⟨n', hn', hw⟩ := hwithin bound hbound
    rw [hn] at hn'
    cases hn'
    exact hw
  refine ⟨n, hn, ?_, ?_, ?_⟩
  · intro lo hlo
    obtain ⟨bound, hbound, hlow⟩ := mem_filterMap.mp hlo
    exact (hall bound hbound).1 lo hlow
  · intro hi hhi
    obtain ⟨bound, hbound, hup⟩ := mem_filterMap.mp hhi
    exact (hall bound hbound).2 hi hup
  · cases first with
    | gtOrGe t inclusive | between low high =>
      exact .inl (ne_nil_of_mem (mem_filterMap.mpr ⟨_, hfirst, rfl⟩))
    | ltOrLe t inclusive =>
      exact .inr (ne_nil_of_mem (mem_filterMap.mpr ⟨_, hfirst, rfl⟩))

omit [LinearOrder F] [HasSqrt F] in
theorem evaluate_bounded {tr : TimeRange}
    (htr : (buildPrunePredicate eng table filters).timeRange = some tr) {i : ℕ}
    (hi : Tlm.tsPosition table.schema = some i) {bs : Tlm.BlockStats} {mn mx : Int} {nulls : ℕ}
    (hstat : bs.stat (table.schema.map Field.name) i = some (.ts mn mx nulls)) :
    Tlm.evaluate bs (table.schema.map Field.name)
        (buildBlockPredicate table (buildPrunePredicate eng table filters)) = true ↔
      (timestampNanosOpt tr.startInclusive).getD Tlm.i64Min ≤ mx ∧
        mn < (timestampNanosOpt tr.endExclusive).getD Tlm.i64Max ∧ Tlm.evaluate bs (table.schema.map Field.name)
          (blockPredicateWithoutTime eng table filters) = true := by
  have hrest : Tlm.evaluate bs (table.schema.map Field.name)
      (blockPredicateWithoutTime eng table filters) = Tlm.evaluateAll bs (table.schema.map Field.name)
          ((buildPrunePredicate eng table filters).columnPredicates.filterMap (columnPart table)) := by
    rw [blockPredicateWithoutTime, evaluate_buildBlockPredicate]
    simp [timePart, Tlm.evaluateAll]
  rw [evaluate_buildBlockPredicate, ← hrest, htr]
  simp only [timePart, hi, Tlm.evaluateAll, Tlm.evaluate, hstat, Bool.and_true, Bool.and_eq_true,
    Bool.not_eq_true', Bool.or_eq_false_iff, decide_eq_false_iff_not, not_lt, ge_iff_le, not_le,
    and_assoc]

/-- **Exactly when extent and block survive.**  Let a row of an extent satisfy the time bounds of a
scan.  Its extent passes the catalog's time test and its block the reader's test, if and only if

* where the bounds are upper bounds only, some row of the block is not before 1970;
* where none of the upper bounds is in `i64`, some row of the block is before the last instant of
  `i64`;
* the block passes the tests of the other filters. -/
theorem survivesTime_iff (eng : Engine F) (h : IsExtentOf table schema batches result)
    {k : ℕ} {b : RecordBatch F} {bs : Tlm.BlockStats} (hb : batches[k]? = some b)
    (hbs : result.blockStats[k]? = some bs) {row : ℕ} {filters : List (Expr F)}
    (hrow : SatisfiesTimeBounds eng table b row filters) (id : ExtentId) (tableId : TableId)
    (schemaSnapshotId : SchemaSnapshotId) (objectPath : String) (byteSize : ℕ) (createdAt : DateTime) :
    SurvivesTime eng table filters
        (Tlm.tableResultToManifest id tableId schemaSnapshotId objectPath byteSize createdAt result) bs ↔
      (lowerBounds eng table filters = [] → upperBounds eng table filters ≠ [] →
        ∃ r v, rowInstant table b r = some v ∧ 0 ≤ v) ∧
      (timeBounds eng table filters ≠ [] → (∀ u ∈ upperBounds eng table filters, 2 ^ 63 ≤ u) →
        ∃ r v, rowInstant table b r = some v ∧ v < 2 ^ 63 - 1) ∧ Tlm.evaluate bs (table.schema.map Field.name)
        (blockPredicateWithoutTime eng table filters) = true := by
  have hmem : b ∈ batches := mem_of_getElem? hb
  by_cases hnone : timeBounds eng table filters = []
  · rw [survivesTime_of_unbounded hnone]
    simp [upperBounds, hnone]
  · obtain ⟨n, hn, hlow, hup, hsome⟩ := exists_instant_within h hmem hrow hnone
    have hn64 := inI64_of_rowInstant h hmem hn
    have hstats : Tlm.statsForBatch b = some bs := by
      have hblocks := congrArg (·[k]?) (Tlm.writeExtent_blocks h.written).2
      simpa [hb, hbs] using hblocks.symm
    obtain ⟨i, mn, mx, nulls, hi, hstat, hatMin, hatMax, hblock⟩ := exists_blockRange h hmem hstats hn
    obtain ⟨emn, emx, hemn, hemx, hextent⟩ := exists_extentRange h hmem hn
    have htr := timeRange_buildPrunePredicate eng table filters
    rw [timeRangeOf_eq hlow hup hsome] at htr
    obtain ⟨hmn, hmx⟩ := hblock row n hn
    rw [SurvivesTime, evaluate_bounded htr hi hstat, start_le_iff hn64 hlow hmx, lt_stop_iff hn64 hup hmn, htr]
    simp only [keepTime, Tlm.tableResultToManifest, hemn, hemx, decide_eq_true_eq]
    -- the bounds of the block are instants of its rows
    have hlate : (∃ r v, rowInstant table b r = some v ∧ 0 ≤ v) ↔ 0 ≤ mx := by
      constructor
      · intro ⟨r, v, hv, hpos⟩
        exact hpos.trans (hblock r v hv).2
      · intro hpos
        obtain ⟨r, hr⟩ := hatMax
        exact ⟨r, mx, hr, hpos⟩
    have hearly : (∃ r v, rowInstant table b r = some v ∧ v < 2 ^ 63 - 1) ↔ mn < 2 ^ 63 - 1 := by
      constructor
      · intro ⟨r, v, hv, hlt⟩
        exact (hblock r v hv).1.trans_lt hlt
      · intro hlt
        obtain ⟨r, hr⟩ := hatMin
        exact ⟨r, mn, hr, hlt⟩
    rw [hlate, hearly]
    constructor
    · intro ⟨_, hstart, hstop, hrest⟩
      exact ⟨fun hnil _ => hstart hnil, fun _ hall => hstop hall, hrest⟩
    · intro ⟨hstart, hstop, hrest⟩
      have hstart' : lowerBounds eng table filters = [] → 0 ≤ mx := by
        intro hnil
        exact hstart hnil (hsome.resolve_left (not_not.mpr hnil))
      refine ⟨⟨?_, ?_⟩, hstart', hstop hnone, hrest⟩
      · -- the extent ends no earlier than the block
        obtain ⟨r, hr⟩ := hatMax
        have hle := (hextent r mx hr).2
        cases hlo : (lowerBounds eng table filters).max? with
        | none => exact (hstart' (max?_eq_none_iff.mp hlo)).trans hle
        | some lo => exact ((hlow lo (max?_mem hlo)).trans hmx).trans hle
      · have hle := (hextent row n hn).1
        cases hhi : (upperBounds eng table filters).min? with
        | none => exact (hle.trans_lt hn64.2).trans (by decide)
        | some hi => exact hle.trans_lt (hup hi (min?_mem hhi))

end Extent

/-! ### Two small tables -/

/-- The filter `at < 0`, in nanoseconds since 1970. -/
def beforeEpoch : Expr ℚ := .binary (.column "at") .lt (.literal (.timestamp .nanosecond (some 0) none))

def logBatch1969 : RecordBatch ℚ :=
  { logBatch with
    columns := [[.ts (-5), .null], [.str "api", .str "db"], [.int 200, .null]]
    width := rfl, height := by simp [logBatch]
    typed := by simp [logBatch, logTable, DataType.admits, InI64] }

def logManifest (result : Tlm.ExtentWriteResult ℚ) : ExtentManifest (Json ℚ) :=
  Tlm.tableResultToManifest 1 1 1 "p" 10 0 result

/-- **An upper bound alone drops the rows before 1970.**  The first line satisfies `at < 0`, and
neither its extent nor its block passes its test. -/
theorem upper_bound_drops_1969 : ∃ result bs, IsExtentOf logTable logTable.schema [logBatch1969] result ∧
      result.blockStats[0]? = some bs ∧ SatisfiesTimeBounds plainEngine logTable logBatch1969 0 [beforeEpoch] ∧
      keepTime (buildPrunePredicate plainEngine logTable [beforeEpoch]).timeRange (logManifest result) = false ∧
      ¬ SurvivesTime plainEngine logTable [beforeEpoch] (logManifest result) bs := by
  have hwritten : IsExtentOf logTable logTable.schema [logBatch1969]
      ((Tlm.writeExtent logTable.schema [logBatch1969]).get (by decide)) :=
    ⟨prefix_rfl, by simp⟩
  have hdropped : keepTime (buildPrunePredicate plainEngine logTable [beforeEpoch]).timeRange
      (logManifest ((Tlm.writeExtent logTable.schema [logBatch1969]).get (by decide))) = false := by
    decide
  refine ⟨_, _, hwritten, rfl, ?_, hdropped, ?_⟩
  · intro tsCol hcol f hf _
    cases hcol
    rw [mem_singleton.mp hf]
    decide
  · intro hsurvives
    rw [SurvivesTime, hdropped] at hsurvives
    cases hsurvives.1

/-- The filter `5 <= at`. -/
def fromFive : Expr ℚ := .binary (.literal (.timestamp .nanosecond (some 5) none)) .ltEq (.column "at")

/-- The second line satisfies the bound, and its extent and block pass. -/
theorem survivesTime_fromFive : ∃ result bs, IsExtentOf logTable logTable.schema [logBatch] result ∧
      result.blockStats[0]? = some bs ∧ SatisfiesTimeBounds plainEngine logTable logBatch 1 [fromFive] ∧
      SurvivesTime plainEngine logTable [fromFive] (logManifest result) bs := by
  have hwritten : IsExtentOf logTable logTable.schema [logBatch]
      ((Tlm.writeExtent logTable.schema [logBatch]).get (by decide)) :=
    ⟨prefix_rfl, by simp⟩
  have hrow : SatisfiesTimeBounds plainEngine logTable logBatch 1 [fromFive] := by
    intro tsCol hcol f hf _
    cases hcol
    rw [mem_singleton.mp hf]
    decide
  refine ⟨_, _, hwritten, rfl, hrow, ?_⟩
  refine (survivesTime_iff plainEngine hwritten (k := 0) rfl rfl hrow 1 1 1 "p" 10 0).mpr
    ⟨?_, ?_, by decide⟩
  · intro hnone
    exact absurd hnone (by decide)
  · intro _ _
    exact ⟨1, 7, by decide, by decide⟩

end Exec
