/-
**Block statistics and block pruning.**

The writer keeps, for each block of an extent, the smallest and largest value of every column whose
type it tracks; the reader evaluates a block predicate on these statistics and skips the blocks that
cannot hold a matching row.
-/

import Mathlib.Data.String.Basic
import Pensieve.Arrow

namespace Tlm

open List
open Arrow

variable {F : Type}

/-! ### Statistics -/

def stringMinmaxCap : ℕ := 256

inductive ColStat where
  | ts (min max : Int) (nulls : ℕ)
  | int64 (min max : Int) (nulls : ℕ)
  | str (min max : String) (nulls : ℕ)
  deriving DecidableEq

/-- `i64::MIN` and `i64::MAX`. -/
def i64Min : Int := -2 ^ 63
def i64Max : Int := 2 ^ 63 - 1

/-- The running state of `ts_stats`, `i32_stats` and `i64_stats`, which are one loop over different
arrays. -/
structure MinMax where
  min : Int
  max : Int
  nulls : ℕ
  any : Bool
  deriving DecidableEq

def MinMax.start : MinMax := { min := i64Max, max := i64Min, nulls := 0, any := false }

/-- One round of the loop; the cell is `none` for a null. -/
def MinMax.push (s : MinMax) : Option Int → MinMax
  | none => { s with nulls := s.nulls + 1 }
  | some v =>
    { s with
      min := if v < s.min then v else s.min
      max := if v > s.max then v else s.max
      any := true }

def minMax (cells : List (Option Int)) : Option (Int × Int × ℕ) :=
  let s := cells.foldl MinMax.push .start
  if s.any then some (s.min, s.max, s.nulls) else none

def asTs : Value F → Option Int
  | .ts n => some n
  | _ => none

/-- The cells of an integer column, widened to `i64`. -/
def asInt : Value F → Option Int
  | .int n => some n
  | _ => none

def asStr : Value F → Option String
  | .str s => some s
  | _ => none

def tsStats (col : List (Value F)) : Option ColStat := (minMax (col.map asTs)).map fun p => .ts p.1 p.2.1 p.2.2

def i32Stats (col : List (Value F)) : Option ColStat := (minMax (col.map asInt)).map fun p => .int64 p.1 p.2.1 p.2.2

def i64Stats (col : List (Value F)) : Option ColStat := (minMax (col.map asInt)).map fun p => .int64 p.1 p.2.1 p.2.2

/-- The loop of `str_stats`: smallest and largest string so far and the number of nulls, or `none`
once a string was too long. -/
def strLoop : Option (String × String) → ℕ → List (Option String) → Option (Option (String × String) × ℕ)
  | acc, nulls, [] => some (acc, nulls)
  | acc, nulls, none :: rest => strLoop acc (nulls + 1) rest
  | acc, nulls, some v :: rest =>
    if v.utf8ByteSize > stringMinmaxCap then none
    else
      match acc with
      | none => strLoop (some (v, v)) nulls rest
      | some (mn, mx) =>
        strLoop (some (if v < mn then v else mn, if v > mx then v else mx)) nulls rest

def strStats (col : List (Value F)) : Option ColStat :=
  match strLoop none 0 (col.map asStr) with
  | some (some (mn, mx), nulls) => some (.str mn mx nulls)
  | _ => none

/-- The statistics of one column: `none` where the code panics (`as_string` on a large-string
array), `some none` where the column has none. -/
def colStat (dataType : DataType) (col : List (Value F)) : Option (Option ColStat) :=
  match dataType with
  | .timestamp .nanosecond _ => some (tsStats col)
  | .int32 => some (i32Stats col)
  | .int64 => some (i64Stats col)
  | .utf8 => some (strStats col)
  | .largeUtf8 => none
  | _ => some none

structure BlockStats where
  rowCount : ℕ
  cols : List (String × ColStat)
  deriving DecidableEq

/-- `BTreeMap::insert`, up to the order of the keys. -/
def insertCol (name : String) (s : ColStat) : List (String × ColStat) → List (String × ColStat)
  | [] => [(name, s)]
  | (k, v) :: rest => if k = name then (name, s) :: rest else (k, v) :: insertCol name s rest

/-- The loop over the fields of `stats_for_batch`. -/
def statsLoop : List (String × ColStat) → List (Field × List (Value F)) → Option (List (String × ColStat))
  | acc, [] => some acc
  | acc, (f, col) :: rest =>
    match colStat f.dataType col with
    | none => none
    | some none => statsLoop acc rest
    | some (some s) => statsLoop (insertCol f.name s acc) rest

def statsForBatch (b : RecordBatch F) : Option BlockStats :=
  (statsLoop [] (b.schema.zip b.columns)).map fun cols => { rowCount := b.numRows % 2 ^ 32, cols }

/-! ### Predicates -/

inductive ScalarValue (F : Type) where
  | null
  | bool (b : Bool)
  | int64 (n : Int)
  | float64 (x : F)
  | string (s : String)
  | bytes (bs : List UInt8)
  | timestamp (n : Int)
  deriving DecidableEq

abbrev ColumnId := ℕ

inductive BlockPredicate (F : Type) where
  | all
  | and (subs : List (BlockPredicate F))
  | or (subs : List (BlockPredicate F))
  | not (sub : BlockPredicate F)
  | timeRange (col : ColumnId) (startInclusive endExclusive : Int)
  | equals (col : ColumnId) (value : ScalarValue F)
  | inSet (col : ColumnId) (values : List (ScalarValue F))
  | stringHas (col : ColumnId) (needle : String)
  | dynamicPathExists (col : ColumnId) (path : String)
  | dynamicPathEquals (col : ColumnId) (path : String) (value : ScalarValue F)

def equalsOk : ColStat → ScalarValue F → Bool
  | .ts min max _, .timestamp t => t ≥ min ∧ t ≤ max
  | .int64 min max _, .int64 t => t ≥ min ∧ t ≤ max
  | .str min max _, .string t => t ≥ min ∧ t ≤ max
  | _, _ => true

def BlockStats.stat (bs : BlockStats) (names : List String) (col : ColumnId) : Option ColStat :=
  (names[col]?).bind fun name => bs.cols.lookup name

mutual

/-- `evaluate`: whether the block may hold a matching row. -/
def evaluate (bs : BlockStats) (names : List String) : BlockPredicate F → Bool
  | .all => true
  | .and subs => evaluateAll bs names subs
  | .or subs => subs.isEmpty || evaluateAny bs names subs
  | .not _ => true
  | .timeRange col start stop =>
    match bs.stat names col with
    | some (.ts min max _) => !(max < start || min ≥ stop)
    | _ => true
  | .equals col value =>
    match bs.stat names col with
    | some cs => equalsOk cs value
    | none => true
  | .inSet col values =>
    match bs.stat names col with
    | some cs => values.any fun v => equalsOk cs v
    | none => true
  | .stringHas _ _ => true
  | .dynamicPathExists _ _ => true
  | .dynamicPathEquals _ _ _ => true

def evaluateAll (bs : BlockStats) (names : List String) : List (BlockPredicate F) → Bool
  | [] => true
  | p :: ps => evaluate bs names p && evaluateAll bs names ps

def evaluateAny (bs : BlockStats) (names : List String) : List (BlockPredicate F) → Bool
  | [] => false
  | p :: ps => evaluate bs names p || evaluateAny bs names ps

end

/-! ### The truth of a predicate on a row -/

/-- The leaves on dynamic columns, which the statistics say nothing about. -/
structure DynamicLeaves (F : Type) where
  pathExists : Value F → String → Option Bool
  pathEquals : Value F → String → ScalarValue F → Option Bool

section Truth

variable [DecidableEq F]

def cellEq : DataType → Value F → ScalarValue F → Option Bool
  | .timestamp u _, .ts n, .timestamp t => some (n * u.nanos = t)
  | _, .int n, .int64 t => some (n = t)
  | _, .str s, .string t => some (s = t)
  | _, .bool a, .bool b => some (a = b)
  | _, .float x, .float64 y => some (x = y)
  | _, _, _ => none

def cellInRange (start stop : Int) : DataType → Value F → Option Bool
  | .timestamp u _, .ts n => some (start ≤ n * u.nanos ∧ n * u.nanos < stop)
  | _, _ => none

def cellHas (needle : String) : Value F → Option Bool
  | .str s => some (needle.toList <:+: s.toList)
  | _ => none

def and3 : Option Bool → Option Bool → Option Bool
  | some false, _ => some false
  | _, some false => some false
  | some true, some true => some true
  | _, _ => none

def or3 : Option Bool → Option Bool → Option Bool
  | some true, _ => some true
  | _, some true => some true
  | some false, some false => some false
  | _, _ => none

/-- A test of the cell of a column of the table, with the type the block gives it.  A column that the
block does not have reads as null. -/
def onCell (b : RecordBatch F) (names : List String) (row : ℕ) (col : ColumnId)
    (test : DataType → Value F → Option Bool) : Option Bool :=
  match names[col]? with
  | none => none
  | some name =>
    match b.schema.find? fun f => f.name = name with
    | none => none
    | some f => test f.dataType (b.cell name row)

mutual

def holds (dyn : DynamicLeaves F) (b : RecordBatch F) (names : List String) (row : ℕ) : BlockPredicate F → Option Bool
  | .all => some true
  | .and subs => holdsAll dyn b names row subs
  | .or subs => holdsAny dyn b names row subs
  | .not sub => (holds dyn b names row sub).map Bool.not
  | .timeRange col start stop => onCell b names row col (cellInRange start stop)
  | .equals col value => onCell b names row col fun dt v => cellEq dt v value
  | .inSet col values =>
    onCell b names row col fun dt v => (values.map (cellEq dt v)).foldr or3 (some false)
  | .stringHas col needle => onCell b names row col fun _ v => cellHas needle v
  | .dynamicPathExists col path => onCell b names row col fun _ v => dyn.pathExists v path
  | .dynamicPathEquals col path value =>
    onCell b names row col fun _ v => dyn.pathEquals v path value

def holdsAll (dyn : DynamicLeaves F) (b : RecordBatch F) (names : List String) (row : ℕ) :
    List (BlockPredicate F) → Option Bool
  | [] => some true
  | p :: ps => and3 (holds dyn b names row p) (holdsAll dyn b names row ps)

def holdsAny (dyn : DynamicLeaves F) (b : RecordBatch F) (names : List String) (row : ℕ) :
    List (BlockPredicate F) → Option Bool
  | [] => some false
  | p :: ps => or3 (holds dyn b names row p) (holdsAny dyn b names row ps)

end

end Truth

/-! ### What the statistics record -/

variable {cells : List (Option Int)}

theorem MinMax.push_bounds {s : MinMax} :
    (cells.foldl MinMax.push s).min ≤ s.min ∧ s.max ≤ (cells.foldl MinMax.push s).max ∧ ∀ v, some v ∈ cells →
        (cells.foldl MinMax.push s).min ≤ v ∧ v ≤ (cells.foldl MinMax.push s).max := by
  induction cells generalizing s with
  | nil => simp
  | cons c cells ih =>
    obtain ⟨hmin, hmax, hall⟩ := ih (s := s.push c)
    rw [foldl_cons]
    cases c with
    | none =>
      refine ⟨hmin, hmax, fun v hv => hall v ?_⟩
      simpa using hv
    | some w =>
      have h₁ : (s.push (some w)).min ≤ s.min ∧ (s.push (some w)).min ≤ w := by
        simp only [MinMax.push]
        split <;> omega
      have h₂ : s.max ≤ (s.push (some w)).max ∧ w ≤ (s.push (some w)).max := by
        simp only [MinMax.push]
        split <;> omega
      refine ⟨hmin.trans h₁.1, h₂.1.trans hmax, fun v hv => ?_⟩
      rcases mem_cons.mp hv with heq | hv
      · cases heq
        exact ⟨hmin.trans h₁.2, h₂.2.trans hmax⟩
      · exact hall v hv

theorem minMax_bounds {mn mx : Int} {nulls : ℕ} (h : minMax cells = some (mn, mx, nulls)) {v : Int}
    (hv : some v ∈ cells) : mn ≤ v ∧ v ≤ mx := by
  unfold minMax at h
  dsimp only at h
  split at h
  · cases h
    exact MinMax.push_bounds.2.2 v hv
  · cases h

theorem MinMax.push_attained (cells : List (Option Int)) (s : MinMax) :
    ((cells.foldl MinMax.push s).min = s.min ∨ some (cells.foldl MinMax.push s).min ∈ cells) ∧
      ((cells.foldl MinMax.push s).max = s.max ∨ some (cells.foldl MinMax.push s).max ∈ cells) ∧
      ((cells.foldl MinMax.push s).any = true ↔ s.any = true ∨ ∃ v, some v ∈ cells) := by
  induction cells generalizing s with
  | nil => simp
  | cons c cells ih =>
    obtain ⟨hmin, hmax, hany⟩ := ih (s.push c)
    rw [foldl_cons]
    cases c with
    | none =>
      refine ⟨?_, ?_, ?_⟩
      · exact hmin.imp id (mem_cons_of_mem _)
      · exact hmax.imp id (mem_cons_of_mem _)
      · rw [hany]
        simp [MinMax.push]
    | some w =>
      refine ⟨?_, ?_, ?_⟩
      · rcases hmin with hmin | hmin
        · rw [hmin]
          simp only [MinMax.push]
          split
          · exact .inr mem_cons_self
          · exact .inl rfl
        · exact .inr (mem_cons_of_mem _ hmin)
      · rcases hmax with hmax | hmax
        · rw [hmax]
          simp only [MinMax.push]
          split
          · exact .inr mem_cons_self
          · exact .inl rfl
        · exact .inr (mem_cons_of_mem _ hmax)
      · rw [hany]
        simp [MinMax.push]

theorem minMax_attained {mn mx : Int} {nulls : ℕ} (h : minMax cells = some (mn, mx, nulls))
    (hcells : ∀ v, some v ∈ cells → InI64 v) : some mn ∈ cells ∧ some mx ∈ cells := by
  obtain ⟨hmin, hmax, hany⟩ := MinMax.push_attained cells .start
  have hbounds := fun v (hv : some v ∈ cells) => minMax_bounds h hv
  unfold minMax at h
  dsimp only at h
  split at h
  · rename_i htrue
    cases h
    obtain ⟨v, hv⟩ : ∃ v, some v ∈ cells := by simpa [MinMax.start] using hany.mp htrue
    obtain ⟨hlo, hhi⟩ := hbounds v hv
    have hv64 := hcells v hv
    simp only [MinMax.start, i64Max, i64Min, InI64] at *
    -- a bound that never moved is at an end of `i64`, and the cell is there too
    constructor
    · rcases hmin with hmin | hmin
      · obtain rfl : v = 2 ^ 63 - 1 := by omega
        rw [hmin]
        exact hv
      · exact hmin
    · rcases hmax with hmax | hmax
      · obtain rfl : v = -2 ^ 63 := by omega
        rw [hmax]
        exact hv
      · exact hmax
  · cases h

theorem minMax_isSome {v : Int} (hv : some v ∈ cells) : ∃ p, minMax cells = some p := by
  obtain ⟨-, -, hany⟩ := MinMax.push_attained cells .start
  exact ⟨_, if_pos (hany.mpr (.inr ⟨v, hv⟩))⟩

theorem strLoop_bounds {cells : List (Option String)} {acc : Option (String × String)} {k nulls : ℕ}
    {mn mx : String} (h : strLoop acc k cells = some (some (mn, mx), nulls)) :
    (∀ p ∈ acc, mn ≤ p.1 ∧ p.2 ≤ mx) ∧ ∀ v, some v ∈ cells → mn ≤ v ∧ v ≤ mx := by
  induction cells generalizing acc k with
  | nil =>
    cases h
    simp
  | cons c cells ih =>
    cases c with
    | none =>
      obtain ⟨hacc, hall⟩ := ih h
      refine ⟨hacc, fun v hv => hall v ?_⟩
      simpa using hv
    | some w =>
      unfold strLoop at h
      split at h
      · cases h
      · cases acc with
        | none =>
          obtain ⟨hacc, hall⟩ := ih h
          refine ⟨by simp, fun v hv => ?_⟩
          rcases mem_cons.mp hv with heq | hv
          · cases heq
            exact hacc (w, w) rfl
          · exact hall v hv
        | some p =>
          obtain ⟨lo, hi⟩ := p
          obtain ⟨hacc, hall⟩ := ih h
          obtain ⟨hlo, hhi⟩ := hacc _ rfl
          have h₁ : mn ≤ lo ∧ mn ≤ w := by
            dsimp only at hlo
            split at hlo
            · rename_i hlt
              exact ⟨hlo.trans hlt.le, hlo⟩
            · rename_i hge
              exact ⟨hlo, hlo.trans (not_lt.mp hge)⟩
          have h₂ : hi ≤ mx ∧ w ≤ mx := by
            dsimp only at hhi
            split at hhi
            · rename_i hlt
              exact ⟨(le_of_lt hlt).trans hhi, hhi⟩
            · rename_i hge
              exact ⟨hhi, (not_lt.mp hge).trans hhi⟩
          refine ⟨?_, fun v hv => ?_⟩
          · rintro p ⟨⟩
            exact ⟨h₁.1, h₂.1⟩
          · rcases mem_cons.mp hv with heq | hv
            · cases heq
              exact ⟨h₁.2, h₂.2⟩
            · exact hall v hv

variable {name : String} {s : ColStat}

theorem lookup_insertCol {other : String} {t : ColStat} {cols : List (String × ColStat)}
    (h : (insertCol name s cols).lookup other = some t) : (other = name ∧ t = s) ∨ cols.lookup other = some t := by
  induction cols with
  | nil =>
    rw [insertCol, lookup_cons] at h
    split at h
    · rename_i heq
      cases h
      exact .inl ⟨by simpa using heq, rfl⟩
    · cases h
  | cons p rest ih =>
    obtain ⟨k, v⟩ := p
    unfold insertCol at h
    split at h
    · rename_i hk
      subst hk
      rw [lookup_cons] at h
      rw [lookup_cons]
      split at h
      · rename_i heq
        cases h
        exact .inl ⟨by simpa using heq, rfl⟩
      · exact .inr h
    · rw [lookup_cons] at h
      rw [lookup_cons]
      split at h
      · exact .inr h
      · exact ih h

theorem lookup_statsLoop {cols : List (Field × List (Value F))} {acc out : List (String × ColStat)}
    (h : statsLoop acc cols = some out) (hs : out.lookup name = some s) : acc.lookup name = some s ∨
      ∃ p ∈ cols, p.1.name = name ∧ colStat p.1.dataType p.2 = some (some s) := by
  induction cols generalizing acc with
  | nil =>
    cases h
    exact .inl hs
  | cons p rest ih =>
    obtain ⟨f, col⟩ := p
    unfold statsLoop at h
    split at h
    · cases h
    · rcases ih h with hacc | ⟨p, hp, hname, hstat⟩
      · exact .inl hacc
      · exact .inr ⟨p, by simp [hp], hname, hstat⟩
    · rename_i t ht
      rcases ih h with hacc | ⟨p, hp, hname, hstat⟩
      · rcases lookup_insertCol hacc with ⟨rfl, rfl⟩ | hacc
        · exact .inr ⟨(f, col), by simp, rfl, ht⟩
        · exact .inl hacc
      · exact .inr ⟨p, by simp [hp], hname, hstat⟩

theorem isSome_lookup_insertCol {other : String} {cols : List (String × ColStat)}
    (h : other = name ∨ (cols.lookup other).isSome) : ((insertCol name s cols).lookup other).isSome := by
  induction cols with
  | nil =>
    rcases h with rfl | h
    · simp [insertCol]
    · cases h
  | cons p rest ih =>
    obtain ⟨k, v⟩ := p
    unfold insertCol
    split
    · rename_i hk
      subst hk
      rw [lookup_cons]
      split
      · rfl
      · rename_i hne
        rcases h with rfl | h
        · simp at hne
        · rw [lookup_cons, hne] at h
          exact h
    · rw [lookup_cons]
      split
      · rfl
      · rename_i hne
        refine ih (h.imp id fun h => ?_)
        rw [lookup_cons, hne] at h
        exact h

theorem isSome_lookup_statsLoop {cols : List (Field × List (Value F))}
    {acc out : List (String × ColStat)} (h : statsLoop acc cols = some out)
    (hname : (acc.lookup name).isSome ∨ ∃ p ∈ cols, p.1.name = name ∧ ∃ s, colStat p.1.dataType p.2 = some (some s)) :
    (out.lookup name).isSome := by
  induction cols generalizing acc with
  | nil =>
    cases h
    simpa using hname
  | cons p rest ih =>
    obtain ⟨f, col⟩ := p
    unfold statsLoop at h
    split at h
    · cases h
    · rename_i hnone
      refine ih h ?_
      rcases hname with hacc | ⟨q, hq, hqname, s, hs⟩
      · exact .inl hacc
      · rcases mem_cons.mp hq with rfl | hq
        · rw [hnone] at hs
          cases hs
        · exact .inr ⟨q, hq, hqname, s, hs⟩
    · refine ih h ?_
      rcases hname with hacc | ⟨q, hq, hqname, s, hs⟩
      · exact .inl (isSome_lookup_insertCol (.inr hacc))
      · rcases mem_cons.mp hq with rfl | hq
        · exact .inl (isSome_lookup_insertCol (.inl hqname.symm))
        · exact .inr ⟨q, hq, hqname, s, hs⟩

theorem lookup_statsForBatch {b : RecordBatch F} {bs : BlockStats} (h : statsForBatch b = some bs)
    (hs : bs.cols.lookup name = some s) : ∃ i f, b.schema[i]? = some f ∧ f.name = name ∧
      colStat f.dataType (b.column i) = some (some s) := by
  obtain ⟨cols, hcols, rfl⟩ := Option.map_eq_some_iff.mp h
  rcases lookup_statsLoop hcols hs with hacc | ⟨p, hp, hname, hstat⟩
  · simp at hacc
  · obtain ⟨i, hi⟩ := getElem?_of_mem hp
    obtain ⟨hf, hc⟩ := getElem?_zip_eq_some.mp hi
    refine ⟨i, p.1, hf, hname, ?_⟩
    rw [RecordBatch.column, getD_eq_getElem?_getD, hc]
    exact hstat

theorem lookup_statsForBatch_of_distinct {b : RecordBatch F} (hd : Schema.Distinct b.schema)
    {bs : BlockStats} (h : statsForBatch b = some bs) {i : ℕ} {f : Field} (hf : b.schema[i]? = some f)
    (hs : colStat f.dataType (b.column i) = some (some s)) : bs.cols.lookup f.name = some s := by
  have hsome : (bs.cols.lookup f.name).isSome := by
    obtain ⟨cols, hcols, rfl⟩ := Option.map_eq_some_iff.mp h
    refine isSome_lookup_statsLoop hcols (.inr ⟨(f, b.column i), ?_, rfl, s, hs⟩)
    refine mem_of_getElem? (i := i) ?_
    rw [getElem?_zip_eq_some]
    exact ⟨hf, RecordBatch.getElem?_columns hf⟩
  obtain ⟨t, ht⟩ := Option.isSome_iff_exists.mp hsome
  obtain ⟨j, g, hg, hname, hstat⟩ := lookup_statsForBatch h ht
  have hj := indexOf_of_distinct hd hg
  rw [hname, indexOf_of_distinct hd hf] at hj
  cases hj
  rw [hf] at hg
  cases hg
  rw [hs] at hstat
  cases hstat
  exact ht

def ColStat.covers : ColStat → Value F → Prop
  | .ts min max _, .ts n => min ≤ n ∧ n ≤ max
  | .int64 min max _, .int n => min ≤ n ∧ n ≤ max
  | .str min max _, .str s => min ≤ s ∧ s ≤ max
  | _, _ => True

theorem colStat_covers {dt : DataType} {col : List (Value F)} (h : colStat dt col = some (some s)) :
    (∀ v ∈ col, s.covers v) ∧ ∀ mn mx k, s = .ts mn mx k → ∃ tz, dt = .timestamp .nanosecond tz := by
  unfold colStat at h
  split at h
  · rename_i tz
    simp only [Option.some.injEq] at h
    obtain ⟨⟨mn, mx, k⟩, hmm, rfl⟩ := Option.map_eq_some_iff.mp h
    refine ⟨fun v hv => ?_, fun _ _ _ _ => ⟨tz, rfl⟩⟩
    cases v with
    | ts n => exact minMax_bounds hmm (mem_map.mpr ⟨_, hv, rfl⟩)
    | _ => trivial
  · simp only [Option.some.injEq] at h
    obtain ⟨⟨mn, mx, k⟩, hmm, rfl⟩ := Option.map_eq_some_iff.mp h
    refine ⟨fun v hv => ?_, by simp⟩
    cases v with
    | int n => exact minMax_bounds hmm (mem_map.mpr ⟨_, hv, rfl⟩)
    | _ => trivial
  · simp only [Option.some.injEq] at h
    obtain ⟨⟨mn, mx, k⟩, hmm, rfl⟩ := Option.map_eq_some_iff.mp h
    refine ⟨fun v hv => ?_, by simp⟩
    cases v with
    | int n => exact minMax_bounds hmm (mem_map.mpr ⟨_, hv, rfl⟩)
    | _ => trivial
  · simp only [Option.some.injEq] at h
    unfold strStats at h
    split at h
    · rename_i mn mx k hloop
      cases h
      refine ⟨fun v hv => ?_, by simp⟩
      cases v with
      | str t => exact (strLoop_bounds hloop).2 t (mem_map.mpr ⟨_, hv, rfl⟩)
      | _ => trivial
    · cases h
  · cases h
  · cases h

section Soundness

variable [DecidableEq F] {dyn : DynamicLeaves F} {b : RecordBatch F} {bs : BlockStats}
  {names : List String} {row : ℕ}

variable {col : ColumnId}

omit [DecidableEq F] in
theorem onCell_eq_true (hd : Schema.Distinct b.schema) (hbs : statsForBatch b = some bs)
    {test : DataType → Value F → Option Bool} (h : onCell b names row col test = some true)
    (hnull : ∀ dt, test dt .null ≠ some true) : ∃ dt v, test dt v = some true ∧ ∀ s ∈ bs.stat names col, s.covers v ∧
      ∀ mn mx k, s = .ts mn mx k → ∃ tz, dt = .timestamp .nanosecond tz := by
  unfold onCell at h
  split at h
  · cases h
  · rename_i name hname
    split at h
    · cases h
    · rename_i f hfind
      refine ⟨f.dataType, b.cell name row, h, fun s hs => ?_⟩
      have hcell : b.cell name row ≠ .null := by
        intro heq
        exact hnull f.dataType (heq ▸ h)
      obtain ⟨i, g, hg, hgname, hidx, hmem, -⟩ := RecordBatch.cell_ne_null hcell
      rw [Option.mem_def, BlockStats.stat, hname, Option.bind_some] at hs
      obtain ⟨j, e, he, hename, hstat⟩ := lookup_statsForBatch hbs hs
      -- names are distinct, so the recorded column is the one the cell is read from
      obtain rfl : j = i := by
        have hj := indexOf_of_distinct hd he
        rw [hename, hidx] at hj
        exact (Option.some.inj hj).symm
      obtain rfl : e = g := by
        rw [hg] at he
        exact (Option.some.inj he).symm
      have hfe : f = e := by
        have hfname : f.name = name := by simpa using find?_some hfind
        obtain ⟨k, hk⟩ := getElem?_of_mem (mem_of_find?_eq_some hfind)
        have hkj := indexOf_of_distinct hd hk
        rw [hfname, hidx] at hkj
        cases hkj
        rw [hk] at hg
        exact Option.some.inj hg
      subst hfe
      exact ⟨(colStat_covers hstat).1 _ hmem, (colStat_covers hstat).2⟩

theorem equalsOk_of_cellEq {dt : DataType} {v : Value F} {value : ScalarValue F}
    (h : cellEq dt v value = some true) {s : ColStat} (hs : s.covers v)
    (hts : ∀ mn mx k, s = .ts mn mx k → ∃ tz, dt = .timestamp .nanosecond tz) : equalsOk s value = true := by
  cases s with
  | ts mn mx k =>
    obtain ⟨tz, rfl⟩ := hts mn mx k rfl
    cases v <;> cases value <;> simp_all [cellEq, equalsOk, ColStat.covers, TimeUnit.nanos]
  | int64 mn mx k | str mn mx k =>
    cases v <;> cases value <;> simp_all [cellEq, equalsOk, ColStat.covers]

theorem and3_eq_true {x y : Option Bool} : and3 x y = some true ↔ x = some true ∧ y = some true := by
  rcases x with _ | x <;> rcases y with _ | y <;> (try cases x) <;> (try cases y) <;> simp [and3]

theorem or3_eq_true {x y : Option Bool} : or3 x y = some true ↔ x = some true ∨ y = some true := by
  rcases x with _ | x <;> rcases y with _ | y <;> (try cases x) <;> (try cases y) <;> simp [or3]

theorem foldr_or3_eq_true {l : List (Option Bool)} : l.foldr or3 (some false) = some true ↔ some true ∈ l := by
  induction l with
  | nil => simp
  | cons x l ih =>
    rw [foldr_cons, or3_eq_true, ih, mem_cons]
    exact or_congr_left eq_comm

omit [DecidableEq F] in
theorem evaluate_timeRange (hd : Schema.Distinct b.schema) (hbs : statsForBatch b = some bs)
    {start stop : Int} (h : onCell b names row col (cellInRange start stop) = some true) :
    evaluate bs names (.timeRange col start stop : BlockPredicate F) = true := by
  obtain ⟨dt, v, hv, hcov⟩ := onCell_eq_true hd hbs h (by simp [cellInRange])
  unfold evaluate
  split
  · rename_i mn mx k hs
    obtain ⟨hcv, hts⟩ := hcov _ hs
    obtain ⟨tz, rfl⟩ := hts mn mx k rfl
    cases v with
    | ts n =>
      simp only [cellInRange, TimeUnit.nanos, mul_one, Option.some.injEq, decide_eq_true_eq] at hv
      simp only [ColStat.covers] at hcv
      simp only [Bool.not_eq_true', Bool.or_eq_false_iff, decide_eq_false_iff_not]
      omega
    | _ => cases hv
  · rfl

theorem evaluate_equals (hd : Schema.Distinct b.schema) (hbs : statsForBatch b = some bs)
    {value : ScalarValue F} (h : onCell b names row col (fun dt v => cellEq dt v value) = some true) :
    evaluate bs names (.equals col value) = true := by
  obtain ⟨dt, v, hv, hcov⟩ := onCell_eq_true hd hbs h (by simp [cellEq])
  unfold evaluate
  split
  · rename_i s hs
    obtain ⟨hcv, hts⟩ := hcov s hs
    exact equalsOk_of_cellEq hv hcv hts
  · rfl

theorem evaluate_inSet (hd : Schema.Distinct b.schema) (hbs : statsForBatch b = some bs)
    {values : List (ScalarValue F)}
    (h : onCell b names row col (fun dt v => (values.map (cellEq dt v)).foldr or3 (some false)) = some true) :
    evaluate bs names (.inSet col values) = true := by
  obtain ⟨dt, v, hv, hcov⟩ := onCell_eq_true hd hbs h (by simp [foldr_or3_eq_true, cellEq])
  obtain ⟨value, hmem, hval⟩ := mem_map.mp (foldr_or3_eq_true.mp hv)
  unfold evaluate
  split
  · rename_i s hs
    obtain ⟨hcv, hts⟩ := hcov s hs
    exact any_eq_true.mpr ⟨value, hmem, equalsOk_of_cellEq hval hcv hts⟩
  · rfl

mutual

theorem evaluate_sound (hd : Schema.Distinct b.schema) (hbs : statsForBatch b = some bs) :
    ∀ p : BlockPredicate F, holds dyn b names row p = some true → evaluate bs names p = true
  | .all, _ => by rw [evaluate]
  | .and subs, h => by
    rw [holds] at h
    rw [evaluate]
    exact evaluateAll_sound hd hbs subs h
  | .or subs, h => by
    rw [holds] at h
    rw [evaluate, Bool.or_eq_true]
    exact .inr (evaluateAny_sound hd hbs subs h)
  | .not _, _ => by rw [evaluate]
  | .timeRange _ _ _, h => by
    rw [holds] at h
    exact evaluate_timeRange hd hbs h
  | .equals _ _, h => by
    rw [holds] at h
    exact evaluate_equals hd hbs h
  | .inSet _ _, h => by
    rw [holds] at h
    exact evaluate_inSet hd hbs h
  | .stringHas _ _, _ => by rw [evaluate]
  | .dynamicPathExists _ _, _ => by rw [evaluate]
  | .dynamicPathEquals _ _ _, _ => by rw [evaluate]

theorem evaluateAll_sound (hd : Schema.Distinct b.schema) (hbs : statsForBatch b = some bs) :
    ∀ ps : List (BlockPredicate F), holdsAll dyn b names row ps = some true → evaluateAll bs names ps = true
  | [], _ => by rw [evaluateAll]
  | p :: ps, h => by
    rw [holdsAll, and3_eq_true] at h
    rw [evaluateAll, Bool.and_eq_true]
    exact ⟨evaluate_sound hd hbs p h.1, evaluateAll_sound hd hbs ps h.2⟩

theorem evaluateAny_sound (hd : Schema.Distinct b.schema) (hbs : statsForBatch b = some bs) :
    ∀ ps : List (BlockPredicate F), holdsAny dyn b names row ps = some true → evaluateAny bs names ps = true
  | [], h => by
    rw [holdsAny] at h
    cases h
  | p :: ps, h => by
    rw [holdsAny, or3_eq_true] at h
    rw [evaluateAny, Bool.or_eq_true]
    rcases h with h | h
    · exact .inl (evaluate_sound hd hbs p h)
    · exact .inr (evaluateAny_sound hd hbs ps h)

end

/-- **Block pruning is sound.**  For every batch with distinct column names, every predicate however
nested, every numbering of columns and every row: if the row satisfies the predicate, the
statistics of the block do not rule it out. -/
theorem evaluate_of_holds (dyn : DynamicLeaves F) {b : RecordBatch F}
    (hd : Schema.Distinct b.schema) {bs : BlockStats} (hbs : statsForBatch b = some bs)
    (names : List String) (row : ℕ) (p : BlockPredicate F)
    (h : holds dyn b names row p = some true) : evaluate bs names p = true :=
  evaluate_sound hd hbs p h

end Soundness

/-! ### A batch with two columns of one name -/

def noDynamic : DynamicLeaves ℚ := { pathExists := fun _ _ => none, pathEquals := fun _ _ _ => none }

/-- One row of two integers, in columns with the names `c` and `d`. -/
def pairBatch (c d : String) : RecordBatch ℚ :=
  { schema := [⟨c, .int64⟩, ⟨d, .int64⟩], columns := [[.int 1], [.int 5]], numRows := 1,
    width := rfl, height := by simp,
    typed := by
      simp [DataType.admits, InI64] }

/-- Under distinct names the row is found. -/
theorem evaluate_pairBatch : ∃ bs, statsForBatch (pairBatch "x" "y") = some bs ∧
      evaluate bs ["x", "y"] (.equals 0 (.int64 1) : BlockPredicate ℚ) = true := by
  refine ⟨_, rfl, ?_⟩
  exact evaluate_of_holds noDynamic (b := pairBatch "x" "y") (by decide) rfl ["x", "y"] 0 _
    (by decide)

/-- **A repeated name shadows a column.**  The row has the value 1 in the first column, but the
statistics under its name are those of the second, and the block is skipped. -/
theorem evaluate_shadowed_column : ∃ bs, statsForBatch (pairBatch "x" "x") = some bs ∧
      holds noDynamic (pairBatch "x" "x") ["x", "x"] 0 (.equals 0 (.int64 1)) = some true ∧
      evaluate bs ["x", "x"] (.equals 0 (.int64 1) : BlockPredicate ℚ) = false := by
  refine ⟨_, rfl, ?_, ?_⟩
  · decide
  · decide

end Tlm
