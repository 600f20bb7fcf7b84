/-
**Arrow record batches.**

The part of the Arrow format that pruning depends on: column types, schemas, and batches of typed
columns.  A batch carries the proofs that its columns match its schema, so that a mistyped or ragged
one cannot be built.
-/

import Mathlib.Tactic

namespace Arrow

open List

/-! ### Types and schemas -/

inductive TimeUnit where
  | second
  | millisecond
  | microsecond
  | nanosecond
  deriving DecidableEq

def TimeUnit.nanos : TimeUnit → Int
  | .second => 1000000000
  | .millisecond => 1000000
  | .microsecond => 1000
  | .nanosecond => 1

inductive DataType where
  | timestamp (unit : TimeUnit) (tz : Option String)
  | int32
  | int64
  | utf8
  | largeUtf8
  | float32
  | float64
  | boolean
  | fixedSizeList (inner : DataType) (dim : ℕ)
  | other (name : String)
  deriving DecidableEq

structure Field where
  name : String
  dataType : DataType
  deriving DecidableEq

abbrev Schema := List Field

def DataType.isTimestampNs : DataType → Bool
  | .timestamp .nanosecond _ => true
  | _ => false

/-! ### Values -/

/-- The range of `i64`. -/
def InI64 (n : Int) : Prop := -2 ^ 63 ≤ n ∧ n < 2 ^ 63

instance (n : Int) : Decidable (InI64 n) := inferInstanceAs (Decidable (_ ∧ _))

inductive Value (F : Type) where
  | null
  | ts (n : Int)
  | int (n : Int)
  | str (s : String)
  | float (x : F)
  | bool (b : Bool)
  | vec (xs : List F)
  | other (repr : String)
  deriving DecidableEq

variable {F : Type}

def DataType.admits : DataType → Value F → Bool
  | _, .null => true
  | .timestamp _ _, .ts n => InI64 n
  | .int32, .int n => -2 ^ 31 ≤ n ∧ n < 2 ^ 31
  | .int64, .int n => InI64 n
  | .utf8, .str _ => true
  | .largeUtf8, .str _ => true
  | .float32, .float _ => true
  | .float64, .float _ => true
  | .boolean, .bool _ => true
  | .fixedSizeList .float32 dim, .vec xs => xs.length = dim
  | .fixedSizeList _ _, .other _ => true
  | .other _, .other _ => true
  | _, _ => false

/-! ### Batches -/

structure RecordBatch (F : Type) where
  schema : Schema
  columns : List (List (Value F))
  numRows : ℕ
  width : columns.length = schema.length
  height : ∀ c ∈ columns, c.length = numRows
  typed : ∀ p ∈ schema.zip columns, ∀ v ∈ p.2, p.1.dataType.admits v = true

def RecordBatch.column (b : RecordBatch F) (i : ℕ) : List (Value F) := b.columns.getD i []

def RecordBatch.dataTypeAt (b : RecordBatch F) (i : ℕ) : Option DataType := (b.schema[i]?).map Field.dataType

def indexOf (schema : Schema) (name : String) : Option ℕ := schema.findIdx? fun f => f.name = name

def RecordBatch.cell (b : RecordBatch F) (name : String) (row : ℕ) : Value F :=
  match indexOf b.schema name with
  | some i => (b.column i).getD row .null
  | none => .null

def Schema.Distinct (schema : Schema) : Prop := (schema.map Field.name).Nodup

instance (schema : Schema) : Decidable (Schema.Distinct schema) := inferInstanceAs (Decidable (List.Nodup _))

/-! ### Reading cells -/

theorem indexOf_eq_some {schema : Schema} {name : String} {i : ℕ}
    (h : indexOf schema name = some i) : ∃ f, schema[i]? = some f ∧ f.name = name := by
  obtain ⟨hlt, hname, -⟩ := findIdx?_eq_some_iff_getElem.mp h
  exact ⟨schema[i], getElem?_eq_getElem hlt, by simpa using hname⟩

theorem indexOf_of_distinct {schema : Schema} (h : Schema.Distinct schema) {i : ℕ} {f : Field}
    (hf : schema[i]? = some f) : indexOf schema f.name = some i := by
  obtain ⟨hlt, rfl⟩ := List.getElem?_eq_some_iff.mp hf
  refine findIdx?_eq_some_iff_getElem.mpr ⟨hlt, by simp, ?_⟩
  intro j hj hname
  have hlen : j < (schema.map Field.name).length := by
    rw [length_map]
    exact hj.trans hlt
  have heq : (schema.map Field.name)[j]? = (schema.map Field.name)[i]? := by
    rw [getElem?_map, getElem?_map, getElem?_eq_getElem (hj.trans hlt), hf]
    simpa using hname
  exact absurd ((getElem?_inj hlen h).mp heq) (by omega)

theorem Schema.Distinct.field_eq {schema : Schema} (h : Schema.Distinct schema) {f g : Field}
    (hf : f ∈ schema) (hg : g ∈ schema) (hname : f.name = g.name) : f = g :=
  inj_on_of_nodup_map h hf hg hname

variable {b : RecordBatch F}

theorem RecordBatch.getElem?_columns {i : ℕ} {f : Field}
    (hf : b.schema[i]? = some f) : b.columns[i]? = some (b.column i) := by
  have hlt : i < b.schema.length := (List.getElem?_eq_some_iff.mp hf).1
  rw [RecordBatch.column, getD_eq_getElem?_getD, getElem?_eq_getElem (b.width ▸ hlt), Option.getD_some]

theorem RecordBatch.admits_of_mem {i : ℕ} {f : Field} (hf : b.schema[i]? = some f) {v : Value F}
    (hv : v ∈ b.column i) : f.dataType.admits v = true := by
  have hzip : (f, b.column i) ∈ b.schema.zip b.columns := by
    refine mem_of_getElem? (i := i) ?_
    rw [getElem?_zip_eq_some]
    exact ⟨hf, getElem?_columns hf⟩
  exact b.typed (f, b.column i) hzip v hv

theorem RecordBatch.cell_ne_null {name : String} {row : ℕ} (h : b.cell name row ≠ .null) :
    ∃ i f, b.schema[i]? = some f ∧ f.name = name ∧ indexOf b.schema name = some i ∧
      b.cell name row ∈ b.column i ∧ f.dataType.admits (b.cell name row) = true := by
  unfold RecordBatch.cell at h ⊢
  split at h
  · rename_i i hi
    obtain ⟨f, hf, hname⟩ := indexOf_eq_some hi
    have hmem : (b.column i).getD row .null ∈ b.column i := by
      rw [getD_eq_getElem?_getD] at h ⊢
      cases hv : (b.column i)[row]? with
      | none => simp [hv] at h
      | some v => exact mem_of_getElem? hv
    exact ⟨i, f, hf, hname, hi, hmem, admits_of_mem hf hmem⟩
  · exact absurd rfl h

end Arrow
