/-
**What the operators of a pipeline mean.**

`T | op₁ | … | opₙ` sends the rows of `T` through one operator after another.  A table on the way
has columns, rows, and the knowledge whether its rows are in an order that was asked for:
-/

import Pensieve.Relational

namespace Kql

open Relational

variable {V : Type}

/-- The operators, as the parser accepts them: a projection, an aggregation and an order have at
least one member. -/
inductive Op (V : Type) where
  | where_ (e : Expr V)
  | project (col : Col) (cols : List Col)
  | projectAway (cols : List Col)
  | extend (defs : List (Col × Expr V))
  | summarize (agg : Col × Aggregate V) (aggs : List (Col × Aggregate V)) (keys : List (Col × Expr V))
  | take (n : ℕ)
  /-- `true` is `desc` -/
  | sort (key : Expr V × Bool) (keys : List (Expr V × Bool))
  | top (n : ℕ) (key : Expr V × Bool)
  | count
  | distinct (cols : List Col)

structure Rel (V : Type) where
  cols : List Col
  rows : List (Row V)
  sorted : Bool

section Meaning

variable [Scalar V]

/-- `project`. -/
def pick (cols : List Col) (r : Row V) : Row V := cols.map fun c => (c, field r c)

/-- `distinct`: without columns the whole row counts. -/
def distinctRow (cols : List Col) (r : Row V) : Row V := if cols = [] then r else pick cols r

/-- `extend`: a column that is there already is overwritten where it stands. -/
def extendRow (cols : List Col) (defs : List (Col × Expr V)) (r : Row V) : Row V :=
  (r.map fun q => match (defs.filter (·.1 ∈ cols)).find? (·.1 = q.1) with
    | some d => (q.1, d.2.eval (field r))
    | none => q) ++
  (defs.filter (·.1 ∉ cols)).map fun d => (d.1, d.2.eval (field r))

/-- `take`: the first rows of an order, or any rows where there is none. -/
def Takes (n : ℕ) (R R' : Rel V) : Prop :=
  ∃ l : List (Row V), (if R.sorted then l = R.rows else l.Perm R.rows) ∧ R' = { R with rows := l.take n }

/-- `sort`. -/
def Sorts (keys : List (Expr V × Bool)) (R R' : Rel V) : Prop :=
  keyCols keys ⊆ R.cols ∧ ∃ l : List (Row V), l.Perm R.rows ∧
    (l.Pairwise fun a b => precedes keys (field a) (field b) = true) ∧
    R' = { R with rows := l, sorted := true }

/-- **One operator.** -/
def Step [DecidableEq V] (R R' : Rel V) : Op V → Prop
  | .where_ e => e.cols ⊆ R.cols ∧ R' = { R with rows := R.rows.filter fun r => Scalar.truth (e.eval (field r)) }
  | .project col cols => col :: cols ⊆ R.cols ∧ R' = ⟨col :: cols, R.rows.map (pick (col :: cols)), R.sorted⟩
  | .projectAway cols => cols ⊆ R.cols ∧
      R' = ⟨R.cols.filter (· ∉ cols), R.rows.map (List.filter fun q => q.1 ∉ cols), R.sorted⟩
  | .extend defs => (∀ d ∈ defs, d.2.cols ⊆ R.cols) ∧
      R' = ⟨R.cols ++ (defs.map Prod.fst).filter (· ∉ R.cols), R.rows.map (extendRow R.cols defs), R.sorted⟩
  | .summarize agg aggs keys => (∀ k ∈ keys, k.2.cols ⊆ R.cols) ∧
      (∀ a ∈ agg :: aggs, a.2.cols ⊆ R.cols) ∧ ∃ l out : List (Row V), l.Perm R.rows ∧
        out.Perm (groupRows keys (agg :: aggs) l) ∧
        R' = ⟨keys.map Prod.fst ++ (agg :: aggs).map Prod.fst, out, false⟩
  | .take n => Takes n R R'
  | .sort key keys => Sorts (key :: keys) R R'
  | .top n key => ∃ mid, Sorts [key] R mid ∧ Takes n mid R'
  | .count => R' = ⟨["Count"], [[("Count", Scalar.ofNat R.rows.length)]], false⟩
  | .distinct cols => cols ⊆ R.cols ∧ ∃ d : List (Row V), d.Nodup ∧ (∀ x, x ∈ d ↔ x ∈ R.rows.map (distinctRow cols)) ∧
      R' = ⟨if cols = [] then R.cols else cols, d, false⟩

def Run [DecidableEq V] : Rel V → List (Op V) → Rel V → Prop
  | R, [], R' => R = R'
  | R, op :: ops, R' => ∃ mid, Step R mid op ∧ Run mid ops R'

theorem run_snoc [DecidableEq V] {R R' : Rel V} {ops : List (Op V)} {op : Op V} :
    Run R (ops ++ [op]) R' ↔ ∃ mid, Run R ops mid ∧ Step mid R' op := by
  induction ops generalizing R with
  | nil => simp [Run]
  | cons o ops ih =>
    simp only [List.cons_append, Run, ih]
    constructor
    · rintro ⟨m, hm, m', hm', hlast⟩
      exact ⟨m', ⟨m, hm, hm'⟩, hlast⟩
    · rintro ⟨m', ⟨m, hm, hm'⟩, hlast⟩
      exact ⟨m, hm, m', hm', hlast⟩

/-- **The results of a pipeline** over a table, whose rows stand in any order. -/
def Results [DecidableEq V] (T : Table V) (ops : List (Op V)) (res : List (Row V)) : Prop :=
  ∃ l : List (Row V), l.Perm T.rows ∧ ∃ R, Run ⟨T.cols, l, false⟩ ops R ∧ R.rows = res

end Meaning

end Kql
