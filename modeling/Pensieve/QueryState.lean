/-
**The accumulator of the translation.**

The parser sends every operator of a pipeline into one `QueryState` and renders the state at the
end.  Most operators add to a list of the state or overwrite a field.
-/

import Pensieve.KqlOperators
import Pensieve.SqlQuery

namespace Kql

open Relational Sql

variable {V : Type}

structure QueryState (V : Type) where
  table : String
  select : List Col
  exclude : List Col
  extend : List (Col × Expr V)
  whereClauses : List (Expr V)
  groupBy : List (Col × Expr V)
  aggregates : List (Col × Aggregate V)
  /-- `true` is `DESC` -/
  orderBy : List (Expr V × Bool)
  limit : Option ℕ
  distinct : Bool
  ctes : List (String × Block V)
  /-- set by `summarize`, cleared by the sealing -/
  aggregated : Bool
  aggSeq : ℕ

namespace QueryState

def new (table : String) : QueryState V :=
  { table, select := [], exclude := [], extend := [], whereClauses := [], groupBy := [],
    aggregates := [], orderBy := [], limit := none, distinct := false, ctes := [],
    aggregated := false, aggSeq := 0 }

variable (st : QueryState V)

/-- Seals the aggregation as a common table expression and starts over from it.  What was said about
order and limit is lost. -/
def rebaseAggregation : QueryState V :=
  let name := "_agg" ++ toString st.aggSeq
  { table := name, select := [], exclude := [], extend := [], whereClauses := [], groupBy := [],
    aggregates := [], orderBy := [], limit := none, distinct := false,
    ctes := st.ctes ++ [(name, ⟨.grouped st.groupBy st.aggregates, st.table, st.whereClauses, [], none⟩)],
    aggregated := false, aggSeq := st.aggSeq + 1 }

/-- What `where` and the projections do first. -/
def sealed : QueryState V := if st.aggregated then st.rebaseAggregation else st

/-! ### Operators -/

def opWhere (e : Expr V) : QueryState V :=
  { st.sealed with whereClauses := st.sealed.whereClauses ++ [e] }

def opProject (away : Bool) (cols : List Col) : QueryState V :=
  if away then { st.sealed with exclude := st.sealed.exclude ++ cols }
  else { st.sealed with select := cols }

def opExtend (defs : List (Col × Expr V)) : QueryState V :=
  { st with extend := st.extend ++ defs }

def opSummarize (aggs : List (Col × Aggregate V)) (keys : List (Col × Expr V)) : QueryState V :=
  { st with aggregates := st.aggregates ++ aggs, groupBy := st.groupBy ++ keys, aggregated := true }

def opTake (n : ℕ) : QueryState V := { st with limit := some n }

def opSort (keys : List (Expr V × Bool)) : QueryState V :=
  { st with orderBy := st.orderBy ++ keys }

def opTop (n : ℕ) (key : Expr V × Bool) : QueryState V :=
  { st with orderBy := st.orderBy ++ [key], limit := some n }

def opDistinct (cols : List Col) : QueryState V :=
  { st with distinct := true, select := if cols = [] then st.select else cols }

end QueryState

/-- `count(*)`. -/
def countAll [Scalar V] : Aggregate V where
  cols := []
  eval := fun ρs => Scalar.ofNat ρs.length
  eval_congr := fun _ _ h => by rw [h.length_eq]

def QueryState.opCount [Scalar V] (st : QueryState V) : QueryState V :=
  { st with aggregates := st.aggregates ++ [("Count", countAll)] }

/-- `parse_operator`, for the operators of tables. -/
def applyOp [Scalar V] (st : QueryState V) : Op V → QueryState V
  | .where_ e => st.opWhere e
  | .project col cols => st.opProject false (col :: cols)
  | .projectAway cols => st.opProject true cols
  | .extend defs => st.opExtend defs
  | .summarize agg aggs keys => st.opSummarize (agg :: aggs) keys
  | .take n => st.opTake n
  | .sort key keys => st.opSort (key :: keys)
  | .top n key => st.opTop n key
  | .count => st.opCount
  | .distinct cols => st.opDistinct cols

/-! ### Rendering -/

namespace QueryState

variable (st : QueryState V)

/-- `(expr) AS name`. -/
def extendItem (d : Col × Expr V) : Item V := .expr d.1 d.2

def selectItem (col : Col) : Item V :=
  match st.extend.find? (·.1 = col) with
  | some d => .expr col d.2
  | none => .column col

/-- The `SELECT` list, and whether it has `DISTINCT`.  Keys are rendered into it only together with
aggregates, and `summarize` has at least one. -/
def selectClause : Select V :=
  if st.aggregates ≠ [] then .grouped st.groupBy st.aggregates
  else if st.distinct then
    .items true (if st.select = [] then
        if st.extend = [] then [.star] else st.extend.map extendItem
      else st.select.map st.selectItem)
  else if st.select ≠ [] then .items false (st.select.map st.selectItem)
  else
    .items false ((if st.exclude = [] then .star else .starExcept st.exclude) :: st.extend.map extendItem)

def toSql : Query V where
  ctes := st.ctes
  body :=
    { select := st.selectClause, source := st.table, where_ := st.whereClauses,
      orderBy := st.orderBy, limit := st.limit }

end QueryState

def translate [Scalar V] (table : String) (ops : List (Op V)) : QueryState V := ops.foldl applyOp (.new table)

/-- `kql_to_sql`, from the operators on. -/
def kqlToSql [Scalar V] (table : String) (ops : List (Op V)) : Query V := (translate table ops).toSql

end Kql
