/-
**`union`: the outer union by name.**

`union withsource=S A, (B | …), …` computes the columns of all operands, in the order in which they
are first seen, and lets every operand select all of them: its own by name, a null for each of the
others, and the name of its root table for `S`.
-/

import Pensieve.ExprLowering
import Pensieve.QueryState
import Pensieve.VarLength

namespace Kql

open Function
open List
open Relational Sql KqlGraph

/-- Values with texts among them: a null has none. -/
class Texts (V : Type) extends Scalar V where
  str : V → Option String
  ofStr : String → V

variable {V : Type}

/-! ### Operands -/

/-- `RESHAPING_OPS`. -/
inductive Reshaping
  | project
  | projectAway
  | summarize
  | count
  | distinct
  | extend
  | graphTraverse
  | graphShortestPath
  | makeGraph
  | graphMatch
  deriving DecidableEq

def Reshaping.keyword : Reshaping → String
  | .project => "project"
  | .projectAway => "project-away"
  | .summarize => "summarize"
  | .count => "count"
  | .distinct => "distinct"
  | .extend => "extend"
  | .graphTraverse => "graph-traverse"
  | .graphShortestPath => "graph-shortest-path"
  | .makeGraph => "make-graph"
  | .graphMatch => "graph-match"

inductive BranchOp (V : Type) where
  | where_ (e : Expr V)
  | take (n : ℕ)
  | sort (key : Expr V × Bool) (keys : List (Expr V × Bool))
  | top (n : ℕ) (key : Expr V × Bool)
  /-- `graph-var-length`, with the columns `from` and `to` -/
  | graphVarLength (src dst : Col) (seeds : List String) (minHops maxHops : ℕ)
      (direction : GraphDirection) (edgeType : Option String)
  | graphVarMatch

inductive PipeOp (V : Type) where
  | branch (op : BranchOp V)
  | reshape (op : Reshaping)

inductive Operand (V : Type) where
  | table (name : String)
  /-- `()` -/
  | empty
  /-- `(union …)` -/
  | union
  /-- `(root | …)` -/
  | pipeline (root : String) (ops : List (PipeOp V))

structure Walk where
  table : String
  src : Col
  dst : Col
  query : VarLength

/-- The state of a sub-parser: beside the state that the operators of tables share, the walks. -/
structure BranchState (V : Type) where
  query : QueryState V
  walks : List Walk

/-- Where a branch reads from: `UnionFrom`. -/
inductive From (V : Type) where
  | table (name : String)
  | subQuery (st : BranchState V)

structure UnionOperand (V : Type) where
  rootTable : String
  source : From V

def rejectReshaping : List (PipeOp V) → Except String (List (BranchOp V))
  | [] => .ok []
  | .reshape op :: _ => .error ("union branch reshapes its schema (`" ++ op.keyword ++
      "`); v1 union branches may only filter/sort/take")
  | .branch op :: ops =>
    match rejectReshaping ops with
    | .error e => .error e
    | .ok rest => .ok (op :: rest)

/-- `parse_operator`, for the operators that pass the deny list.  There is no `make-graph` before a
`graph-var-match`, since that is on it. -/
def applyBranchOp [Scalar V] (st : BranchState V) : BranchOp V → Except String (BranchState V)
  | .where_ e => .ok { st with query := applyOp st.query (.where_ e) }
  | .take n => .ok { st with query := applyOp st.query (.take n) }
  | .sort key keys => .ok { st with query := applyOp st.query (.sort key keys) }
  | .top n key => .ok { st with query := applyOp st.query (.top n key) }
  | .graphVarLength src dst seeds minHops maxHops direction edgeType =>
    match opGraphVarLength seeds minHops maxHops direction edgeType with
    | .error e => .error e
    | .ok q => .ok
        { query := { st.query with table := "_vl_result" }
          walks := st.walks ++ [⟨st.query.table, src, dst, q⟩] }
  | .graphVarMatch => .error "graph-var-match requires a preceding make-graph"

def applyBranchOps [Scalar V] (st : BranchState V) : List (BranchOp V) → Except String (BranchState V)
  | [] => .ok st
  | op :: ops =>
    match applyBranchOp st op with
    | .error e => .error e
    | .ok st' => applyBranchOps st' ops

def parseUnionOperand [Scalar V] : Operand V → Except String (UnionOperand V)
  | .table name => .ok ⟨name, .table name⟩
  | .empty => .error "empty `()` union operand"
  | .union => .error "nested union is not supported"
  | .pipeline root ops =>
    match rejectReshaping ops with
    | .error e => .error e
    | .ok ops =>
      match applyBranchOps ⟨.new root, []⟩ ops with
      | .error e => .error e
      | .ok st => .ok ⟨root, .subQuery st⟩

/-! ### Columns -/

abbrev SchemaMap := List (String × List Col)

/-- The name of a column that `quote_ident` writes, as SQL reads it. -/
def sqlName (c : Col) : Col := String.ofList (ExprLowering.colRead c.toList)

def addColumns (superset cols : List Col) : List Col :=
  cols.foldl (fun acc c => if c ∈ acc then acc else acc ++ [c]) superset

def supersetOf (schemas : SchemaMap) : List Col → List (UnionOperand V) → Except String (List Col)
  | superset, [] => .ok superset
  | superset, op :: ops =>
    match schemas.lookup op.rootTable with
    | none =>
      if schemas.isEmpty then
        .error ("union requires schema context: no schema available for table `" ++ op.rootTable ++ "`")
      else .error ("union: unknown table `" ++ op.rootTable ++ "` (not in schema)")
    | some cols => supersetOf schemas (addColumns superset cols) ops

/-- What `parse_union` has found when it builds the branches. -/
structure UnionPlan (V : Type) where
  withSource : Option Col
  operands : List (UnionOperand V)
  superset : List Col

def parseUnionOperands [Scalar V] : List (Operand V) → Except String (List (UnionOperand V))
  | [] => .ok []
  | op :: ops =>
    match parseUnionOperand op with
    | .error e => .error e
    | .ok o =>
      match parseUnionOperands ops with
      | .error e => .error e
      | .ok os => .ok (o :: os)

/-- **`parse_union`**, up to the branches. -/
def parseUnion [Scalar V] (schemas : SchemaMap) (withSource : Option Col) (ops : List (Operand V)) :
    Except String (UnionPlan V) :=
  match parseUnionOperands ops with
  | .error e => .error e
  | .ok operands =>
    if operands.isEmpty then .error "union requires at least one operand"
    else
      match supersetOf schemas [] operands with
      | .error e => .error e
      | .ok superset =>
        match withSource.filter (· ∈ superset) with
        | some src => .error ("withsource column `" ++ src ++ "` collides with a column of the union operands")
        | none => .ok ⟨withSource, operands, superset⟩

/-! ### Branches -/

/-- An item of a branch: all of them have the name that `quote_ident` writes. -/
inductive Proj
  /-- `'table' AS c` -/
  | source (table : String) (c : Col)
  | column (c : Col)
  /-- `NULL AS c` -/
  | null (c : Col)

/-- `SELECT projection FROM source`. -/
structure Branch (V : Type) where
  projection : List Proj
  source : From V

def UnionPlan.branch (schemas : SchemaMap) (plan : UnionPlan V) (op : UnionOperand V) : Branch V where
  projection :=
    plan.withSource.toList.map (Proj.source op.rootTable) ++ plan.superset.map fun c =>
        if c ∈ (schemas.lookup op.rootTable).getD [] then .column c else .null c
  source := op.source

/-- The body of `_u`. -/
def UnionPlan.branches (schemas : SchemaMap) (plan : UnionPlan V) : List (Branch V) :=
  plan.operands.map (plan.branch schemas)

/-! ### What the SQL returns -/

def Proj.name : Proj → Col
  | .source _ c => sqlName c
  | .column c => sqlName c
  | .null c => sqlName c

def Proj.resolves (cols : List Col) : Proj → Prop
  | .source _ _ => True
  | .column c => sqlName c ∈ cols
  | .null _ => True

/-- The columns of `_vl_result`. -/
def walkCols : List Col := ["src", "dst", "depth"]

def Walk.resolves (w : Walk) (cols : List Col) : Bool :=
  w.src ∈ cols && w.dst ∈ cols && (w.query.edgeType.isNone || "type" ∈ cols)

/-- The query of a branch finds its names; two walks would give one `WITH` the same names twice. -/
def BranchState.resolves (st : BranchState V) (schemas : String → Option (List Col)) : Bool :=
  match st.walks with
  | [] => st.query.toSql.resolves schemas
  | [w] => (schemas w.table).any w.resolves &&
      st.query.toSql.resolves (Function.update schemas "_vl_result" (some walkCols))
  | _ :: _ :: _ => false

def From.resolves (f : From V) (schemas : String → Option (List Col)) : Bool :=
  match f with
  | .table name => (schemas name).isSome
  | .subQuery st => st.resolves schemas

section Meaning

variable [Texts V]

def Proj.value (r : Row V) : Proj → V
  | .source table _ => Texts.ofStr table
  | .column c => field r (sqlName c)
  | .null _ => default

def ofNode : Option String → V
  | none => default
  | some s => Texts.ofStr s

def edgesOf (T : Table V) (src dst : Col) : EdgeTable (Row V) where
  rows := T.rows
  src r := Texts.str (field r src)
  dst r := Texts.str (field r dst)
  etype r := Texts.str (field r "type")

def walkRow (p : Option String × Option String × ℕ) : Row V :=
  [("src", ofNode p.1), ("dst", ofNode p.2.1), ("depth", Scalar.ofNat p.2.2)]

/-- `_vl_result` as a table: the recursion ends within `max-hops` rounds. -/
def Walk.result (w : Walk) (T : Table V) : Option (Table V) :=
  (vlResult (edgesOf T w.src w.dst) w.query (w.query.window.maxHops + 1)).map fun rows =>
    { cols := walkCols
      rows := rows.map walkRow
      wf := by
        intro r hr
        obtain ⟨p, -, rfl⟩ := mem_map.1 hr
        rfl }

def BranchState.scope (st : BranchState V) (env : String → Option (Table V)) : Option (String → Option (Table V)) :=
  match st.walks with
  | [] => some env
  | [w] => ((env w.table).bind w.result).map fun R => Function.update env "_vl_result" (some R)
  | _ :: _ :: _ => none

variable [DecidableEq V]

def From.Yields (f : From V) (env : String → Option (Table V)) (R : Table V) : Prop :=
  match f with
  | .table name => env name = some R
  | .subQuery st => st.resolves (fun name => (env name).map Table.cols) = true ∧
      ∃ scope env' src, st.scope env = some scope ∧ With scope st.query.toSql.ctes env' ∧
        env' st.query.toSql.body.source = some src ∧
        R.cols = st.query.toSql.body.select.columns src.cols ∧
        st.query.toSql.body.Rows src R.rows

def Branch.Yields (b : Branch V) (env : String → Option (Table V)) (rows : List (Row V)) : Prop :=
  ∃ R, b.source.Yields env R ∧ (∀ p ∈ b.projection, p.resolves R.cols) ∧ (b.projection.map Proj.name).Nodup ∧
    rows = R.rows.map fun r => b.projection.map fun p => (p.name, p.value r)

/-- **`UNION ALL`**: the rows of all branches, under the names of the first one. -/
def UnionAll (branches : List (Branch V)) (env : String → Option (Table V)) (U : Table V) : Prop :=
  ∃ parts, List.Forall₂ (fun b part => b.Yields env part) branches parts ∧
    U.cols = (branches.head?.elim [] fun b => b.projection.map Proj.name) ∧
    U.rows.Perm parts.flatten

/-- The results of the whole query: the operators behind the union read `_u`. -/
def UnionPlan.Result (schemas : SchemaMap) (plan : UnionPlan V) (tail : List (Op V))
    (env : String → Option (Table V)) (res : List (Row V)) : Prop :=
  ∃ U, UnionAll (plan.branches schemas) env U ∧ (kqlToSql "_u" tail).Result (Function.update env "_u" (some U)) res

end Meaning

/-! ### The outer union -/

def firstSeen : List Col → List Col
  | [] => []
  | c :: cs => c :: (firstSeen cs).filter (· ≠ c)

def columnsOf (schemas : SchemaMap) (operands : List (UnionOperand V)) : List Col :=
  firstSeen (operands.flatMap fun op => (schemas.lookup op.rootTable).getD [])

def Conforms (schemas : SchemaMap) (env : String → Option (Table V)) : Prop :=
  ∀ name cols, schemas.lookup name = some cols → ∃ T, env name = some T ∧ T.cols = cols

section Meaning

variable [Texts V]

def outerRow (withSource : Option Col) (columns : List Col) (root : String) (r : Row V) : Row V :=
  (withSource.toList.map fun c => (c, Texts.ofStr root)) ++ columns.map fun c => (c, field r c)

variable [DecidableEq V]

/-- **The outer union by name.** -/
def OuterUnion (schemas : SchemaMap) (plan : UnionPlan V) (env : String → Option (Table V)) (U : Table V) : Prop :=
  ∃ Rs, List.Forall₂ (fun op R => op.source.Yields env R) plan.operands Rs ∧
    U.cols = plan.withSource.toList ++ columnsOf schemas plan.operands ∧
    U.rows.Perm ((plan.operands.zip Rs).flatMap fun p =>
      p.2.rows.map (outerRow plan.withSource (columnsOf schemas plan.operands) p.1.rootTable))

/-- **`union` does what it is for**: on every database each operand has the columns of its root table,
the union is the outer union by name, and the operators behind it read that. -/
def UnionExact (schemas : SchemaMap) (plan : UnionPlan V) : Prop :=
  ∀ env, Conforms schemas env → (∀ op ∈ plan.operands, ∀ R, op.source.Yields env R →
      R.cols.Perm ((schemas.lookup op.rootTable).getD [])) ∧
    (∀ U, UnionAll (plan.branches schemas) env U ↔ OuterUnion schemas plan env U) ∧
    ∀ tail res, plan.Result schemas tail env res ↔ ∃ U, OuterUnion schemas plan env U ∧
        (kqlToSql "_u" tail).Result (Function.update env "_u" (some U)) res

end Meaning

def From.walks (f : From V) : Bool :=
  match f with
  | .table _ => false
  | .subQuery st => !st.walks.isEmpty

/-- **When `union` is right**: no branch that finds its names walks, unless the root table has just
the columns of a walk; and, if all of them find their names, every column is read under its name. -/
def KeepsColumns (schemas : SchemaMap) (plan : UnionPlan V) : Prop :=
  (∀ op ∈ plan.operands, op.source.resolves (fun name => schemas.lookup name) = true →
    op.source.walks = true → walkCols.Perm ((schemas.lookup op.rootTable).getD [])) ∧
  ((∀ op ∈ plan.operands, op.source.resolves (fun name => schemas.lookup name) = true) →
    ∀ c ∈ plan.withSource.toList ++ plan.superset, sqlName c = c)

/-! ### The columns of the operands -/

theorem addColumns_append (superset a b : List Col) :
    addColumns superset (a ++ b) = addColumns (addColumns superset a) b :=
  foldl_append

theorem addColumns_eq (superset cols : List Col) :
    addColumns superset cols = superset ++ (firstSeen cols).filter (· ∉ superset) := by
  induction cols generalizing superset with
  | nil => simp [addColumns, firstSeen]
  | cons c cs ih =>
    have hstep : addColumns superset (c :: cs) =
        addColumns (if c ∈ superset then superset else superset ++ [c]) cs := rfl
    rw [hstep, ih, firstSeen]
    by_cases hc : c ∈ superset
    · rw [if_pos hc, filter_cons_of_neg (by simpa using hc), filter_filter]
      congr 1
      refine filter_congr fun x _ => ?_
      by_cases hx : x = c
      · simp [hx, hc]
      · simp [hx]
    · rw [if_neg hc, filter_cons_of_pos (by simpa using hc), filter_filter, append_assoc, singleton_append]
      congr 2
      refine filter_congr fun x _ => ?_
      simp [Bool.and_comm]

theorem nodup_firstSeen (cols : List Col) : (firstSeen cols).Nodup := by
  induction cols with
  | nil => exact nodup_nil
  | cons c cs ih =>
    rw [firstSeen, nodup_cons]
    exact ⟨by simp, ih.filter _⟩

variable {schemas : SchemaMap} {operands : List (UnionOperand V)}

theorem supersetOf_ok {acc s : List Col}
    (h : supersetOf schemas acc operands = .ok s) :
    s = addColumns acc (operands.flatMap fun op => (schemas.lookup op.rootTable).getD []) ∧
      ∀ op ∈ operands, ∃ cols, schemas.lookup op.rootTable = some cols := by
  induction operands generalizing acc with
  | nil =>
    obtain rfl : acc = s := by simpa [supersetOf] using h
    exact ⟨rfl, by simp⟩
  | cons op ops ih =>
    rw [supersetOf] at h
    cases hl : schemas.lookup op.rootTable with
    | none =>
      simp only [hl] at h
      split at h <;> simp at h
    | some cols =>
      simp only [hl] at h
      obtain ⟨hs, hall⟩ := ih h
      refine ⟨?_, ?_⟩
      · rw [hs, flatMap_cons, addColumns_append, hl, Option.getD_some]
      · intro o ho
        rcases mem_cons.1 ho with rfl | ho
        · exact ⟨cols, hl⟩
        · exact hall o ho

theorem superset_eq {s : List Col}
    (h : supersetOf schemas [] operands = .ok s) : s = columnsOf schemas operands := by
  rw [(supersetOf_ok h).1, addColumns_eq]
  simp [columnsOf]

/-! ### What a branch is parsed to -/

/-- The shape of a sub-parser's state: filters, an order and a limit over the root table or over the
last walk. -/
structure Shape (root : String) (st : BranchState V) : Prop where
  select : st.query.toSql.body.select = .items false [.star]
  ctes : st.query.ctes = []
  plain : st.query.aggregated = false
  table : st.query.table = if st.walks = [] then root else "_vl_result"
  first : ∀ w ws, st.walks = w :: ws → w.table = root

theorem Shape.new (root : String) : Shape root (⟨.new root, []⟩ : BranchState V) := ⟨rfl, rfl, rfl, rfl, by simp⟩

theorem Shape.step [Scalar V] {root : String} {st st' : BranchState V} {op : BranchOp V}
    (hst : Shape root st) (h : applyBranchOp st op = .ok st') : Shape root st' := by
  obtain ⟨hselect, hctes, hplain, htable, hfirst⟩ := hst
  have hsealed : st.query.sealed = st.query := by rw [QueryState.sealed, hplain]; rfl
  cases op with
  | where_ e =>
    obtain rfl : _ = st' := by simpa [applyBranchOp] using h
    refine ⟨?_, ?_, ?_, ?_, hfirst⟩
    · simp only [applyOp, QueryState.opWhere, hsealed]
      exact hselect
    · simpa [applyOp, QueryState.opWhere, hsealed] using hctes
    · simpa [applyOp, QueryState.opWhere, hsealed] using hplain
    · simpa [applyOp, QueryState.opWhere, hsealed] using htable
  | take n | sort key keys | top n key =>
    obtain rfl : _ = st' := by simpa [applyBranchOp] using h
    exact ⟨hselect, hctes, hplain, htable, hfirst⟩
  | graphVarLength src dst seeds minHops maxHops direction edgeType =>
    rw [applyBranchOp] at h
    split at h
    · simp at h
    · obtain rfl : _ = st' := by simpa using h
      refine ⟨hselect, hctes, hplain, by simp, ?_⟩
      intro w ws hw
      cases hwalks : st.walks with
      | nil =>
        rw [hwalks, nil_append, List.cons.injEq] at hw
        rw [← hw.1, htable, if_pos hwalks]
      | cons w' ws' =>
        rw [hwalks, cons_append, List.cons.injEq] at hw
        rw [← hw.1]
        exact hfirst w' ws' hwalks
  | graphVarMatch => simp [applyBranchOp] at h

theorem Shape.run [Scalar V] {root : String} {st st' : BranchState V} {ops : List (BranchOp V)}
    (hst : Shape root st) (h : applyBranchOps st ops = .ok st') : Shape root st' := by
  induction ops generalizing st with
  | nil =>
    obtain rfl : st = st' := by simpa [applyBranchOps] using h
    exact hst
  | cons op ops ih =>
    rw [applyBranchOps] at h
    split at h
    · simp at h
    · rename_i hstep
      exact ih (hst.step hstep) h

def UnionOperand.WF (op : UnionOperand V) : Prop :=
  match op.source with
  | .table name => name = op.rootTable
  | .subQuery st => Shape op.rootTable st

variable {op : UnionOperand V}

theorem wf_of_parse [Scalar V] {o : Operand V}
    (h : parseUnionOperand o = .ok op) : op.WF := by
  cases o with
  | table name =>
    obtain rfl : _ = op := by simpa [parseUnionOperand] using h
    rfl
  | empty | union => simp [parseUnionOperand] at h
  | pipeline root ops =>
    rw [parseUnionOperand] at h
    split at h
    · simp at h
    · split at h
      · simp at h
      · rename_i st hst
        obtain rfl : _ = op := by simpa using h
        exact (Shape.new root).run hst

theorem wf_of_parseAll [Scalar V] {ops : List (Operand V)}
    (h : parseUnionOperands ops = .ok operands) : ∀ op ∈ operands, op.WF := by
  induction ops generalizing operands with
  | nil =>
    obtain rfl : [] = operands := by simpa [parseUnionOperands] using h
    simp
  | cons o ops ih =>
    rw [parseUnionOperands] at h
    split at h
    · simp at h
    · rename_i op hop
      split at h
      · simp at h
      · rename_i rest hrest
        obtain rfl : _ = operands := by simpa using h
        exact forall_mem_cons.2 ⟨wf_of_parse hop, ih hrest⟩

/-- What `parse_union` guarantees of a plan. -/
structure UnionPlan.WF (schemas : SchemaMap) (plan : UnionPlan V) : Prop where
  wf : ∀ op ∈ plan.operands, op.WF
  nonempty : plan.operands ≠ []
  known : ∀ op ∈ plan.operands, ∃ cols, schemas.lookup op.rootTable = some cols
  superset : plan.superset = columnsOf schemas plan.operands
  fresh : ∀ c ∈ plan.withSource, c ∉ plan.superset

variable {plan : UnionPlan V}

theorem wf_of_parseUnion [Scalar V] {withSource : Option Col}
    {ops : List (Operand V)}
    (h : parseUnion schemas withSource ops = .ok plan) : plan.WF schemas := by
  rw [parseUnion] at h
  split at h
  · simp at h
  · rename_i operands hops
    split at h
    · simp at h
    · rename_i hne
      split at h
      · simp at h
      · rename_i superset hs
        split at h
        · simp at h
        · rename_i hfresh
          obtain rfl : _ = plan := by simpa using h
          refine ⟨wf_of_parseAll hops, by simpa using hne, (supersetOf_ok hs).2, superset_eq hs, ?_⟩
          intro c hc hmem
          simp only [Option.mem_def] at hc
          simp [hc, hmem] at hfresh

/-! ### What a branch returns -/

theorem resolves_toSql {root : String} {st : BranchState V} (hst : Shape root st)
    (schemas : String → Option (List Col)) :
    st.query.toSql.resolves schemas = (schemas st.query.table).any st.query.toSql.body.resolves := by
  have hctes : st.query.toSql.ctes = [] := hst.ctes
  rw [Query.resolves, hctes]
  rfl

theorem resolves_congr (hop : op.WF) {f g : String → Option (List Col)}
    (hroot : f op.rootTable = g op.rootTable) : op.source.resolves f = op.source.resolves g := by
  obtain ⟨root, source⟩ := op
  cases source with
  | table name =>
    obtain rfl : name = root := hop
    rw [From.resolves, From.resolves, hroot]
  | subQuery st =>
    have hst : Shape root st := hop
    simp only [From.resolves, BranchState.resolves]
    cases hw : st.walks with
    | nil =>
      have htable : st.query.table = root := by rw [hst.table, if_pos hw]
      simp only [resolves_toSql hst, htable]
      rw [hroot]
    | cons w ws =>
      cases ws with
      | cons _ _ => rfl
      | nil =>
        have htable : st.query.table = "_vl_result" := by rw [hst.table, if_neg (by simp [hw])]
        have hwt : w.table = root := hst.first w [] hw
        simp only [resolves_toSql hst, htable, update_self, hwt]
        rw [hroot]

variable {env : String → Option (Table V)}

section Branches

variable [Texts V]

theorem itemsRow_star (r : Row V) : itemsRow [.star] r = r := by
  simp [itemsRow, Item.cells]

theorem exists_walk_result (w : Walk) (T : Table V) : ∃ R, w.result T = some R ∧ R.cols = walkCols := by
  obtain ⟨rows, hrows, -⟩ := exists_nearest (T := edgesOf T w.src w.dst)
    (Nat.lt_succ_self w.query.window.maxHops) (w.query.seeds.map some) w.query.direction
    w.query.edgeType
  refine ⟨_, by rw [Walk.result, vlResult, hrows]; rfl, rfl⟩

variable [DecidableEq V]

theorem exists_rows (b : Block V) (hselect : b.select = .items false [.star]) (src : Table V) :
    ∃ R : Table V, R.cols = b.select.columns src.cols ∧ b.Rows src R.rows := by
  have hcols : b.select.columns src.cols = src.cols := by
    rw [hselect]
    simp [Select.columns, Item.columns]
  obtain ⟨l, hl, hsorted⟩ := exists_sorted (orders_precedes b.orderBy fun r : Row V => sortEnv src.cols (r, r))
    (src.rows.filter (holds b.where_))
  have hmem : ∀ r ∈ limited b.limit l, r ∈ src.rows := by
    intro r hr
    have hr' : r ∈ l := by
      cases hlim : b.limit with
      | none => simpa [limited, hlim] using hr
      | some n =>
        simp only [limited, hlim] at hr
        exact mem_of_mem_take hr
    exact (mem_filter.1 (hl.mem_iff.1 hr')).1
  refine ⟨⟨src.cols, limited b.limit l, fun r hr => src.wf r (hmem r hr)⟩, hcols.symm, ?_⟩
  refine ⟨l.map fun r => (r, itemsRow [.star] r), ?_, ?_, ?_⟩
  · rw [hselect]
    exact ⟨l, hl, rfl⟩
  · rw [hcols, pairwise_map]
    simpa only [itemsRow_star] using hsorted
  · rw [limited_map, map_map]
    simp only [comp_def, itemsRow_star, map_id']

theorem yields_subQuery_iff {root : String} {st : BranchState V} (hst : Shape root st) {R : Table V} :
    (From.subQuery st).Yields env R ↔ st.resolves (fun name => (env name).map Table.cols) = true ∧
        ∃ scope src, st.scope env = some scope ∧ scope st.query.table = some src ∧
          R.cols = src.cols ∧ st.query.toSql.body.Rows src R.rows := by
  have hctes : st.query.toSql.ctes = [] := hst.ctes
  have hcols : ∀ src, st.query.toSql.body.select.columns src = src := by
    intro src
    rw [hst.select]
    simp [Select.columns, Item.columns]
  simp only [From.Yields, hctes, hcols]
  refine and_congr_right fun _ => ?_
  constructor
  · rintro ⟨scope, env', src, hscope, hwith, hsrc, hR, hrows⟩
    cases hwith
    exact ⟨scope, src, hscope, hsrc, hR, hrows⟩
  · rintro ⟨scope, src, hscope, hsrc, hR, hrows⟩
    exact ⟨scope, scope, src, hscope, .nil, hsrc, hR, hrows⟩

theorem columns_of_yields (hop : op.WF)
    {R : Table V} (h : op.source.Yields env R) :
    (op.source.walks = false ∧ ∃ T, env op.rootTable = some T ∧ R.cols = T.cols) ∨
      (op.source.walks = true ∧ R.cols = walkCols) := by
  obtain ⟨root, source⟩ := op
  cases source with
  | table name =>
    obtain rfl : name = root := hop
    exact Or.inl ⟨rfl, R, h, rfl⟩
  | subQuery st =>
    have hst : Shape root st := hop
    obtain ⟨-, scope, src, hscope, hsrc, hR, -⟩ := (yields_subQuery_iff hst).1 h
    rw [BranchState.scope] at hscope
    rw [hst.table] at hsrc
    cases hw : st.walks with
    | nil =>
      simp only [hw, Option.some.injEq] at hscope
      subst hscope
      rw [if_pos hw] at hsrc
      exact Or.inl ⟨by simp [From.walks, hw], src, hsrc, hR⟩
    | cons w ws =>
      rw [if_neg (by simp [hw])] at hsrc
      cases ws with
      | cons _ _ => simp [hw] at hscope
      | nil =>
        simp only [hw, Option.map_eq_some_iff, Option.bind_eq_some_iff] at hscope
        obtain ⟨A, ⟨T, -, hA⟩, rfl⟩ := hscope
        obtain rfl : A = src := by simpa using hsrc
        obtain ⟨A', hA', hcols⟩ := exists_walk_result w T
        obtain rfl : A = A' := Option.some_inj.1 (hA.symm.trans hA')
        exact Or.inr ⟨by simp [From.walks, hw], hR.trans hcols⟩

theorem resolves_of_yields (hop : op.WF)
    {cols : List Col} (hknown : schemas.lookup op.rootTable = some cols) (henv : Conforms schemas env) {R : Table V}
    (h : op.source.Yields env R) : op.source.resolves (fun name => schemas.lookup name) = true := by
  obtain ⟨T, hT, hcols⟩ := henv _ _ hknown
  have hroot : (env op.rootTable).map Table.cols = schemas.lookup op.rootTable := by
    rw [hT, hknown, Option.map_some, hcols]
  rw [← resolves_congr hop (f := fun name => (env name).map Table.cols) hroot]
  obtain ⟨root, source⟩ := op
  cases source with
  | table name =>
    have hR : env name = some R := h
    rw [From.resolves, hR]
    rfl
  | subQuery st => exact h.1

theorem exists_yields (hop : op.WF) {cols : List Col}
    (hknown : schemas.lookup op.rootTable = some cols) (henv : Conforms schemas env)
    (h : op.source.resolves (fun name => schemas.lookup name) = true) : ∃ R, op.source.Yields env R := by
  obtain ⟨T, hT, hcols⟩ := henv _ _ hknown
  have hroot : (env op.rootTable).map Table.cols = schemas.lookup op.rootTable := by
    rw [hT, hknown, Option.map_some, hcols]
  rw [← resolves_congr hop (f := fun name => (env name).map Table.cols) hroot] at h
  obtain ⟨root, source⟩ := op
  cases source with
  | table name =>
    obtain rfl : name = root := hop
    exact ⟨T, hT⟩
  | subQuery st =>
    have hst : Shape root st := hop
    have hscope : ∃ scope src, st.scope env = some scope ∧ scope st.query.table = some src := by
      rw [hst.table]
      cases hw : st.walks with
      | nil => exact ⟨env, T, by simp [BranchState.scope, hw], by simpa using hT⟩
      | cons w ws =>
        cases ws with
        | cons _ _ => simp [From.resolves, BranchState.resolves, hw] at h
        | nil =>
          obtain ⟨A, hA, -⟩ := exists_walk_result w T
          have hwt : w.table = root := hst.first w [] hw
          have hTr : env root = some T := hT
          refine ⟨Function.update env "_vl_result" (some A), A, ?_, by simp⟩
          simp only [BranchState.scope, hw, hwt, hTr, Option.bind_some, hA, Option.map_some]
    obtain ⟨scope, src, hscope, hsrc⟩ := hscope
    obtain ⟨R, hR, hrows⟩ := exists_rows st.query.toSql.body hst.select src
    refine ⟨R, (yields_subQuery_iff hst).2 ⟨h, scope, src, hscope, hsrc, ?_, hrows⟩⟩
    rw [hR, hst.select]
    simp [Select.columns, Item.columns]

end Branches

/-! ### When the union is exact -/

theorem names_branch (schemas : SchemaMap) (plan : UnionPlan V) (op : UnionOperand V) :
    (plan.branch schemas op).projection.map Proj.name = (plan.withSource.toList ++ plan.superset).map sqlName := by
  rw [UnionPlan.branch, map_append, map_append, map_map, map_map]
  refine congrArg₂ _ rfl (map_congr_left fun c _ => ?_)
  rw [comp_apply]
  split <;> rfl

theorem forall₂_exists_iff {α β γ : Type} {P : α → β → Prop} {f : α → β → γ} {l : List α}
    {cs : List γ} : List.Forall₂ (fun a c => ∃ b, P a b ∧ c = f a b) l cs ↔
      ∃ bs, List.Forall₂ P l bs ∧ cs = (l.zip bs).map fun p => f p.1 p.2 := by
  constructor
  · intro h
    induction h with
    | nil => exact ⟨[], .nil, rfl⟩
    | cons hac _ ih =>
      obtain ⟨b, hb, rfl⟩ := hac
      obtain ⟨bs, hbs, rfl⟩ := ih
      exact ⟨b :: bs, .cons hb hbs, rfl⟩
  · rintro ⟨bs, h, rfl⟩
    induction h with
    | nil => exact .nil
    | cons hab _ ih => exact .cons ⟨_, hab, rfl⟩ ih

theorem exists_forall₂ {α β : Type} {P : α → β → Prop} {l : List α} (h : ∀ a ∈ l, ∃ b, P a b) :
    ∃ bs, List.Forall₂ P l bs := by
  induction l with
  | nil => exact ⟨[], .nil⟩
  | cons a l ih =>
    obtain ⟨b, hb⟩ := h a mem_cons_self
    obtain ⟨bs, hbs⟩ := ih fun x hx => h x (mem_cons_of_mem _ hx)
    exact ⟨b :: bs, .cons hb hbs⟩

theorem forall₂_imp_of_mem {α β : Type} {P Q : α → β → Prop} {l : List α} {bs : List β}
    (h : List.Forall₂ P l bs) (himp : ∀ a ∈ l, ∀ b, P a b → Q a b) : List.Forall₂ Q l bs := by
  induction h with
  | nil => exact .nil
  | cons hab _ ih =>
    exact .cons (himp _ mem_cons_self _ hab) (ih fun a ha => himp a (mem_cons_of_mem _ ha))

theorem exists_of_forall₂ {α β : Type} {P : α → β → Prop} {l : List α} {bs : List β}
    (h : List.Forall₂ P l bs) {a : α} (ha : a ∈ l) : ∃ b, P a b := by
  induction h with
  | nil => simp at ha
  | cons hab _ ih =>
    rcases mem_cons.1 ha with rfl | ha
    · exact ⟨_, hab⟩
    · exact ih ha

def emptyTables (schemas : SchemaMap) (name : String) : Option (Table V) :=
  (schemas.lookup name).map fun cols => ⟨cols, [], by simp⟩

theorem conforms_emptyTables (schemas : SchemaMap) :
    Conforms schemas (emptyTables schemas : String → Option (Table V)) := by
  intro name cols h
  exact ⟨⟨cols, [], by simp⟩, by rw [emptyTables, h]; rfl, rfl⟩

section Exact

variable [Texts V]

theorem field_of_notMem {T : Table V} {r : Row V} (hr : r ∈ T.rows) {c : Col} (hc : c ∉ T.cols) :
    field r c = default := by
  have hlookup : r.lookup c = none := by
    rw [lookup_eq_none_iff]
    intro p hp
    rw [bne_iff_ne]
    rintro rfl
    exact hc (T.wf r hr ▸ mem_map_of_mem hp)
  rw [field, hlookup, Option.getD_none]

theorem map_projection_eq (hnames : ∀ c ∈ plan.withSource.toList ++ plan.superset, sqlName c = c) {R : Table V}
    (hcols : R.cols.Perm ((schemas.lookup op.rootTable).getD [])) {r : Row V} (hr : r ∈ R.rows) :
    ((plan.branch schemas op).projection.map fun p => (p.name, p.value r)) =
      outerRow plan.withSource plan.superset op.rootTable r := by
  rw [UnionPlan.branch, outerRow, map_append, map_map, map_map]
  refine congrArg₂ _ (map_congr_left fun c hc => ?_) (map_congr_left fun c hc => ?_)
  · have hname := hnames c (mem_append_left _ hc)
    simp [Proj.name, Proj.value, hname]
  · have hname := hnames c (mem_append_right _ hc)
    by_cases hown : c ∈ (schemas.lookup op.rootTable).getD []
    · simp [Proj.name, Proj.value, hown, hname]
    · have hnull := field_of_notMem hr fun h => hown (hcols.mem_iff.1 h)
      simp [Proj.name, Proj.value, hown, hname, hnull]

variable [DecidableEq V]

theorem branch_yields_iff (hplan : plan.WF schemas)
    (hnames : ∀ c ∈ plan.withSource.toList ++ plan.superset, sqlName c = c)
    (hcols : ∀ R, op.source.Yields env R → R.cols.Perm ((schemas.lookup op.rootTable).getD []))
    (rows : List (Row V)) : (plan.branch schemas op).Yields env rows ↔ ∃ R, op.source.Yields env R ∧
        rows = R.rows.map (outerRow plan.withSource plan.superset op.rootTable) := by
  constructor
  · rintro ⟨R, hR, -, -, rfl⟩
    exact ⟨R, hR, map_congr_left fun r hr => map_projection_eq hnames (hcols R hR) hr⟩
  · rintro ⟨R, hR, rfl⟩
    refine ⟨R, hR, ?_, ?_, ?_⟩
    · intro p hp
      rw [UnionPlan.branch, mem_append, mem_map, mem_map] at hp
      rcases hp with ⟨c, -, rfl⟩ | ⟨c, hc, rfl⟩
      · trivial
      · split
        · rename_i hown
          show sqlName c ∈ R.cols
          rw [hnames c (mem_append_right _ hc)]
          exact (hcols R hR).mem_iff.2 hown
        · trivial
    · rw [names_branch, map_congr_left hnames, map_id', nodup_append]
      refine ⟨by cases plan.withSource <;> simp, ?_, ?_⟩
      · rw [hplan.superset]
        exact nodup_firstSeen _
      · rintro c hc _ hmem rfl
        exact hplan.fresh c (by simpa using hc) hmem
    · exact (map_congr_left fun r hr => map_projection_eq hnames (hcols R hR) hr).symm

theorem cols_unionAll (hplan : plan.WF schemas) {U : Table V} (h : UnionAll (plan.branches schemas) env U) :
    U.cols = (plan.withSource.toList ++ plan.superset).map sqlName := by
  obtain ⟨parts, -, hcols, -⟩ := h
  rw [hcols, UnionPlan.branches]
  cases hops : plan.operands with
  | nil => exact absurd hops hplan.nonempty
  | cons op ops => exact names_branch schemas plan op

theorem exists_outerUnion {schemas : SchemaMap} {plan : UnionPlan V}
    {env : String → Option (Table V)}
    (h : ∀ op ∈ plan.operands, ∃ R, op.source.Yields env R) : ∃ U, OuterUnion schemas plan env U := by
  obtain ⟨Rs, hRs⟩ := exists_forall₂ h
  refine ⟨⟨_, _, ?_⟩, Rs, hRs, rfl, .refl _⟩
  intro r hr
  obtain ⟨p, -, hr⟩ := mem_flatMap.1 hr
  obtain ⟨r', -, rfl⟩ := mem_map.1 hr
  simp [outerRow, comp_def]

theorem perm_of_keepsColumns {schemas : SchemaMap} {plan : UnionPlan V} (hplan : plan.WF schemas)
    (h : KeepsColumns schemas plan) {env : String → Option (Table V)} (henv : Conforms schemas env)
    {op : UnionOperand V} (hop : op ∈ plan.operands) {R : Table V} (hR : op.source.Yields env R) :
    R.cols.Perm ((schemas.lookup op.rootTable).getD []) := by
  obtain ⟨cols, hknown⟩ := hplan.known op hop
  rcases columns_of_yields (hplan.wf op hop) hR with ⟨-, T, hT, hcols⟩ | ⟨hwalks, hcols⟩
  · obtain ⟨T', hT', hcols'⟩ := henv _ _ hknown
    obtain rfl : T = T' := Option.some_inj.1 (hT.symm.trans hT')
    rw [hcols, hcols', hknown, Option.getD_some]
  · rw [hcols]
    exact h.1 op hop (resolves_of_yields (hplan.wf op hop) hknown henv hR) hwalks

theorem unionAll_iff (hplan : plan.WF schemas) (h : KeepsColumns schemas plan) (henv : Conforms schemas env)
    (U : Table V) : UnionAll (plan.branches schemas) env U ↔ OuterUnion schemas plan env U := by
  -- a union has a result only if every operand has one, and then it finds its names
  have hnames : (∀ op ∈ plan.operands, ∃ R, op.source.Yields env R) →
      ∀ c ∈ plan.withSource.toList ++ plan.superset, sqlName c = c := by
    refine fun hall => h.2 fun op hop => ?_
    obtain ⟨R, hR⟩ := hall op hop
    obtain ⟨cols, hknown⟩ := hplan.known op hop
    exact resolves_of_yields (hplan.wf op hop) hknown henv hR
  have hbranch := fun (hall : ∀ op ∈ plan.operands, ∃ R, op.source.Yields env R) op
      (hop : op ∈ plan.operands) => branch_yields_iff hplan (hnames hall)
        fun R hR => perm_of_keepsColumns hplan h henv hop hR
  constructor
  · intro hU
    have hcolsU := cols_unionAll hplan hU
    obtain ⟨parts, hparts, -, hrows⟩ := hU
    rw [UnionPlan.branches, forall₂_map_left_iff] at hparts
    have hall : ∀ op ∈ plan.operands, ∃ R, op.source.Yields env R := by
      intro op hop
      obtain ⟨_, R, hR, -⟩ := exists_of_forall₂ hparts hop
      exact ⟨R, hR⟩
    obtain ⟨Rs, hRs, rfl⟩ := forall₂_exists_iff.1
      (forall₂_imp_of_mem hparts fun op hop rows => (hbranch hall op hop rows).1)
    refine ⟨Rs, hRs, ?_, ?_⟩
    · rw [hcolsU, map_congr_left (hnames hall), map_id', hplan.superset]
    · rw [← hplan.superset]
      exact hrows
  · rintro ⟨Rs, hRs, hcols, hrows⟩
    have hall : ∀ op ∈ plan.operands, ∃ R, op.source.Yields env R := fun op hop => exists_of_forall₂ hRs hop
    rw [← hplan.superset] at hcols hrows
    have hparts := forall₂_imp_of_mem (forall₂_exists_iff.2 ⟨Rs, hRs, rfl⟩)
      fun op hop rows => (hbranch hall op hop rows).2
    have hU : UnionAll (plan.branches schemas) env U := by
      refine ⟨_, forall₂_map_left_iff.2 hparts, ?_, hrows⟩
      have hmap : (plan.withSource.toList ++ plan.superset).map sqlName =
          plan.withSource.toList ++ plan.superset := by
        rw [map_congr_left (hnames hall), map_id']
      rw [hcols, ← hmap, UnionPlan.branches]
      cases hops : plan.operands with
      | nil => exact absurd hops hplan.nonempty
      | cons op ops => exact (names_branch schemas plan op).symm
    exact hU

theorem perm_of_exact (hplan : plan.WF schemas) (hexact : UnionExact schemas plan) (hop : op ∈ plan.operands)
    (hres : op.source.resolves (fun name => schemas.lookup name) = true) (hwalks : op.source.walks = true) :
    walkCols.Perm ((schemas.lookup op.rootTable).getD []) := by
  obtain ⟨hperm, -, -⟩ := hexact (emptyTables schemas) (conforms_emptyTables schemas)
  obtain ⟨cols, hknown⟩ := hplan.known op hop
  obtain ⟨R, hR⟩ := exists_yields (hplan.wf op hop) hknown (conforms_emptyTables schemas) hres
  rcases columns_of_yields (hplan.wf op hop) hR with ⟨hno, -⟩ | ⟨-, hcols⟩
  · simp [hwalks] at hno
  · rw [← hcols]
    exact hperm op hop R hR

/-- If `union` is right and has a result, names are read as they are: the outer union has its columns
under their names, `UNION ALL` under the names it reads. -/
theorem names_of_exact (hplan : plan.WF schemas) (hexact : UnionExact schemas plan)
    (hall : ∀ op ∈ plan.operands, op.source.resolves (fun name => schemas.lookup name) = true) :
    ∀ c ∈ plan.withSource.toList ++ plan.superset, sqlName c = c := by
  obtain ⟨-, hunion, -⟩ := hexact (emptyTables schemas) (conforms_emptyTables schemas)
  obtain ⟨U, hU⟩ : ∃ U, OuterUnion schemas plan (emptyTables schemas) U :=
    exists_outerUnion fun op hop => by
      obtain ⟨cols, hknown⟩ := hplan.known op hop
      exact exists_yields (hplan.wf op hop) hknown (conforms_emptyTables schemas) (hall op hop)
  have hcols := cols_unionAll hplan ((hunion U).2 hU)
  obtain ⟨-, -, hcols', -⟩ := hU
  rw [hcols', ← hplan.superset] at hcols
  have hid : (plan.withSource.toList ++ plan.superset).map sqlName =
      (plan.withSource.toList ++ plan.superset).map id := by rw [← hcols, map_id]
  exact map_inj_left.1 hid

/-- **`union` is the outer union by name exactly when its branches keep their columns.** -/
theorem union_exact_iff {schemas : SchemaMap} {withSource : Option Col} {ops : List (Operand V)}
    {plan : UnionPlan V} (h : parseUnion schemas withSource ops = .ok plan) :
    UnionExact schemas plan ↔ KeepsColumns schemas plan := by
  have hplan := wf_of_parseUnion h
  constructor
  · intro hexact
    exact ⟨fun op hop => perm_of_exact hplan hexact hop, names_of_exact hplan hexact⟩
  · intro hkeeps env henv
    refine ⟨fun op hop R hR => perm_of_keepsColumns hplan hkeeps henv hop hR,
      unionAll_iff hplan hkeeps henv, fun tail res => ?_⟩
    rw [UnionPlan.Result]
    exact exists_congr fun U => and_congr_left fun _ => unionAll_iff hplan hkeeps henv U

end Exact

/-! ### Inputs -/

/-- Nullable texts, in their order with the nulls in front. -/
instance texts : Texts (Option String) where
  default := none
  truth v := v = some "true"
  le
    | none, _ => true
    | some _, none => false
    | some a, some b => decide (a ≤ b)
  ofNat n := some (toString n)
  le_total a b := by
    cases a <;> cases b <;> simp [String.le_total]
  le_trans a b c h₁ h₂ := by
    cases a <;> cases b <;> cases c <;> simp_all
    exact String.le_trans h₁ h₂
  str := id
  ofStr := some

/-- A table and a branch that takes rows, with the table's name in a column of its own. -/
theorem union_exact_iff_take : ∃ plan : UnionPlan (Option String),
      parseUnion [("a", ["x"]), ("b", ["y", "x"])] (some "t")
        [.table "a", .pipeline "b" [.branch (.take 3)]] = .ok plan ∧
      (UnionExact [("a", ["x"]), ("b", ["y", "x"])] plan ↔ KeepsColumns [("a", ["x"]), ("b", ["y", "x"])] plan) := by
  have hplan : parseUnion (V := Option String) [("a", ["x"]), ("b", ["y", "x"])] (some "t")
      [.table "a", .pipeline "b" [.branch (.take 3)]] = .ok _ := rfl
  exact ⟨_, hplan, union_exact_iff hplan⟩

/-- **A branch that walks has other columns than its root table**, and a name with an upper-case letter
is read as another one. -/
theorem union_of_walk : (∃ plan : UnionPlan (Option String), parseUnion [("edges", ["src", "dst"])] none
        [.pipeline "edges" [.branch (.graphVarLength "src" "dst" ["a"] 1 1 .forward none)]] =
          .ok plan ∧ ¬ UnionExact [("edges", ["src", "dst"])] plan) ∧ ∃ plan : UnionPlan (Option String),
      parseUnion [("logs", ["Host"])] none [.table "logs"] = .ok plan ∧ ¬ UnionExact [("logs", ["Host"])] plan := by
  have hwalk : parseUnion (V := Option String) [("edges", ["src", "dst"])] none
      [.pipeline "edges" [.branch (.graphVarLength "src" "dst" ["a"] 1 1 .forward none)]] = .ok _ :=
    rfl
  have hlogs : parseUnion (V := Option String) [("logs", ["Host"])] none [.table "logs"] = .ok _ := rfl
  refine ⟨⟨_, hwalk, fun h => ?_⟩, ⟨_, hlogs, fun h => ?_⟩⟩
  · have hperm := perm_of_exact (wf_of_parseUnion hwalk) h mem_cons_self rfl rfl
    have hlen := hperm.length_eq
    simp [walkCols] at hlen
  · have hname := names_of_exact (wf_of_parseUnion hlogs) h (by simp [From.resolves]) "Host"
      (by simp [addColumns])
    revert hname
    decide

end Kql
