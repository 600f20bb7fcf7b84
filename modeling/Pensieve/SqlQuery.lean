/-
**The meaning of a flat query.**

`WITH … SELECT [DISTINCT] … FROM … WHERE … GROUP BY … ORDER BY … LIMIT …`: a list of common table
expressions, each read by the ones behind it, and one block.
-/

import Pensieve.Arrangement

namespace Sql

open Relational

variable {V : Type}

/-! ### Syntax -/

inductive Item (V : Type) where
  | star
  | starExcept (cols : List Col)
  | column (col : Col)
  /-- `(expr) AS name` -/
  | expr (name : Col) (expr : Expr V)

inductive Select (V : Type) where
  | items (distinct : Bool) (items : List (Item V))
  /-- the keys of `GROUP BY`, then the aggregates -/
  | grouped (keys : List (Col × Expr V)) (aggs : List (Col × Aggregate V))

structure Block (V : Type) where
  select : Select V
  source : String
  where_ : List (Expr V)
  /-- `true` is `DESC` -/
  orderBy : List (Expr V × Bool)
  limit : Option ℕ

structure Query (V : Type) where
  ctes : List (String × Block V)
  body : Block V

/-! ### Names -/

def Item.columns (src : List Col) : Item V → List Col
  | .star => src
  | .starExcept cols => src.filter (· ∉ cols)
  | .column col => [col]
  | .expr name _ => [name]

def Select.columns (src : List Col) : Select V → List Col
  | .items _ list => list.flatMap (Item.columns src)
  | .grouped keys aggs => keys.map Prod.fst ++ aggs.map Prod.fst

def Item.resolves (src : List Col) : Item V → Bool
  | .star => true
  | .starExcept cols => cols.all (· ∈ src)
  | .column col => col ∈ src
  | .expr _ e => e.cols.all (· ∈ src)

def Select.resolves (src : List Col) : Select V → Bool
  | .items _ list => list.all (Item.resolves src)
  | .grouped keys aggs =>
    keys.all (fun k => k.2.cols.all (· ∈ src)) && aggs.all (fun a => a.2.cols.all (· ∈ src))

/-- The columns of the table that `ORDER BY` still sees. -/
def Select.behind (src : List Col) : Select V → List Col
  | .items false _ => src
  | .items true _ => []
  | .grouped _ _ => []

def Block.resolves (b : Block V) (src : List Col) : Bool :=
  b.where_.all (fun e => e.cols.all (· ∈ src)) && b.select.resolves src &&
    (keyCols b.orderBy).all (· ∈ b.select.columns src ++ b.select.behind src)

def resolvesFrom (body : Block V) : List (String × Block V) → (String → Option (List Col)) → Bool
  | [], schemas => (schemas body.source).any body.resolves
  | (name, b) :: ctes, schemas =>
    (schemas b.source).any fun src => b.resolves src &&
      resolvesFrom body ctes (Function.update schemas name (some (b.select.columns src)))

def Query.resolves (q : Query V) (schemas : String → Option (List Col)) : Bool := resolvesFrom q.body q.ctes schemas

section Meaning

variable [Scalar V] [DecidableEq V]

def Item.cells (r : Row V) : Item V → Row V
  | .star => r
  | .starExcept cols => r.filter fun q => q.1 ∉ cols
  | .column col => [(col, field r col)]
  | .expr name e => [(name, e.eval (field r))]

def itemsRow (items : List (Item V)) (r : Row V) : Row V := items.flatMap (Item.cells r)

def holds (filters : List (Expr V)) (r : Row V) : Bool := filters.all fun e => Scalar.truth (e.eval (field r))

/-- The rows of the result, each with the row of the table that `ORDER BY` sees behind it. -/
def Select.Rows (rows : List (Row V)) : Select V → List (Row V × Row V) → Prop
  | .items false list, out => ∃ l : List (Row V), l.Perm rows ∧ out = l.map fun r => (r, itemsRow list r)
  | .items true list, out => ∃ d : List (Row V), d.Nodup ∧
      (∀ x, x ∈ d ↔ x ∈ rows.map (itemsRow list)) ∧ out = d.map (Prod.mk [])
  | .grouped keys aggs, out => ∃ l g : List (Row V), l.Perm rows ∧
      g.Perm (groupRows keys aggs l) ∧ out = g.map (Prod.mk [])

/-- What a name in `ORDER BY` means. -/
def sortEnv (cols : List Col) (p : Row V × Row V) (c : Col) : V :=
  if c ∈ cols then field p.2 c else field p.1 c

/-- **The results of a block** over the table that it reads. -/
def Block.Rows (b : Block V) (src : Table V) (res : List (Row V)) : Prop :=
  ∃ out, b.select.Rows (src.rows.filter (holds b.where_)) out ∧
    (out.Pairwise fun p q => precedes b.orderBy (sortEnv (b.select.columns src.cols) p)
      (sortEnv (b.select.columns src.cols) q) = true) ∧
    res = (limited b.limit out).map Prod.snd

inductive With : (String → Option (Table V)) → List (String × Block V) → (String → Option (Table V)) → Prop where
  | nil {env : String → Option (Table V)} : With env [] env
  | cons {env env' : String → Option (Table V)} {name : String} {b : Block V}
      {ctes : List (String × Block V)} {src tbl : Table V} (hsrc : env b.source = some src)
      (hcols : tbl.cols = b.select.columns src.cols) (hrows : b.Rows src tbl.rows)
      (hrest : With (Function.update env name (some tbl)) ctes env') :
      With env ((name, b) :: ctes) env'

def Query.Rows (q : Query V) (env : String → Option (Table V)) (res : List (Row V)) : Prop :=
  ∃ env' src, With env q.ctes env' ∧ env' q.body.source = some src ∧ q.body.Rows src res

/-- **The results of a query**: none, if there is a name that is not found. -/
def Query.Result (q : Query V) (env : String → Option (Table V)) (res : List (Row V)) : Prop :=
  q.resolves (fun name => (env name).map Table.cols) = true ∧ q.Rows env res

end Meaning

section Scope

variable [Scalar V] [DecidableEq V]

theorem with_snoc {env env' : String → Option (Table V)} {ctes : List (String × Block V)}
    {name : String} {b : Block V} (h : With env (ctes ++ [(name, b)]) env') :
    ∃ mid src tbl, With env ctes mid ∧ mid b.source = some src ∧
      tbl.cols = b.select.columns src.cols ∧ b.Rows src tbl.rows ∧ env' = Function.update mid name (some tbl) := by
  induction ctes generalizing env with
  | nil =>
    cases h with
    | cons hsrc hcols hrows hrest =>
      cases hrest
      exact ⟨env, _, _, .nil, hsrc, hcols, hrows, rfl⟩
  | cons c ctes ih =>
    cases h with
    | cons hsrc hcols hrows hrest =>
      obtain ⟨mid, src, tbl, hwith, hrest'⟩ := ih hrest
      exact ⟨mid, src, tbl, .cons hsrc hcols hrows hwith, hrest'⟩

end Scope

end Sql
