/-
**`graph-match`.**

A pattern is a chain of hops, or several of them; a variable that is written twice is one node.
Three builders turn it into joins.
-/

import Pensieve.JoinQuery
import Pensieve.Union

namespace KqlGraph

open List
open SqlJoin JoinQuery

/-! ### Patterns -/

/-- `-[var:etype]->(dst)`. -/
structure Hop where
  var : String
  etype : Option String
  dst : String

/-- `(start)-[…]->(…)…`: at least one hop. -/
structure Chain where
  start : String
  hop : Hop
  hops : List Hop

structure EdgePat where
  var : String
  etype : Option String
  src : String
  dst : String
  optional : Bool

def hopEdges (optional : Bool) : String → List Hop → List EdgePat
  | _, [] => []
  | prev, h :: hs => ⟨h.var, h.etype, prev, h.dst, optional⟩ :: hopEdges optional h.dst hs

def Chain.edges (optional : Bool) (c : Chain) : List EdgePat := hopEdges optional c.start (c.hop :: c.hops)

def Chain.nodes (c : Chain) : List String := c.start :: (c.hop :: c.hops).map Hop.dst

/-- `<var>.<col> [as <alias>]`. -/
structure ProjectCol where
  var : String
  col : String
  asAlias : Option String

def ProjectCol.outAlias (c : ProjectCol) : String := c.asAlias.getD (c.var ++ "_" ++ c.col)

/-! ### Queries -/

/-- The names of the joined tables: `n{i}` and `gn{i}`, `ed{i}` and `ge{i}`.  A single hop calls them
`a` and `b`, and `e`. -/
inductive Alias
  | node (i : ℕ)
  | edge (i : ℕ)
  deriving DecidableEq

inductive TableRef
  | edges
  | nodes
  deriving DecidableEq

inductive GraphCol
  | id
  | src
  | dst
  | etype
  deriving DecidableEq

structure SelectItem where
  name : Alias
  col : String
  outAlias : String

/-- `SELECT items FROM joins WHERE wheres`. -/
structure MatchPlan where
  items : List SelectItem
  joins : List (Join Alias TableRef GraphCol)
  wheres : List (Cond Alias GraphCol)

/-- The edge `j` leaves the node `i`. -/
def srcCond {A : Type} (edge node : A) : Cond A GraphCol := .same edge .src node .id

/-- The edge `j` enters the node `i`. -/
def dstCond {A : Type} (edge node : A) : Cond A GraphCol := .same edge .dst node .id

def typeConds (edges : List EdgePat) : List (Cond Alias GraphCol) :=
  edges.zipIdx.flatMap fun e =>
    if e.1.optional then [] else e.1.etype.toList.map (.is (.edge e.2) .etype)

/-! ### The builders -/

/-- A chain of `n` hops: the edge `i` joins the nodes `i` and `i + 1`. -/
def chainJoins (n : ℕ) : List (Join Alias TableRef GraphCol) :=
  [⟨.inner, .edge 0, .edges, []⟩, ⟨.inner, .node 0, .nodes, [srcCond (.edge 0) (.node 0)]⟩,
    ⟨.inner, .node 1, .nodes, [dstCond (.edge 0) (.node 1)]⟩] ++
  (List.range' 1 (n - 1)).flatMap fun i =>
    [⟨.inner, .edge i, .edges, [srcCond (.edge i) (.node i)]⟩,
      ⟨.inner, .node (i + 1), .nodes, [dstCond (.edge i) (.node (i + 1))]⟩]

structure IndexedEdge where
  src : ℕ
  dst : ℕ
  etype : Option String
  optional : Bool

def edgeJoins (joined : List ℕ) (j : ℕ) (e : IndexedEdge) : List (Join Alias TableRef GraphCol) × List ℕ :=
  let kind := if e.optional then Kind.left else Kind.inner
  let on := (if e.src ∈ joined then [srcCond (.edge j) (.node e.src)] else []) ++
    (if e.dst ∈ joined then [dstCond (.edge j) (.node e.dst)] else []) ++
    (if e.optional then e.etype.toList.map (.is (.edge j) .etype) else [])
  let srcJoin := if e.src ∈ joined then []
    else [⟨kind, .node e.src, .nodes, [srcCond (.edge j) (.node e.src)]⟩]
  let joined' := if e.src ∈ joined then joined else e.src :: joined
  let dstJoin := if e.dst ∈ joined' then []
    else [⟨kind, .node e.dst, .nodes, [dstCond (.edge j) (.node e.dst)]⟩]
  (⟨kind, .edge j, .edges, on⟩ :: (srcJoin ++ dstJoin), if e.dst ∈ joined' then joined' else e.dst :: joined')

def restJoins : List ℕ → ℕ → List IndexedEdge → List (Join Alias TableRef GraphCol)
  | _, _, [] => []
  | joined, j, e :: es => (edgeJoins joined j e).1 ++ restJoins (edgeJoins joined j e).2 (j + 1) es

def indexJoins : List IndexedEdge → List (Join Alias TableRef GraphCol)
  | [] => []
  | e :: es =>
    [⟨.inner, .edge 0, .edges, []⟩, ⟨.inner, .node e.src, .nodes, [srcCond (.edge 0) (.node e.src)]⟩,
      ⟨.inner, .node e.dst, .nodes, [dstCond (.edge 0) (.node e.dst)]⟩] ++
    restJoins [e.dst, e.src] 1 es

def pushNode (vars : List String) (v : String) : List String := if v ∈ vars then vars else vars ++ [v]

def nodeVars (nodes : List String) : List String := nodes.foldl pushNode []

def EdgePat.index (vars : List String) (e : EdgePat) : IndexedEdge :=
  ⟨vars.idxOf e.src, vars.idxOf e.dst, e.etype, e.optional⟩

def generalJoins (vars : List String) (edges : List EdgePat) : List (Join Alias TableRef GraphCol) :=
  indexJoins (edges.map (EdgePat.index vars))

/-! ### The operator -/

def unknownVariable (var : String) : String := "graph-match project: unknown variable `" ++ var ++ "`"

def resolveSingle (c : Chain) (var : String) : Except String Alias :=
  if var = c.start then .ok (.node 0)
  else if var = c.hop.var then .ok (.edge 0)
  else if var = c.hop.dst then .ok (.node 1)
  else .error (unknownVariable var)

def resolve (nodes edgeVars : List String) (var : String) : Except String Alias :=
  if var ∈ nodes then .ok (.node (nodes.idxOf var))
  else if var ∈ edgeVars then .ok (.edge (edgeVars.idxOf var))
  else .error (unknownVariable var)

/-- The `SELECT` list. -/
def selectItems (find : String → Except String Alias) : List ProjectCol → Except String (List SelectItem)
  | [] => .ok []
  | c :: cs =>
    match find c.var with
    | .error e => .error e
    | .ok name =>
      match selectItems find cs with
      | .error e => .error e
      | .ok items => .ok (⟨name, c.col, c.outAlias⟩ :: items)

/-- The chains of a pattern: the first one is mandatory, the others have a flag for `OPTIONAL`. -/
structure MatchPattern where
  first : Chain
  rest : List (Bool × Chain)

def MatchPattern.edges (p : MatchPattern) : List EdgePat :=
  p.first.edges false ++ p.rest.flatMap fun s => s.2.edges s.1

def MatchPattern.vars (p : MatchPattern) : List String :=
  nodeVars (p.first.nodes ++ p.rest.flatMap fun s => s.2.nodes)

/-- **`op_graph_match`** and **`emit_general_graph_match`**, behind a `make-graph`. -/
def opGraphMatch (p : MatchPattern) (project : List ProjectCol) : Except String MatchPlan :=
  match p.rest with
  | [] =>
    match selectItems
        (if p.first.hops.isEmpty then resolveSingle p.first
          else resolve p.first.nodes (p.edges.map EdgePat.var)) project with
    | .error e => .error e
    | .ok items =>
      if items.isEmpty then .error "graph-match: project must list at least one column"
      else .ok ⟨items, chainJoins p.edges.length, typeConds p.edges⟩
  | _ :: _ =>
    match selectItems (resolve p.vars (p.edges.map EdgePat.var)) project with
    | .error e => .error e
    | .ok items =>
      if items.isEmpty then .error "graph-match: project must list at least one column"
      else .ok ⟨items, generalJoins p.vars p.edges, typeConds p.edges⟩

section Rows

variable {ν ε V : Type}

abbrev RowRef (E : EdgeTable ε) (N : NodeTable ν) := Fin E.rows.length ⊕ Fin N.rows.length

def graphStore (E : EdgeTable ε) (N : NodeTable ν) : Store TableRef (RowRef E N) GraphCol where
  rows
    | .edges => (List.finRange _).map Sum.inl
    | .nodes => (List.finRange _).map Sum.inr
  read
    | .inl i, .src => E.src (E.rows.get i)
    | .inl i, .dst => E.dst (E.rows.get i)
    | .inl i, .etype => E.etype (E.rows.get i)
    | .inl _, .id => none
    | .inr i, .id => N.id (N.rows.get i)
    | .inr _, _ => none
  nodup
    | .edges => (nodup_finRange _).map Sum.inl_injective
    | .nodes => (nodup_finRange _).map Sum.inr_injective

def cell {E : EdgeTable ε} {N : NodeTable ν} (ecol : ε → String → V) (ncol : ν → String → V)
    (r : RowRef E N) (col : String) : V :=
  match r with
  | .inl i => ecol (E.rows.get i) col
  | .inr i => ncol (N.rows.get i) col

/-- **The rows of `_gm_result`**: none if a name is given twice, to a table or to a column. -/
def gmRows (E : EdgeTable ε) (N : NodeTable ν) (ecol : ε → String → V) (ncol : ν → String → V)
    (plan : MatchPlan) : Option (List (List (Option V))) :=
  if (plan.joins.map Join.name).Nodup ∧ (plan.items.map fun i => Kql.sqlName i.outAlias).Nodup then
    some ((solve (graphStore E N) plan.joins plan.wheres).map fun env =>
      plan.items.map fun i => (env i.name).map fun r => cell ecol ncol r i.col)
  else none

/-! ### Matches -/

/-- What a match assigns a row to: the variables of the nodes and the places of the edges. -/
inductive MatchVar
  | node (v : String)
  | edge (j : ℕ)
  deriving DecidableEq

def matchNames (edges : List EdgePat) : List (MatchVar × TableRef) :=
  edges.zipIdx.flatMap fun e =>
    [(.edge e.2, .edges), (.node e.1.src, .nodes), (.node e.1.dst, .nodes)]

def matchConds (edges : List EdgePat) : List (Cond MatchVar GraphCol) :=
  edges.zipIdx.flatMap fun e =>
    [srcCond (.edge e.2) (.node e.1.src), dstCond (.edge e.2) (.node e.1.dst)] ++
      e.1.etype.toList.map (.is (.edge e.2) .etype)

/-- **A match.** -/
def IsMatch (E : EdgeTable ε) (N : NodeTable ν) (edges : List EdgePat) (a : Env MatchVar (RowRef E N)) : Prop :=
  IsSolution (graphStore E N) (matchNames edges) (matchConds edges) a

def matchVar (edges : List EdgePat) (var : String) : MatchVar :=
  if ∃ e ∈ edges, e.src = var ∨ e.dst = var then .node var
  else .edge ((edges.map EdgePat.var).idxOf var)

def matchRow {E : EdgeTable ε} {N : NodeTable ν} (ecol : ε → String → V) (ncol : ν → String → V)
    (edges : List EdgePat) (project : List ProjectCol) (a : Env MatchVar (RowRef E N)) : List (Option V) :=
  project.map fun c => (a (matchVar edges c.var)).map fun r => cell ecol ncol r c.col

end Rows

def UniqueIds {ν : Type} (N : NodeTable ν) : Prop := (N.rows.map N.id).Nodup ∧ ∀ a ∈ N.rows, (N.id a).isSome = true

/-- **The operator is exact**: over all tables there is one row for each match. -/
def MatchExact (p : MatchPattern) (project : List ProjectCol) (plan : MatchPlan) : Prop :=
  ∀ (ν ε V : Type) (E : EdgeTable ε) (N : NodeTable ν) (ecol : ε → String → V)
    (ncol : ν → String → V), UniqueIds N → ∃ rows, gmRows E N ecol ncol plan = some rows ∧
      Enumerates (IsMatch E N p.edges) (matchRow ecol ncol p.edges project) rows

def LoopsJoined (edges : List EdgePat) : Prop :=
  ∀ j e, edges[j]? = some e → e.src = e.dst → ∃ e' ∈ edges.take j, e'.src = e.src ∨ e'.dst = e.src

/-- **The patterns and projections that the builders get right**: no column name is given twice; in a
single chain no node is written twice, and where it has a single hop the projection does not use a
name that the edge shares with the second node; in several chains self-loops come late. -/
def JoinsVariables (p : MatchPattern) (project : List ProjectCol) : Prop :=
  (project.map fun c => Kql.sqlName c.outAlias).Nodup ∧ match p.rest with
    | [] => p.first.nodes.Nodup ∧ (p.first.hops = [] → p.first.hop.var = p.first.hop.dst →
        ∀ c ∈ project, c.var ≠ p.first.hop.var)
    | _ :: _ => LoopsJoined p.edges

section Joins

def Touches (es : List IndexedEdge) (i : ℕ) : Prop := ∃ e ∈ es, e.src = i ∨ e.dst = i

variable {joined : List ℕ} {j : ℕ} {e : IndexedEdge} {es : List IndexedEdge}

theorem touches_cons {i : ℕ} : Touches (e :: es) i ↔ (e.src = i ∨ e.dst = i) ∨ Touches es i :=
  exists_mem_cons_iff _ _ _

theorem touches_take_succ {k i : ℕ} :
    Touches ((e :: es).take (k + 1)) i ↔ (e.src = i ∨ e.dst = i) ∨ Touches (es.take k) i :=
  touches_cons

theorem mem_edgeJoins_snd {i : ℕ} : i ∈ (edgeJoins joined j e).2 ↔ i ∈ joined ∨ e.src = i ∨ e.dst = i := by
  simp only [edgeJoins]
  split_ifs with hs hd hd <;> grind

variable {d : Alias × TableRef}

theorem mem_decls_edgeJoins : d ∈ decls (edgeJoins joined j e).1 ↔ d = (.edge j, .edges) ∨
      (e.src ∉ joined ∧ d = (.node e.src, .nodes)) ∨ (e.dst ∉ joined ∧ d = (.node e.dst, .nodes)) := by
  simp only [edgeJoins, decls]
  split_ifs with hs hd hd <;> grind

variable {c : Cond Alias GraphCol}

theorem mem_conds_edgeJoins (he : e.optional = false) :
    c ∈ conds (edgeJoins joined j e).1 ↔ c = srcCond (.edge j) (.node e.src) ∨
      (c = dstCond (.edge j) (.node e.dst) ∧ (e.dst ∈ joined ∨ e.dst ≠ e.src)) := by
  simp only [edgeJoins, conds, he]
  split_ifs with hs hd hd <;> grind

/-- The names that are there when the edge `j` is joined. -/
def Joined (joined : List ℕ) (j : ℕ) (seen : List Alias) : Prop :=
  (∀ i, .node i ∈ seen ↔ i ∈ joined) ∧ ∀ k, .edge k ∈ seen ↔ k < j

theorem names_srcCond (a b : Alias) : (srcCond a b).names = [a, b] := rfl

theorem names_dstCond (a b : Alias) : (dstCond a b).names = [a, b] := rfl

theorem mem_names_edgeJoins {a : Alias} :
    a ∈ (edgeJoins joined j e).1.map Join.name ↔ a = .edge j ∨ (e.src ∉ joined ∧ a = .node e.src) ∨
      (e.dst ∉ joined ∧ a = .node e.dst) := by
  simp only [edgeJoins]
  split_ifs with hs hd hd <;> grind

variable {seen : List Alias}

theorem Joined.inScope_ends (h : Joined joined j seen) (kind : Kind) : InScope (.edge j :: seen)
      ((if e.src ∈ joined then []
        else [⟨kind, .node e.src, TableRef.nodes, [srcCond (.edge j) (.node e.src)]⟩]) ++
      if e.dst ∈ (if e.src ∈ joined then joined else e.src :: joined) then []
        else [⟨kind, .node e.dst, TableRef.nodes, [dstCond (.edge j) (.node e.dst)]⟩]) := by
  obtain ⟨hnode, -⟩ := h
  rw [inScope_append]
  by_cases hs : e.src ∈ joined
  · rw [if_pos hs, if_pos hs]
    refine ⟨trivial, ?_⟩
    split_ifs with hd
    · trivial
    · simp [InScope, hnode, hd, names_dstCond]
  · rw [if_neg hs, if_neg hs]
    refine ⟨by simp [InScope, hnode, hs, names_srcCond], ?_⟩
    split_ifs with hd
    · trivial
    · rw [mem_cons, not_or] at hd
      simp [InScope, hnode, hd.1, hd.2, names_dstCond]

theorem Joined.edgeJoins (h : Joined joined j seen) :
    InScope seen (edgeJoins joined j e).1 ∧ Joined (edgeJoins joined j e).2 (j + 1)
      (((edgeJoins joined j e).1.map Join.name).reverse ++ seen) := by
  have hends := h.inScope_ends (e := e) (if e.optional then Kind.left else Kind.inner)
  obtain ⟨hnode, hedge⟩ := h
  constructor
  · refine ⟨by simp [hedge], ?_, hends⟩
    grind [names_srcCond, names_dstCond, Cond.names]
  · constructor
    · intro i
      rw [mem_edgeJoins_snd, mem_append, mem_reverse, mem_names_edgeJoins, hnode]
      grind
    · intro k
      rw [mem_append, mem_reverse, mem_names_edgeJoins, hedge]
      grind

theorem inScope_restJoins (h : Joined joined j seen) : InScope seen (restJoins joined j es) := by
  induction es generalizing joined j seen with
  | nil => trivial
  | cons e es ih =>
    obtain ⟨hscope, hjoined⟩ := h.edgeJoins (e := e)
    rw [restJoins, inScope_append]
    exact ⟨hscope, ih hjoined⟩

theorem mem_decls_restJoins : d ∈ decls (restJoins joined j es) ↔ (∃ k < es.length, d = (.edge (j + k), .edges)) ∨
      ∃ i, i ∉ joined ∧ Touches es i ∧ d = (.node i, .nodes) := by
  induction es generalizing joined j with
  | nil => simp [restJoins, decls, Touches]
  | cons e es ih =>
    rw [restJoins, decls_append, mem_append, mem_decls_edgeJoins, ih]
    simp only [mem_edgeJoins_snd, Touches, mem_cons, exists_eq_or_imp, length_cons]
    constructor
    · rintro ((rfl | ⟨hs, rfl⟩ | ⟨hd, rfl⟩) | ⟨k, hk, rfl⟩ | ⟨i, hi, ht, rfl⟩)
      · exact Or.inl ⟨0, by omega, rfl⟩
      · exact Or.inr ⟨e.src, hs, Or.inl (Or.inl rfl), rfl⟩
      · exact Or.inr ⟨e.dst, hd, Or.inl (Or.inr rfl), rfl⟩
      · exact Or.inl ⟨k + 1, by omega, by rw [Nat.add_assoc, Nat.add_comm 1]⟩
      · exact Or.inr ⟨i, fun h => hi (Or.inl h), Or.inr ht, rfl⟩
    · rintro (⟨k, hk, rfl⟩ | ⟨i, hi, ht, rfl⟩)
      · cases k with
        | zero => exact Or.inl (Or.inl rfl)
        | succ k => exact Or.inr (Or.inl ⟨k, by omega, by rw [Nat.add_assoc, Nat.add_comm 1]⟩)
      · by_cases he : e.src = i ∨ e.dst = i
        · rcases he with rfl | rfl
          · exact Or.inl (Or.inr (Or.inl ⟨hi, rfl⟩))
          · exact Or.inl (Or.inr (Or.inr ⟨hi, rfl⟩))
        · refine Or.inr (Or.inr ⟨i, ?_, ht.resolve_left he, rfl⟩)
          exact fun h => h.elim hi he

/-- **The conditions that the joins put**: every edge on its source; on its destination as well, unless
this is its source and no edge before it has brought that node. -/
theorem mem_conds_restJoins (hes : ∀ e ∈ es, e.optional = false) :
    c ∈ conds (restJoins joined j es) ↔ ∃ k e, es[k]? = some e ∧
      (c = srcCond (.edge (j + k)) (.node e.src) ∨ c = dstCond (.edge (j + k)) (.node e.dst) ∧
        (e.dst ≠ e.src ∨ e.dst ∈ joined ∨ Touches (es.take k) e.dst)) := by
  induction es generalizing joined j with
  | nil => simp [restJoins, conds]
  | cons e es ih =>
    rw [restJoins, conds_append, mem_append, mem_conds_edgeJoins (hes e mem_cons_self),
      ih fun e he => hes e (mem_cons_of_mem _ he)]
    constructor
    · rintro ((rfl | ⟨rfl, he⟩) | ⟨k, e', he', hc⟩)
      · exact ⟨0, e, rfl, Or.inl rfl⟩
      · exact ⟨0, e, rfl, Or.inr ⟨rfl, he.symm.imp_right Or.inl⟩⟩
      · refine ⟨k + 1, e', he', ?_⟩
        rw [Nat.add_comm k, ← Nat.add_assoc]
        refine hc.imp_right fun ⟨hc, h⟩ => ⟨hc, h.imp_right fun h => ?_⟩
        rw [mem_edgeJoins_snd] at h
        rw [Nat.add_comm 1, touches_take_succ]
        tauto
    · rintro ⟨k, e', he', hc⟩
      cases k with
      | zero =>
        obtain rfl := Option.some_inj.1 he'
        refine Or.inl (hc.imp_right fun ⟨hc, h⟩ => ⟨hc, ?_⟩)
        rcases h with h | h | ⟨e, he, -⟩
        · exact Or.inr h
        · exact Or.inl h
        · simp at he
      | succ k =>
        refine Or.inr ⟨k, e', he', ?_⟩
        rw [Nat.add_comm k, ← Nat.add_assoc] at hc
        refine hc.imp_right fun ⟨hc, h⟩ => ⟨hc, h.imp_right fun h => ?_⟩
        rw [Nat.add_comm 1, touches_take_succ] at h
        rw [mem_edgeJoins_snd]
        tauto

/-! ### The joins of a pattern -/

theorem mem_decls_indexJoins : d ∈ decls (indexJoins es) ↔ (∃ k < es.length, d = (.edge k, .edges)) ∨
      ∃ i, Touches es i ∧ d = (.node i, .nodes) := by
  cases es with
  | nil => simp [indexJoins, decls, Touches]
  | cons e es =>
    rw [indexJoins, decls_append, mem_append, mem_decls_restJoins]
    simp only [decls, map_cons, map_nil, mem_cons, not_mem_nil, or_false, Touches, exists_eq_or_imp, length_cons]
    constructor
    · rintro ((rfl | rfl | rfl) | ⟨k, hk, rfl⟩ | ⟨i, -, ht, rfl⟩)
      · exact Or.inl ⟨0, by omega, rfl⟩
      · exact Or.inr ⟨e.src, Or.inl (Or.inl rfl), rfl⟩
      · exact Or.inr ⟨e.dst, Or.inl (Or.inr rfl), rfl⟩
      · exact Or.inl ⟨1 + k, by omega, rfl⟩
      · exact Or.inr ⟨i, Or.inr ht, rfl⟩
    · rintro (⟨k, hk, rfl⟩ | ⟨i, ht, rfl⟩)
      · cases k with
        | zero => exact Or.inl (Or.inl rfl)
        | succ k => exact Or.inr (Or.inl ⟨k, by omega, by rw [Nat.add_comm]⟩)
      · by_cases he : i = e.dst ∨ i = e.src
        · rcases he with rfl | rfl
          · exact Or.inl (Or.inr (Or.inr rfl))
          · exact Or.inl (Or.inr (Or.inl rfl))
        · refine Or.inr (Or.inr ⟨i, he, ht.resolve_left fun h => he ?_, rfl⟩)
          exact h.symm.imp Eq.symm Eq.symm

theorem mem_conds_indexJoins (hes : ∀ e ∈ es, e.optional = false) : c ∈ conds (indexJoins es) ↔ ∃ k e, es[k]? = some e ∧
      (c = srcCond (.edge k) (.node e.src) ∨ c = dstCond (.edge k) (.node e.dst) ∧
        (k = 0 ∨ e.dst ≠ e.src ∨ Touches (es.take k) e.dst)) := by
  cases es with
  | nil => simp [indexJoins, conds]
  | cons e es =>
    rw [indexJoins, conds_append, mem_append, mem_conds_restJoins fun e he => hes e (mem_cons_of_mem _ he)]
    simp only [conds, flatMap_cons, flatMap_nil, nil_append, append_nil, mem_cons, mem_append, not_mem_nil, or_false]
    constructor
    · rintro ((rfl | rfl) | ⟨k, e', he', hc⟩)
      · exact ⟨0, e, rfl, Or.inl rfl⟩
      · exact ⟨0, e, rfl, Or.inr ⟨rfl, Or.inl rfl⟩⟩
      · refine ⟨1 + k, e', by rw [Nat.add_comm]; exact he', hc.imp_right fun ⟨hc, h⟩ => ⟨hc, Or.inr ?_⟩⟩
        refine h.imp_right fun h => ?_
        rw [Nat.add_comm 1, touches_take_succ]
        rcases h with h | h
        · grind
        · exact Or.inr h
    · rintro ⟨k, e', he', hc⟩
      cases k with
      | zero =>
        obtain rfl := Option.some_inj.1 he'
        exact Or.inl (hc.imp_right And.left)
      | succ k =>
        refine Or.inr ⟨k, e', he', ?_⟩
        rw [Nat.add_comm 1]
        refine hc.imp_right fun ⟨hc, h⟩ => ⟨hc, (h.resolve_left (by omega)).imp_right fun h => ?_⟩
        rw [touches_take_succ] at h
        rcases h with h | h
        · left; grind
        · exact Or.inr h

theorem inScope_indexJoins (hloop : ∀ e, es[0]? = some e → e.src ≠ e.dst) : InScope [] (indexJoins es) := by
  cases es with
  | nil => trivial
  | cons e es =>
    have hne : e.src ≠ e.dst := hloop e rfl
    rw [indexJoins, inScope_append]
    constructor
    · simp [InScope, names_srcCond, names_dstCond, hne.symm]
    · refine inScope_restJoins ⟨fun i => by simp, fun k => by simp⟩

theorem kind_restJoins (hes : ∀ e ∈ es, e.optional = false) : ∀ q ∈ restJoins joined j es, q.kind = .inner := by
  induction es generalizing joined j with
  | nil => simp [restJoins]
  | cons e es ih =>
    have he : e.optional = false := hes e mem_cons_self
    rw [restJoins]
    intro q hq
    rcases mem_append.1 hq with hq | hq
    · simp only [edgeJoins, he] at hq
      grind
    · exact ih (fun e he => hes e (mem_cons_of_mem _ he)) q hq

theorem kind_indexJoins (hes : ∀ e ∈ es, e.optional = false) : ∀ q ∈ indexJoins es, q.kind = .inner := by
  cases es with
  | nil => simp [indexJoins]
  | cons e es =>
    have hrest : ∀ q ∈ restJoins [e.dst, e.src] 1 es, q.kind = .inner :=
      kind_restJoins fun e he => hes e (mem_cons_of_mem _ he)
    rw [indexJoins]
    simpa using hrest

end Joins
end KqlGraph
