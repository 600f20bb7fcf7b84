/-
**Variable-length graph operators.**

`graph-var-length`, `graph-var-match` and `graph-shortest-path` are each a recursive table
expression over the edge table, which enumerates the walks up to `max-hops`, and a `MIN` over what
it found.
-/

import Pensieve.CsrTraverse
import Pensieve.RecursiveCte
import Pensieve.SqlJoin

namespace KqlGraph

open List
open Bfs RecursiveCte SqlJoin

/-! ### Tables and hops -/

inductive GraphDirection
  | forward
  | backward
  | both
  deriving DecidableEq

/-- An edge table: its rows, with the columns that the operators read. -/
structure EdgeTable (ε : Type) where
  rows : List ε
  src : ε → Option String
  dst : ε → Option String
  /-- the column `type` -/
  etype : ε → Option String

structure NodeTable (ν : Type) where
  rows : List ν
  id : ν → Option String

section Hop

variable {ε : Type} (T : EdgeTable ε)

def joinCond (direction : GraphDirection) (e : ε) (node : Option String) : Bool :=
  match direction with
  | .forward => sqlEq (T.src e) node
  | .backward => sqlEq (T.dst e) node
  | .both => sqlEq (T.src e) node || sqlEq (T.dst e) node

def nextNode (direction : GraphDirection) (e : ε) (node : Option String) : Option String :=
  match direction with
  | .forward => T.dst e
  | .backward => T.src e
  | .both => if sqlEq (T.src e) node then T.dst e else T.src e

/-- `AND e."type" = …`, where an edge type is given. -/
def typeFilter (edgeType : Option String) (e : ε) : Bool :=
  match edgeType with
  | none => true
  | some t => sqlEq (T.etype e) (some t)

def hops (direction : GraphDirection) (edgeType : Option String) (node : Option String) : List (Option String) :=
  (T.rows.filter fun e => joinCond T direction e node && typeFilter T edgeType e).map
    fun e => nextNode T direction e node

end Hop

/-! ### The operators -/

structure Window where
  minHops : ℕ
  maxHops : ℕ
  one_le : 1 ≤ maxHops
  min_le : minHops ≤ maxHops

/-- The checks of `graph-var-length` and `graph-var-match` on their bounds. -/
def checkWindow (op : String) (minHops maxHops : ℕ) : Except String Window :=
  if h : maxHops = 0 then
    .error (op ++ ": max-hops must be ≥ 1")
  else if h' : minHops > maxHops then
    .error (op ++ s!": min-hops ({minHops}) must be ≤ max-hops ({maxHops})")
  else
    .ok ⟨minHops, maxHops, Nat.one_le_iff_ne_zero.2 h, not_lt.1 h'⟩

/-- What `graph-var-length` is written with. -/
structure VarLength where
  seeds : List String
  window : Window
  direction : GraphDirection
  edgeType : Option String

/-- **`op_graph_var_length`**, up to the tables it adds. -/
def opGraphVarLength (seeds : List String) (minHops maxHops : ℕ) (direction : GraphDirection)
    (edgeType : Option String) : Except String VarLength :=
  match checkWindow "graph-var-length" minHops maxHops with
  | .error e => .error e
  | .ok window => .ok ⟨seeds, window, direction, edgeType⟩

inductive Endpoint
  | a
  | b
  deriving DecidableEq

/-- The variables of the pattern `(a)-[r]->(b)`. -/
structure Pattern where
  aVar : String
  relVar : String
  bVar : String

/-- The node that `var` stands for in a `project` list. -/
def Pattern.endpoint (p : Pattern) (var : String) : Except String Endpoint :=
  if var = p.aVar then .ok .a
  else if var = p.bVar then .ok .b
  else if var = p.relVar then
    .error ("graph-var-match project: relationship `" ++ p.relVar ++ "` has no columns in a variable-length match")
  else .error ("graph-var-match project: unknown variable `" ++ var ++ "`")

structure Item where
  endpoint : Endpoint
  col : String
  outAlias : String

/-- `<var>.<col> [as <alias>]`. -/
def Pattern.item (p : Pattern) (var col : String) (alias? : Option String) : Except String Item :=
  match p.endpoint var with
  | .error e => .error e
  | .ok side => .ok ⟨side, col, alias?.getD (var ++ "_" ++ col)⟩

/-- What `graph-var-match` is written with. -/
structure VarMatch where
  window : Window
  direction : GraphDirection
  edgeType : Option String
  items : List Item

/-- **`op_graph_var_match`**, up to the tables it adds: `project` has at least one column. -/
def opGraphVarMatch (p : Pattern) (minHops maxHops : ℕ) (direction : GraphDirection)
    (edgeType : Option String) (first : String × String × Option String)
    (project : List (String × String × Option String)) : Except String VarMatch :=
  match checkWindow "graph-var-match" minHops maxHops with
  | .error e => .error e
  | .ok window =>
    match (first :: project).mapM fun c => p.item c.1 c.2.1 c.2.2 with
    | .error e => .error e
    | .ok items => .ok ⟨window, direction, edgeType, items⟩

/-- What `graph-shortest-path` is written with. -/
structure ShortestPath where
  source : String
  target : String
  maxHops : ℕ
  direction : GraphDirection

section Results

variable {ε : Type} (T : EdgeTable ε)

/-- `_vl` and `_vm`: the walks up to `max-hops` from the seeds, each with its origin. -/
def vlRows (seeds : List (Option String)) (maxHops : ℕ) (direction : GraphDirection)
    (edgeType : Option String) (fuel : ℕ) : Option (List (Option String × Option String × ℕ)) :=
  unionAll (hopRows (hops T direction edgeType) (fun origin _ => origin) maxHops) fuel
    ((seeds.map fun s => (s, s)).map fun a => (a.1, a.2, 0))

/-- `_vl_min` and `_vm_min`: each pair with the length of the shortest walk found. -/
def vlMin (rows : List (Option String × Option String × ℕ)) : List (Option String × Option String × ℕ) :=
  (minPer (fun r => (r.1, r.2.1)) (fun r => r.2.2) rows).map fun g => (g.1.1, g.1.2, g.2)

/-- The pairs of `_vl_min` and `_vm_min` within the window. -/
def inWindow (window : Window) (rows : List (Option String × Option String × ℕ)) :
    List (Option String × Option String × ℕ) :=
  rows.filter fun r => window.minHops ≤ r.2.2 ∧ r.2.2 ≤ window.maxHops

/-- **`_vl_result`**: the columns `src`, `dst` and `depth`. -/
def vlResult (q : VarLength) (fuel : ℕ) : Option (List (Option String × Option String × ℕ)) :=
  (vlRows T (q.seeds.map some) q.window.maxHops q.direction q.edgeType fuel).map fun rows =>
    inWindow q.window (vlMin rows)

/-- The row that `project` makes of a pair of nodes. -/
def projectRow {ν V : Type} (col : ν → String → V) (items : List Item) (a b : ν) : List (String × V) :=
  items.map fun i => (i.outAlias, match i.endpoint with
    | .a => col a i.col
    | .b => col b i.col)

/-- **`_vm_result`**: the anchor is the whole node table, and both ends join it again. -/
def vmResult {ν V : Type} (N : NodeTable ν) (col : ν → String → V) (q : VarMatch) (fuel : ℕ) :
    Option (List (List (String × V))) :=
  (vlRows T (N.rows.map N.id) q.window.maxHops q.direction q.edgeType fuel).map fun rows =>
    (inWindow q.window (vlMin rows)).flatMap fun m =>
      (N.rows.filter fun a => sqlEq m.1 (N.id a)).flatMap fun a =>
        (N.rows.filter fun b => sqlEq m.2.1 (N.id b)).map fun b => projectRow col q.items a b

/-- `_sp`: the walks from the source. -/
def spRows (q : ShortestPath) (fuel : ℕ) : Option (List (Unit × Option String × ℕ)) :=
  unionAll (hopRows (hops T q.direction none) (fun _ _ => ()) q.maxHops) fuel
    ([((), some q.source)].map fun a => (a.1, a.2, 0))

/-- `_sp_hits`: the depths at which the target was met. -/
def spHits (q : ShortestPath) (rows : List (Unit × Option String × ℕ)) : List ℕ :=
  (rows.filter fun r => sqlEq r.2.1 (some q.target)).map fun r => r.2.2

/-- **`_sp_result`**: the one row `MIN(depth)`, `COUNT(*) > 0`. -/
def spResult (q : ShortestPath) (fuel : ℕ) : Option (List (Option ℕ × Bool)) :=
  (spRows T q fuel).map fun rows => [((spHits q rows).min?, decide (0 < (spHits q rows).length))]

end Results

section Nearest

variable {ε : Type} (T : EdgeTable ε)

def HopRel (direction : GraphDirection) (edgeType : Option String) (v w : Option String) : Prop :=
  w ∈ hops T direction edgeType v

variable {T}

theorem hopRel_iff {direction : GraphDirection} {edgeType v w : Option String} :
    HopRel T direction edgeType v w ↔ ∃ e ∈ T.rows, joinCond T direction e v = true ∧
      typeFilter T edgeType e = true ∧ nextNode T direction e v = w := by
  simp only [HopRel, hops, mem_map, mem_filter, Bool.and_eq_true]
  exact ⟨fun ⟨e, ⟨he, hj, ht⟩, hn⟩ => ⟨e, he, hj, ht, hn⟩, fun ⟨e, he, hj, ht, hn⟩ => ⟨e, ⟨he, hj, ht⟩, hn⟩⟩

theorem exists_vlRows {maxHops fuel : ℕ} (hfuel : maxHops < fuel) (seeds : List (Option String))
    (direction : GraphDirection) (edgeType : Option String) :
    ∃ rows, vlRows T seeds maxHops direction edgeType fuel = some rows ∧ ∀ o v d, (o, v, d) ∈ rows ↔
        o ∈ seeds ∧ d ≤ maxHops ∧ Walk (HopRel T direction edgeType) o d v := by
  obtain ⟨rows, hrows, hmem⟩ := exists_walks (hops T direction edgeType)
    (fun origin _ => origin) hfuel (seeds.map fun s => (s, s))
  refine ⟨rows, hrows, fun o v d => ?_⟩
  rw [hmem]
  simp only [mem_map]
  constructor
  · rintro ⟨hd, _, ⟨s, hs, rfl⟩, hw⟩
    obtain ⟨rfl, hw⟩ := walk_fst_iff.1 hw
    exact ⟨hs, hd, hw⟩
  · rintro ⟨ho, hd, hw⟩
    exact ⟨hd, _, ⟨o, ho, rfl⟩, walk_fst_iff.2 ⟨rfl, hw⟩⟩

theorem nodup_vlMin (rows : List (Option String × Option String × ℕ)) : (vlMin rows).Nodup := by
  refine List.Nodup.map ?_ (List.Nodup.of_map Prod.fst (nodup_keys_minPer _ _ rows))
  rintro ⟨⟨o, v⟩, d⟩ ⟨⟨o', v'⟩, d'⟩ h
  simpa [and_assoc] using h

theorem mem_vlMin_iff {rows : List (Option String × Option String × ℕ)} {o v : Option String}
    {d : ℕ} : (o, v, d) ∈ vlMin rows ↔ (o, v, d) ∈ rows ∧ ∀ n, (o, v, n) ∈ rows → d ≤ n := by
  have h : (o, v, d) ∈ vlMin rows ↔
      ((o, v), d) ∈ minPer (fun r : Option String × Option String × ℕ => (r.1, r.2.1)) (fun r => r.2.2) rows := by
    simp only [vlMin, mem_map, Prod.mk.injEq]
    constructor
    · rintro ⟨⟨⟨o', v'⟩, d'⟩, hg, rfl, rfl, rfl⟩
      exact hg
    · exact fun hg => ⟨_, hg, rfl, rfl, rfl⟩
  rw [h, mem_minPer_iff]
  constructor
  · rintro ⟨⟨⟨o', v', d'⟩, hr, heq, rfl⟩, hmin⟩
    simp only [Prod.mk.injEq] at heq
    obtain ⟨rfl, rfl⟩ := heq
    exact ⟨hr, fun n hn => hmin (o', v', n) hn rfl⟩
  · rintro ⟨hr, hmin⟩
    refine ⟨⟨_, hr, rfl, rfl⟩, ?_⟩
    rintro ⟨o', v', n⟩ hn heq
    simp only [Prod.mk.injEq] at heq
    obtain ⟨rfl, rfl⟩ := heq
    exact hmin n hn

/-- **The recursion ends, and the `MIN` over it is the distance.**  A shortest walk within the bound
is among the walks enumerated, and no walk is shorter. -/
theorem exists_nearest {maxHops fuel : ℕ} (hfuel : maxHops < fuel) (seeds : List (Option String))
    (direction : GraphDirection) (edgeType : Option String) :
    ∃ rows, vlRows T seeds maxHops direction edgeType fuel = some rows ∧ ∀ o v d, (o, v, d) ∈ vlMin rows ↔
        o ∈ seeds ∧ d ≤ maxHops ∧ IsDist (HopRel T direction edgeType) o v d := by
  obtain ⟨rows, hrows, hmem⟩ := exists_vlRows (T := T) hfuel seeds direction edgeType
  refine ⟨rows, hrows, fun o v d => ?_⟩
  simp only [mem_vlMin_iff, hmem]
  constructor
  · rintro ⟨⟨ho, hd, hw⟩, hmin⟩
    refine ⟨ho, hd, hw, fun n hn => ?_⟩
    by_cases hle : n ≤ maxHops
    · exact hmin n ⟨ho, hle, hn⟩
    · omega
  · rintro ⟨ho, hd, hw, hmin⟩
    exact ⟨⟨ho, hd, hw⟩, fun n hn => hmin n hn.2.2⟩

theorem mem_inWindow_iff {window : Window} {rows : List (Option String × Option String × ℕ)}
    {r : Option String × Option String × ℕ} :
    r ∈ inWindow window rows ↔ r ∈ rows ∧ window.minHops ≤ r.2.2 ∧ r.2.2 ≤ window.maxHops := by
  simp [inWindow]

end Nearest

/-! ### The edge list of the engine -/

def GraphDirection.topo : GraphDirection → GraphTopo.Direction
  | .forward => .fwd
  | .backward => .back
  | .both => .both

def ofEdges (edges : List GraphTopo.EdgeRow) : EdgeTable GraphTopo.EdgeRow where
  rows := edges
  src e := some e.1
  dst e := some e.2.1
  etype e := some e.2.2

section Engine

open GraphTopo

variable {nodes : List String} {edges : List EdgeRow}

variable {edgeType : Option String}

theorem typeFilter_ofEdges {e : EdgeRow} :
    typeFilter (ofEdges edges) edgeType e = true ↔ ∀ t, edgeType = some t → e.2.2 = t := by
  cases edgeType with
  | none => simp [typeFilter]
  | some t => simp [typeFilter, ofEdges]

variable {direction : GraphDirection}

theorem hopRel_ofEdges (hends : ∀ e ∈ edges, e.1 ∈ nodes ∧ e.2.1 ∈ nodes) {v : String}
    {w : Option String} :
    HopRel (ofEdges edges) direction edgeType (some v) w ↔
      ∃ w', w = some w' ∧ edgeRel nodes edges direction.topo edgeType v w' := by
  simp only [hopRel_iff, typeFilter_ofEdges, edgeRel]
  constructor
  · rintro ⟨e, he, hj, ht, rfl⟩
    obtain ⟨h₁, h₂⟩ := hends e he
    cases direction with
    | forward =>
      obtain rfl : e.1 = v := by simpa [joinCond, ofEdges] using hj
      exact ⟨e.2.1, rfl, e, he, h₁, h₂, ht, Or.inl ⟨by simp [GraphDirection.topo], rfl, rfl⟩⟩
    | backward =>
      obtain rfl : e.2.1 = v := by simpa [joinCond, ofEdges] using hj
      exact ⟨e.1, rfl, e, he, h₁, h₂, ht, Or.inr ⟨by simp [GraphDirection.topo], rfl, rfl⟩⟩
    | both =>
      by_cases hsrc : e.1 = v
      · refine ⟨e.2.1, by simp [nextNode, ofEdges, hsrc], e, he, h₁, h₂, ht, Or.inl ⟨?_, hsrc, rfl⟩⟩
        simp [GraphDirection.topo]
      · obtain hdst : e.2.1 = v := by simpa [joinCond, ofEdges, hsrc] using hj
        refine ⟨e.1, by simp [nextNode, ofEdges, hsrc], e, he, h₁, h₂, ht, Or.inr ⟨?_, hdst, rfl⟩⟩
        simp [GraphDirection.topo]
  · rintro ⟨w', rfl, e, he, -, -, ht, hjoin⟩
    refine ⟨e, he, ?_, ht, ?_⟩
    · cases direction <;> simp_all [joinCond, ofEdges, GraphDirection.topo]
      tauto
    · cases direction with
      | forward | backward => simp_all [nextNode, ofEdges, GraphDirection.topo]
      | both =>
        by_cases hsrc : e.1 = v
        · rcases hjoin with ⟨-, -, rfl⟩ | ⟨-, hv, rfl⟩
          · simp [nextNode, ofEdges, hsrc]
          · simp [nextNode, ofEdges, hsrc, hv]
        · rcases hjoin with ⟨-, hv, -⟩ | ⟨-, -, rfl⟩
          · exact absurd hv hsrc
          · simp [nextNode, ofEdges, hsrc]

theorem walk_ofEdges (hends : ∀ e ∈ edges, e.1 ∈ nodes ∧ e.2.1 ∈ nodes) {s : String} {n : ℕ}
    {v : Option String} :
    Walk (HopRel (ofEdges edges) direction edgeType) (some s) n v ↔
      ∃ v', v = some v' ∧ Walk (edgeRel nodes edges direction.topo edgeType) s n v' := by
  constructor
  · intro h
    induction h with
    | nil => exact ⟨s, rfl, Walk.nil⟩
    | snoc _ hr ih =>
      obtain ⟨u, rfl, hw⟩ := ih
      obtain ⟨w, rfl, he⟩ := (hopRel_ofEdges hends).1 hr
      exact ⟨w, rfl, hw.snoc he⟩
  · rintro ⟨v, rfl, h⟩
    induction h with
    | nil => exact Walk.nil
    | snoc _ he ih => exact ih.snoc ((hopRel_ofEdges hends).2 ⟨_, rfl, he⟩)

theorem isDist_ofEdges (hends : ∀ e ∈ edges, e.1 ∈ nodes ∧ e.2.1 ∈ nodes) {s : String}
    {v : Option String} {d : ℕ} :
    IsDist (HopRel (ofEdges edges) direction edgeType) (some s) v d ↔
      ∃ v', v = some v' ∧ IsDist (edgeRel nodes edges direction.topo edgeType) s v' d := by
  simp only [IsDist, walk_ofEdges hends]
  constructor
  · rintro ⟨⟨v', rfl, hw⟩, hmin⟩
    exact ⟨v', rfl, hw, fun n hn => hmin n ⟨v', rfl, hn⟩⟩
  · rintro ⟨v', rfl, hw, hmin⟩
    refine ⟨⟨v', rfl, hw⟩, ?_⟩
    rintro n ⟨_, heq, hn⟩
    obtain rfl := Option.some_inj.1 heq
    exact hmin n hn

theorem exists_vlWindow (hends : ∀ e ∈ edges, e.1 ∈ nodes ∧ e.2.1 ∈ nodes) (seeds : List String)
    (window : Window) (direction : GraphDirection) (edgeType : Option String) {fuel : ℕ}
    (hfuel : window.maxHops < fuel) :
    ∃ rows, vlRows (ofEdges edges) (seeds.map some) window.maxHops direction edgeType fuel = some rows ∧
      (inWindow window (vlMin rows)).Nodup ∧ ∀ s v d, (s, v, d) ∈ inWindow window (vlMin rows) ↔
        ∃ s' v', s = some s' ∧ v = some v' ∧ s' ∈ seeds ∧ window.minHops ≤ d ∧
          d ≤ window.maxHops ∧ IsDist (edgeRel nodes edges direction.topo edgeType) s' v' d := by
  obtain ⟨rows, hrows, hmem⟩ := exists_nearest (T := ofEdges edges) hfuel (seeds.map some) direction edgeType
  refine ⟨rows, hrows, (nodup_vlMin rows).filter _, fun s v d => ?_⟩
  rw [mem_inWindow_iff, hmem]
  simp only [mem_map]
  constructor
  · rintro ⟨⟨⟨s', hs, rfl⟩, -, hdist⟩, hlo, hhi⟩
    obtain ⟨v', rfl, hdist'⟩ := (isDist_ofEdges hends).1 hdist
    exact ⟨s', v', rfl, rfl, hs, hlo, hhi, hdist'⟩
  · rintro ⟨s', v', rfl, rfl, hs, hlo, hhi, hdist⟩
    exact ⟨⟨⟨s', hs, rfl⟩, hhi, (isDist_ofEdges hends).2 ⟨v', rfl, hdist⟩⟩, hlo, hhi⟩

def nullable (p : String × String × ℕ) : Option String × Option String × ℕ := (some p.1, some p.2.1, p.2.2)

theorem nullable_injective : Function.Injective nullable := by
  rintro ⟨s, v, d⟩ ⟨s', v', d'⟩ h
  simpa [nullable] using h

theorem exists_varLength (h : WithinCeiling nodes edges)
    (hends : ∀ e ∈ edges, e.1 ∈ nodes ∧ e.2.1 ∈ nodes) {seeds : List String}
    (hseeds : ∀ s ∈ seeds, s ∈ nodes) (window : Window) (direction : GraphDirection)
    (edgeType : Option String) {fuel : ℕ} (hfuel : window.maxHops < fuel) :
    ∃ rows, vlRows (ofEdges edges) (seeds.map some) window.maxHops direction edgeType fuel = some rows ∧
      (inWindow window (vlMin rows) : Multiset _) =
        ((CsrGraph.build nodes edges).varLength seeds window.minHops window.maxHops
          direction.topo edgeType).val.map nullable := by
  obtain ⟨rows, hrows, hnd, hmem⟩ := exists_vlWindow hends seeds window direction edgeType hfuel
  refine ⟨rows, hrows, ?_⟩
  refine (Multiset.Nodup.ext (Multiset.coe_nodup.2 hnd)
    ((Multiset.nodup_map_iff_of_injective nullable_injective).2 (Finset.nodup _))).2 ?_
  rintro ⟨s, v, d⟩
  rw [Multiset.mem_coe, hmem]
  simp only [Multiset.mem_map, Finset.mem_val, CsrGraph.varLength, Finset.mem_filter, nullable, Prod.mk.injEq]
  constructor
  · rintro ⟨s', v', rfl, rfl, hs, hlo, hhi, hdist⟩
    exact ⟨(s', v', d), ⟨(mem_kHop_build_iff h _ _ _ _ _ _ _).2 ⟨hs, hseeds s' hs, hhi, hdist⟩, hlo⟩, rfl, rfl, rfl⟩
  · rintro ⟨⟨s', v', d'⟩, ⟨hk, hlo⟩, rfl, rfl, rfl⟩
    obtain ⟨hs, -, hhi, hdist⟩ := (mem_kHop_build_iff h _ _ _ _ _ _ _).1 hk
    exact ⟨s', v', rfl, rfl, hs, hlo, hhi, hdist⟩

theorem filter_id_eq {ν : Type} {N : NodeTable ν} {node : String → ν} (hnd : nodes.Nodup)
    (hrows : N.rows = nodes.map node) (hid : ∀ x ∈ nodes, N.id (node x) = some x) {x : String}
    (hx : x ∈ nodes) : (N.rows.filter fun a => sqlEq (some x) (N.id a)) = [node x] := by
  rw [hrows, filter_map]
  have h : nodes.filter ((fun a => sqlEq (some x) (N.id a)) ∘ node) = nodes.filter (· = x) := by
    refine filter_congr fun y hy => ?_
    simp [Function.comp_apply, hid y hy, sqlEq, eq_comm]
  rw [h, filter_eq, count_eq_one_of_mem hnd hx]
  rfl

theorem mem_nodes_of_isDist {dir : Direction} {etype : Option String} {s v : String} {d : ℕ}
    (hs : s ∈ nodes) (h : IsDist (edgeRel nodes edges dir etype) s v d) : v ∈ nodes := by
  cases h.1 with
  | nil => exact hs
  | snoc _ hr =>
    obtain ⟨e, -, h₁, h₂, -, ⟨-, -, rfl⟩ | ⟨-, -, rfl⟩⟩ := hr
    · exact h₂
    · exact h₁

theorem exists_spResult (hends : ∀ e ∈ edges, e.1 ∈ nodes ∧ e.2.1 ∈ nodes) (q : ShortestPath)
    {fuel : ℕ} (hfuel : q.maxHops < fuel) :
    ∃ depth found, spResult (ofEdges edges) q fuel = some [(depth, found)] ∧
      (found = depth.isSome) ∧ ∀ d, depth = some d ↔ d ≤ q.maxHops ∧
        IsDist (edgeRel nodes edges q.direction.topo none) q.source q.target d := by
  obtain ⟨rows, hrows, hmem⟩ := exists_walks (hops (ofEdges edges) q.direction none)
    (fun _ _ => ()) hfuel [((), some q.source)]
  have hhits : ∀ d, d ∈ spHits q rows ↔ d ≤ q.maxHops ∧
      Walk (edgeRel nodes edges q.direction.topo none) q.source d q.target := by
    intro d
    simp only [spHits, mem_map, mem_filter]
    constructor
    · rintro ⟨⟨⟨⟩, v, d'⟩, ⟨hr, heq⟩, rfl⟩
      obtain ⟨hd, a, ha, hw⟩ := (hmem _ _ _).1 hr
      obtain rfl := mem_singleton.1 ha
      have hw' : Walk (HopRel (ofEdges edges) q.direction none) (some q.source) d' v :=
        (walk_fst_iff.1 (Walk.mono (fun x y hxy => ⟨hxy.1, rfl⟩) hw)).2
      obtain ⟨v', rfl, hv⟩ := (walk_ofEdges hends).1 hw'
      obtain rfl : v' = q.target := by simpa using heq
      exact ⟨hd, hv⟩
    · rintro ⟨hd, hw⟩
      have hw' : Walk (HopRel (ofEdges edges) q.direction none) (some q.source) d (some q.target) :=
        (walk_ofEdges hends).2 ⟨_, rfl, hw⟩
      refine ⟨((), some q.target, d), ⟨(hmem _ _ _).2 ⟨hd, _, mem_singleton_self _, ?_⟩, ?_⟩, rfl⟩
      · exact Walk.mono (fun x y hxy => ⟨hxy.1, rfl⟩) (walk_fst_iff.2 ⟨rfl, hw'⟩)
      · simp
  have hresult : spResult (ofEdges edges) q fuel =
      some [((spHits q rows).min?, decide (0 < (spHits q rows).length))] := by
    rw [spResult, spRows, hrows, Option.map_some]
  refine ⟨_, _, hresult, ?_, fun d => ?_⟩
  · cases spHits q rows with
    | nil => rfl
    | cons d l => simp
  · rw [min?_eq_some_iff, hhits]
    constructor
    · rintro ⟨⟨hd, hw⟩, hmin⟩
      refine ⟨hd, hw, fun n hn => ?_⟩
      by_cases hle : n ≤ q.maxHops
      · exact hmin n ((hhits n).2 ⟨hle, hn⟩)
      · omega
    · rintro ⟨hd, hw, hmin⟩
      exact ⟨⟨hd, hw⟩, fun n hn => hmin n ((hhits n).1 hn).2⟩

end Engine

section Agreement

open GraphTopo

/-- The row that `graph-shortest-path` returns for the engine's answer. -/
def shortestRow (maxHops : ℕ) : Option ℕ → Option ℕ × Bool
  | some d => if d ≤ maxHops then (some d, true) else (none, false)
  | none => (none, false)

/-- **The operators agree with the engine** on every graph within the `u32` ceiling, whose edges join
nodes: `graph-var-length` returns the triples of `var_length`, `graph-var-match` the pairs of nodes
that it joins with every node as a seed, and `graph-shortest-path` the length that
`shortest_path_len` gives, if it is within `max-hops`.  Fuel beyond `max-hops` is enough, so the
recursion ends. -/
theorem operators_agree {nodes : List String} {edges : List EdgeRow} (hnd : nodes.Nodup)
    (hends : ∀ e ∈ edges, e.1 ∈ nodes ∧ e.2.1 ∈ nodes) (h : WithinCeiling nodes edges) :
    (∀ q : VarLength, (∀ s ∈ q.seeds, s ∈ nodes) → ∀ fuel, q.window.maxHops < fuel →
      ∃ rows, vlResult (ofEdges edges) q fuel = some rows ∧ (rows : Multiset _) =
          ((CsrGraph.build nodes edges).varLength q.seeds q.window.minHops q.window.maxHops
            q.direction.topo q.edgeType).val.map nullable) ∧
    (∀ (ν V : Type) (N : NodeTable ν) (node : String → ν) (col : ν → String → V) (q : VarMatch),
      N.rows = nodes.map node → (∀ x ∈ nodes, N.id (node x) = some x) →
      ∀ fuel, q.window.maxHops < fuel →
      ∃ rows, vmResult (ofEdges edges) N col q fuel = some rows ∧ (rows : Multiset _) =
          ((CsrGraph.build nodes edges).varLength nodes q.window.minHops q.window.maxHops
            q.direction.topo q.edgeType).val.map fun p =>
              projectRow col q.items (node p.1) (node p.2.1)) ∧
    ∀ q : ShortestPath, q.source ∈ nodes → ∀ fuel, q.maxHops < fuel → spResult (ofEdges edges) q fuel =
        some [shortestRow q.maxHops ((CsrGraph.build nodes edges).shortestPathLen q.source q.target
          q.direction.topo none)] := by
  refine ⟨fun q hseeds fuel hfuel => ?_, fun ν V N node col q hrows hid fuel hfuel => ?_,
    fun q hsource fuel hfuel => ?_⟩
  · obtain ⟨rows, hrows, heq⟩ := exists_varLength h hends hseeds q.window q.direction q.edgeType hfuel
    exact ⟨_, by rw [vlResult, hrows, Option.map_some], heq⟩
  · have hseeds : N.rows.map N.id = nodes.map some := by
      rw [hrows, map_map]
      exact map_congr_left hid
    obtain ⟨rows, hvl, heq⟩ := exists_varLength h hends (fun s hs => hs) q.window q.direction q.edgeType hfuel
    refine ⟨_, by rw [vmResult, hseeds, hvl, Option.map_some], ?_⟩
    rw [← Multiset.coe_bind, heq, Multiset.bind_map, ← Multiset.bind_singleton]
    refine Multiset.bind_congr ?_
    rintro ⟨s, v, d⟩ hp
    obtain ⟨hs, -, -, hdist⟩ := (mem_kHop_build_iff h _ _ _ _ _ _ _).1 (Finset.mem_filter.1 hp).1
    simp only [nullable]
    rw [filter_id_eq hnd hrows hid hs, filter_id_eq hnd hrows hid (mem_nodes_of_isDist hs hdist)]
    rfl
  · obtain ⟨depth, found, hsp, hfound, hdepth⟩ := exists_spResult hends q hfuel
    rw [hsp]
    have hlen : ∀ d, (CsrGraph.build nodes edges).shortestPathLen q.source q.target
        q.direction.topo none = some d ↔ IsDist (edgeRel nodes edges q.direction.topo none) q.source q.target d := by
      intro d
      rw [shortestPathLen_build_iff h]
      exact and_iff_right hsource
    cases hs : (CsrGraph.build nodes edges).shortestPathLen q.source q.target q.direction.topo none with
    | none =>
      have hnone : depth = none := by
        rw [Option.eq_none_iff_forall_ne_some]
        intro d hd
        have := (hlen d).2 ((hdepth d).1 hd).2
        simp [hs] at this
      subst hnone
      simp [shortestRow, hfound]
    | some d =>
      have hdist := (hlen d).1 hs
      by_cases hd : d ≤ q.maxHops
      · have hsome : depth = some d := (hdepth d).2 ⟨hd, hdist⟩
        subst hsome
        simp [shortestRow, hfound, hd]
      · have hnone : depth = none := by
          rw [Option.eq_none_iff_forall_ne_some]
          intro d' hd'
          obtain ⟨hle, hdist'⟩ := (hdepth d').1 hd'
          have := hdist.unique hdist'
          omega
        subst hnone
        simp [shortestRow, hfound, hd]

/-- A triangle with a self-loop and a parallel edge, walked both ways. -/
theorem operators_agree_triangle : (["a", "b", "c"] : List String).Nodup ∧
      (∀ e ∈ [("a", "b", "t"), ("b", "c", "t"), ("c", "a", "u"), ("a", "a", "t"), ("a", "b", "t")],
        e.1 ∈ ["a", "b", "c"] ∧ e.2.1 ∈ ["a", "b", "c"]) ∧ WithinCeiling ["a", "b", "c"]
        [("a", "b", "t"), ("b", "c", "t"), ("c", "a", "u"), ("a", "a", "t"), ("a", "b", "t")] ∧ spResult (ofEdges
          [("a", "b", "t"), ("b", "c", "t"), ("c", "a", "u"), ("a", "a", "t"), ("a", "b", "t")])
          ⟨"a", "c", 2, .both⟩ 3 = some [shortestRow 2 (CsrGraph.shortestPathLen (CsrGraph.build ["a", "b", "c"]
          [("a", "b", "t"), ("b", "c", "t"), ("c", "a", "u"), ("a", "a", "t"), ("a", "b", "t")])
          "a" "c" .both none)] := by
  have hnd : (["a", "b", "c"] : List String).Nodup := by decide
  have hends : ∀ e ∈ [("a", "b", "t"), ("b", "c", "t"), ("c", "a", "u"), ("a", "a", "t"),
      ("a", "b", "t")], e.1 ∈ ["a", "b", "c"] ∧ e.2.1 ∈ ["a", "b", "c"] := by decide
  have h : WithinCeiling ["a", "b", "c"]
      [("a", "b", "t"), ("b", "c", "t"), ("c", "a", "u"), ("a", "a", "t"), ("a", "b", "t")] := by
    constructor <;> decide
  exact ⟨hnd, hends, h, (operators_agree hnd hends h).2.2 ⟨"a", "c", 2, .both⟩ (by decide) 3
    (by decide)⟩

/-- **Beyond the ceiling they disagree**: the last of `2 ^ 32 + 1` nodes shares the ordinal of the
first one, so the engine reports a pair that the recursion does not find. -/
theorem operators_disagree : ∃ rows, vlResult (ofEdges [(wideName 0, wideName 1, "t")])
        ⟨[wideName (2 ^ 32)], ⟨1, 1, le_rfl, le_rfl⟩, .forward, none⟩ 2 = some rows ∧ (rows : Multiset _) ≠
        ((CsrGraph.build (wideNodes (2 ^ 32 + 1)) [(wideName 0, wideName 1, "t")]).varLength
          [wideName (2 ^ 32)] 1 1 .fwd none).val.map nullable := by
  have hzero : asU32 (2 ^ 32) = 0 := by norm_num [asU32]
  have hpos : 0 < 2 ^ 32 := by norm_num
  -- from here on only these two facts about `2 ^ 32` are used
  generalize 2 ^ 32 = m at hzero hpos ⊢
  have hnode : ∀ i < m + 1, wideName i ∈ wideNodes (m + 1) := fun i hi => mem_of_getElem? (getElem?_wideNodes hi)
  have hends : ∀ e ∈ [(wideName 0, wideName 1, "t")],
      e.1 ∈ wideNodes (m + 1) ∧ e.2.1 ∈ wideNodes (m + 1) := by
    intro e he
    obtain rfl := mem_singleton.1 he
    exact ⟨hnode 0 (by omega), hnode 1 (by omega)⟩
  obtain ⟨rows, hrows, -, hmem⟩ := exists_vlWindow hends [wideName m] ⟨1, 1, le_rfl, le_rfl⟩
    .forward none (Nat.lt_succ_self 1)
  refine ⟨_, by rw [vlResult]; exact congrArg (Option.map _) hrows, fun heq => ?_⟩
  have hk : (wideName m, wideName 1, 1) ∈
      (CsrGraph.build (wideNodes (m + 1)) [(wideName 0, wideName 1, "t")]).varLength [wideName m] 1 1
        .fwd none :=
    Finset.mem_filter.2 ⟨kHop_of_ordinal_zero (by omega) (by omega) hzero, le_rfl⟩
  have hin : nullable (wideName m, wideName 1, 1) ∈
      (inWindow ⟨1, 1, le_rfl, le_rfl⟩ (vlMin rows) : Multiset _) := by
    rw [heq]
    rw [Multiset.mem_map]
    refine ⟨(wideName m, wideName 1, 1), ?_, rfl⟩
    rw [Finset.mem_val]
    exact hk
  obtain ⟨s', v', hs, hv, -, -, -, hdist⟩ := (hmem _ _ _).1 (Multiset.mem_coe.1 hin)
  obtain rfl := Option.some_inj.1 hs
  obtain rfl := Option.some_inj.1 hv
  exact not_isDist_of_ne_zero (by omega) hdist

end Agreement

end KqlGraph
