/-
**Topologies of stored graphs, and the tables that they are of.**

A shallow subgraph is found hop by hop.  For a deep one the nodes and edges are counted: a large
graph is looked up in the snapshot that a scheduler has stored for its edge table, or is walked hop
by hop; for a small one a topology is taken from a cache of the process, if it was built under the
same counts, or is built from a scan of the edges.
-/

import Pensieve.Runs
import Pensieve.SubgraphPaths

namespace StoredGraph

open Function
open List
open Bfs (Walk)
open Catalog (TenantId)
open GraphTopo (CsrGraph EdgeRow)
open Tenancy (defaultTenant)

/-! ### The cache of topologies -/

structure TopoKey where
  database : String
  nodeTable : String
  edgeTable : String
  deriving DecidableEq

def keyOf (c : StoredGraphConfig) : TopoKey := ⟨c.database, c.nodeTable, c.edgeTable⟩

structure TopoSnapshot where
  fingerprint : ℕ × ℕ
  csr : CsrGraph
  edges : List EdgeRow

structure TopoCache where
  map : TopoKey → Option TopoSnapshot
  lru : List TopoKey

def maxTopologies : ℕ := 4

namespace TopoCache

def empty : TopoCache := ⟨fun _ => none, []⟩

def withoutKey (lru : List TopoKey) (key : TopoKey) : List TopoKey := lru.filter (· ≠ key)

def get (c : TopoCache) (key : TopoKey) (fingerprint : ℕ × ℕ) : Option TopoSnapshot × TopoCache :=
  match c.map key with
  | none => (none, c)
  | some snap =>
    if snap.fingerprint ≠ fingerprint then (none, ⟨Function.update c.map key none, withoutKey c.lru key⟩)
    else (some snap, { c with lru := withoutKey c.lru key ++ [key] })

def evict (map : TopoKey → Option TopoSnapshot) : List TopoKey → TopoCache
  | [] => ⟨map, []⟩
  | victim :: lru =>
    if (victim :: lru).length > maxTopologies then evict (Function.update map victim none) lru else ⟨map, victim :: lru⟩

def put (c : TopoCache) (key : TopoKey) (snap : TopoSnapshot) : TopoCache :=
  evict (Function.update c.map key (some snap)) (withoutKey c.lru key ++ [key])

variable {snap : TopoSnapshot}

theorem update_none {map : TopoKey → Option TopoSnapshot} {key k : TopoKey}
    (h : Function.update map key none k = some snap) : map k = some snap := by
  by_cases hk : k = key
  · rw [hk, update_self] at h
    cases h
  · rwa [update_of_ne hk] at h

theorem evict_le (map : TopoKey → Option TopoSnapshot) (lru : List TopoKey) {key : TopoKey}
    (h : (evict map lru).map key = some snap) : map key = some snap := by
  induction lru generalizing map with
  | nil => exact h
  | cons victim lru ih =>
    unfold evict at h
    split at h
    · exact update_none (ih _ h)
    · exact h

theorem get_le (c : TopoCache) (key : TopoKey) (fingerprint : ℕ × ℕ) {k : TopoKey}
    (h : (c.get key fingerprint).2.map k = some snap) : c.map k = some snap := by
  unfold get at h
  split at h
  · exact h
  · split at h
    · exact update_none h
    · exact h

theorem get_eq_some {c c' : TopoCache} {key : TopoKey} {fingerprint : ℕ × ℕ}
    (h : c.get key fingerprint = (some snap, c')) : c.map key = some snap ∧ snap.fingerprint = fingerprint := by
  unfold get at h
  split at h
  · cases h
  · rename_i snap' hsnap
    split at h
    · cases h
    · rename_i hfingerprint
      cases h
      exact ⟨hsnap, not_not.1 hfingerprint⟩

theorem put_le (c : TopoCache) (key : TopoKey) (snap : TopoSnapshot) {k : TopoKey} {snap' : TopoSnapshot}
    (h : (c.put key snap).map k = some snap') : (k = key ∧ snap' = snap) ∨ c.map k = some snap' := by
  have hk := evict_le _ _ h
  by_cases heq : k = key
  · rw [heq, update_self] at hk
    exact .inl ⟨heq, (Option.some.inj hk).symm⟩
  · rw [update_of_ne heq] at hk
    exact .inr hk

end TopoCache

/-! ### Subgraphs, step by step -/

/-- A call of `subgraph` that goes on to scan the edges, with the counts that it has read. -/
structure Pending where
  tenant : TenantId
  config : StoredGraphConfig
  id : String
  depth : ℕ
  fingerprint : ℕ × ℕ

/-- An answer: to which tenant's request, in which tables, whether a query had more rows than its limit, and the edges of the
cached topology that was used. -/
structure Answer where
  tenant : TenantId
  config : StoredGraphConfig
  id : String
  depth : ℕ
  tables : Tables
  payload : GraphPayload
  limited : Bool
  topology : Option (List EdgeRow)

structure World where
  tables : Tables
  graphs : List StoredGraphConfig
  cache : TopoCache
  store : String → Option CsrGraph
  pending : ℕ → Option Pending
  answers : List Answer

def World.init : World := ⟨⟨fun _ _ _ => []⟩, [], .empty, fun _ => none, fun _ => none, []⟩

inductive Action
  | change (t : Tables) (graphs : List StoredGraphConfig)
  /-- `build_and_store_snapshot` -/
  | snapshot (c : StoredGraphConfig)
  | call (i : ℕ) (tenant : TenantId) (c : StoredGraphConfig) (id : String) (depth : ℕ)
  | finish (i : ℕ)
  | fail (i : ℕ)

def snapshotPath (database graph : String) : String := "graphs/" ++ database ++ "/" ++ graph ++ "/topo.csr"

/-- `edge_sample_sql` -/
def edgeSample (t : Tables) (c : StoredGraphConfig) (limit : ℕ) : List EdgeRow :=
  ((edgeSource t defaultTenant c).take limit).map rowToEdge

/-- `(node_count, edge_count)` -/
def counts (t : Tables) (c : StoredGraphConfig) : ℕ × ℕ :=
  ((nodeSource t defaultTenant c).length, (edgeSource t defaultTenant c).length)

def csrSubgraph (t : Tables) (c : StoredGraphConfig) (snap : TopoSnapshot) (id : String) (depth : ℕ) : GraphPayload :=
  let reached := reachedBy snap.csr id depth
  ⟨materialize t defaultTenant c reached, induced reached snap.edges⟩

def snapshotSubgraph (t : Tables) (c : StoredGraphConfig) (csr : CsrGraph) (id : String) (depth cap : ℕ) : GraphPayload :=
  let reached := reachedBy csr id depth
  let rows := (touching reached (edgeSource t defaultTenant c)).take cap
  ⟨materialize t defaultTenant c reached, induced reached (rows.map rowToEdge)⟩

def World.reply (w : World) (tenant : TenantId) (c : StoredGraphConfig) (id : String) (depth : ℕ) (payload : GraphPayload)
    (limited : Bool) (topology : Option (List EdgeRow)) : World :=
  { w with answers := ⟨tenant, c, id, depth, w.tables, payload, limited, topology⟩ :: w.answers }

def World.replyPerHop (w : World) (tenant : TenantId) (c : StoredGraphConfig) (id : String) (depth : ℕ) : World :=
  w.reply tenant c id depth (subgraphPerHop w.tables defaultTenant c id depth)
    (hopsFrom (edgeSource w.tables defaultTenant c) id depth).limited none

/-- **One step**, for a value of `topo_max_edges`. -/
def step (cap : ℕ) (w : World) : Action → Option World
  | .change t graphs =>
    some
      { w with
        tables := t
        graphs := graphs }
  | .snapshot c =>
    let path := snapshotPath c.database c.edgeTable
    some { w with store := Function.update w.store path (some (csrOf (edgeSample w.tables c (cap + 1)))) }
  | .call i tenant c id depth =>
    if (w.pending i).isSome ∨ c ∉ w.graphs then none
    else if depth ≤ 2 then some (w.replyPerHop tenant c id depth)
    else
      let fingerprint := counts w.tables c
      if fingerprint.2 > cap then
        match w.store (snapshotPath c.database c.edgeTable) with
        | some csr => some (w.reply tenant c id depth (snapshotSubgraph w.tables c csr id depth cap) false none)
        | none => some (w.replyPerHop tenant c id depth)
      else
        match w.cache.get (keyOf c) fingerprint with
        | (some snap, cache) =>
          let w' := { w with cache := cache }
          some (w'.reply tenant c id depth (csrSubgraph w.tables c snap id depth) false (some snap.edges))
        | (none, cache) =>
          let p : Pending := ⟨tenant, c, id, depth, fingerprint⟩
          some
            { w with
              cache := cache
              pending := Function.update w.pending i (some p) }
  | .finish i =>
    match w.pending i with
    | some p =>
      let edges := edgeSample w.tables p.config (cap + 1)
      let snap : TopoSnapshot := ⟨p.fingerprint, csrOf edges, edges⟩
      let w' : World :=
        { w with
          cache := w.cache.put (keyOf p.config) snap
          pending := Function.update w.pending i none }
      let limited := decide (cap + 1 < (edgeSource w.tables defaultTenant p.config).length)
      some (w'.reply p.tenant p.config p.id p.depth (csrSubgraph w.tables p.config snap p.id p.depth) limited none)
    | none => none
  | .fail i => some { w with pending := Function.update w.pending i none }

/-! ### What answers are to keep to -/

/-- **What answers are to keep to**, for the tenant whose tables a request reads and for the distance of a depth. -/
structure Law (home : TenantId → TenantId) (distance : ℕ → ℕ) (w : World) : Prop where
  nodes : ∀ a ∈ w.answers, a.limited = false → ∀ v,
    v ∈ a.payload.nodes ↔ Near a.tables (home a.tenant) a.config a.id (distance a.depth) v
  cached : ∀ a ∈ w.answers, ∀ edges, a.topology = some edges → ∀ e,
    e ∈ edges ↔ e ∈ (edgeSource a.tables (home a.tenant) a.config).map rowToEdge

def Same (t : Tables) (c : StoredGraphConfig) (edges : List EdgeRow) : Prop :=
  ∀ e, e ∈ edges ↔ e ∈ (edgeSource t defaultTenant c).map rowToEdge

/-- **The condition on the steps**: no change gives a graph the counts under which its tables have a cached topology of other
edges, and no topology is cached under counts that a graph on its tables has with other edges; a snapshot that a deep call
reads is of the edges as they are; no edge lacks its source or target; and there are fewer than `2 ^ 31` edges. -/
def Heeds (cap : ℕ) (w : World) : Action → Prop
  | .change t graphs => ∀ c ∈ graphs, ∀ snap, w.cache.map (keyOf c) = some snap → counts t c = snap.fingerprint →
      Same t c snap.edges
  | .call _ _ c _ depth => NoNulls w.tables defaultTenant c ∧
      (2 < depth → cap < (counts w.tables c).2 → ∀ csr, w.store (snapshotPath c.database c.edgeTable) = some csr →
        ∃ edges, csr = csrOf edges ∧ edges.length < 2 ^ 31 ∧ Same w.tables c edges)
  | .finish i => ∀ p, w.pending i = some p → NoNulls w.tables defaultTenant p.config ∧
      (edgeSample w.tables p.config (cap + 1)).length < 2 ^ 31 ∧
      ∀ c ∈ w.graphs, keyOf c = keyOf p.config → counts w.tables c = p.fingerprint →
        Same w.tables c (edgeSample w.tables p.config (cap + 1))
  | _ => True

/-! ### The invariant -/

section Inv

variable {cap : ℕ} {w w' : World}

/-- A cached topology: built from its edges, and from those of any graph on its tables that has its counts. -/
structure SnapOk (t : Tables) (graphs : List StoredGraphConfig) (key : TopoKey) (snap : TopoSnapshot) : Prop where
  csr : snap.csr = csrOf snap.edges
  few : snap.edges.length < 2 ^ 31
  same : ∀ c ∈ graphs, keyOf c = key → counts t c = snap.fingerprint → Same t c snap.edges

structure Inv (w : World) : Prop where
  cache : ∀ key snap, w.cache.map key = some snap → SnapOk w.tables w.graphs key snap
  law : Law (fun _ => defaultTenant) (fun depth => max depth 1) w

theorem Inv.init : Inv World.init where
  cache key snap h := by cases h
  law := by constructor <;> exact fun a ha => absurd ha not_mem_nil

variable {c : StoredGraphConfig}

theorem Inv.reply (h : Inv w) {tenant : TenantId} {id : String} {depth : ℕ} {payload : GraphPayload}
    {limited : Bool} {topology : Option (List EdgeRow)}
    (hnodes : limited = false → ∀ v, v ∈ payload.nodes ↔ Near w.tables defaultTenant c id (max depth 1) v)
    (hcached : ∀ edges, topology = some edges → Same w.tables c edges) :
    Inv (w.reply tenant c id depth payload limited topology) where
  cache := h.cache
  law := by
    constructor
    · intro a ha hlimited
      rcases mem_cons.1 ha with rfl | ha
      · exact hnodes hlimited
      · exact h.law.nodes a ha hlimited
    · intro a ha edges htopology
      rcases mem_cons.1 ha with rfl | ha
      · exact hcached edges htopology
      · exact h.law.cached a ha edges htopology

theorem Inv.replyPerHop (h : Inv w) (hnulls : NoNulls w.tables defaultTenant c) (tenant : TenantId)
    (id : String) (depth : ℕ) : Inv (w.replyPerHop tenant c id depth) :=
  h.reply (fun hlimited => near_of_perHop hnulls hlimited) fun edges htopology => by cases htopology

theorem Inv.forget (h : Inv w) {cache : TopoCache} (hle : ∀ key snap, cache.map key = some snap → w.cache.map key = some snap) :
    Inv { w with cache := cache } where
  cache key snap hsnap := h.cache key snap (hle key snap hsnap)
  law := { h.law with }

theorem Inv.put (h : Inv w) {key : TopoKey} {snap : TopoSnapshot} (hsnap : SnapOk w.tables w.graphs key snap) :
    Inv { w with cache := w.cache.put key snap } where
  cache key' snap' h' := by
    rcases w.cache.put_le key snap h' with ⟨rfl, rfl⟩ | h'
    · exact hsnap
    · exact h.cache key' snap' h'
  law := { h.law with }

theorem Inv.setPending (h : Inv w) (pending : ℕ → Option Pending) : Inv { w with pending := pending } where
  cache := h.cache
  law := { h.law with }

theorem same_edgeSample {t : Tables} {limit : ℕ}
    (h : ¬ limit < (edgeSource t defaultTenant c).length) : Same t c (edgeSample t c limit) := by
  intro e
  rw [edgeSample, take_of_length_le (Nat.le_of_not_lt h)]

theorem Inv.step {a : Action} (h : Inv w) (hheeds : Heeds cap w a) (hstep : step cap w a = some w') : Inv w' := by
  cases a with
  | change t graphs =>
    cases hstep
    refine ⟨fun key snap hsnap => ?_, { h.law with }⟩
    obtain ⟨hcsr, hfew, -⟩ := h.cache key snap hsnap
    refine ⟨hcsr, hfew, fun c hmem hc hcounts => ?_⟩
    subst hc
    exact hheeds c hmem snap hsnap hcounts
  | snapshot c =>
    cases hstep
    exact ⟨h.cache, { h.law with }⟩
  | call i tenant c id depth =>
    obtain ⟨hnulls, hstored⟩ := hheeds
    simp only [StoredGraph.step] at hstep
    split at hstep
    · cases hstep
    · rename_i hfree
      have hmem : c ∈ w.graphs := not_not.1 (not_or.1 hfree).2
      split at hstep
      · cases hstep
        exact h.replyPerHop hnulls tenant id depth
      · rename_i hdeep
        split at hstep
        · rename_i hlarge
          split at hstep
          · -- a stored snapshot of the edges
            rename_i csr hcsr
            cases hstep
            obtain ⟨edges, rfl, hfew, hsame⟩ := hstored (Nat.lt_of_not_le hdeep) hlarge csr hcsr
            exact h.reply (fun _ => near_of_reachedBy hnulls hsame hfew) fun edges htopology => by cases htopology
          · cases hstep
            exact h.replyPerHop hnulls tenant id depth
        · split at hstep
          · rename_i snap cache hget
            cases hstep
            obtain ⟨hsnap, hfingerprint⟩ := TopoCache.get_eq_some hget
            obtain ⟨hcsr, hfew, hsame⟩ := h.cache _ snap hsnap
            have hedges := hsame c hmem rfl hfingerprint.symm
            have hforget : Inv { w with cache := cache } := h.forget fun key snap' h' => by
              refine w.cache.get_le (keyOf c) (counts w.tables c) ?_
              rw [hget]
              exact h'
            refine hforget.reply (fun _ => ?_) fun edges htopology => ?_
            · dsimp only [csrSubgraph]
              rw [hcsr]
              exact near_of_reachedBy hnulls hedges hfew
            · cases htopology
              exact hedges
          · rename_i cache hget
            cases hstep
            have hforget : Inv { w with cache := cache } := h.forget fun key snap' h' => by
              refine w.cache.get_le (keyOf c) (counts w.tables c) ?_
              rw [hget]
              exact h'
            exact hforget.setPending _
  | finish i =>
    simp only [StoredGraph.step] at hstep
    split at hstep
    · rename_i p hp
      cases hstep
      obtain ⟨hnulls, hfew, hsame⟩ := hheeds p hp
      have hsnap : SnapOk w.tables w.graphs (keyOf p.config)
          ⟨p.fingerprint, csrOf (edgeSample w.tables p.config (cap + 1)), edgeSample w.tables p.config (cap + 1)⟩ :=
        ⟨rfl, hfew, hsame⟩
      have hput := (h.put hsnap).setPending (Function.update w.pending i none)
      refine hput.reply (fun hlimited => ?_) fun edges htopology => by cases htopology
      exact near_of_reachedBy hnulls (same_edgeSample (of_decide_eq_false hlimited)) hfew
    · cases hstep
  | fail i =>
    cases hstep
    exact h.setPending _

end Inv

/-- **In every run whose steps heed the condition** the subgraph of a node has, on each path, the nodes within the distance in
the tables of the default tenant, and a cached topology that is used is of their edges. -/
theorem paths_agree_of_heeds (cap : ℕ) {w : World} (h : Runs.Reach (step cap) (Heeds cap) World.init w) :
    Law (fun _ => defaultTenant) (fun depth => max depth 1) w := by
  have hinv : Inv w := h.inv .init fun _ _ _ hinv hheeds hstep => hinv.step hheeds hstep
  exact hinv.law

/-! #### Runs on small graphs -/

def links : StoredGraphConfig := ⟨"d", "nodes", "edges", "id", "src", "dst", "type"⟩

def graphOf (tenant : TenantId) (nodes : List String) (edges : List SqlEdge) : Tables where
  rows x _ table :=
    if x ≠ tenant then []
    else if table = "nodes" then nodes.map fun v col => if col = "id" then some v else none
    else edges.map fun e col =>
      if col = "src" then e.1 else if col = "dst" then e.2.1 else if col = "type" then e.2.2 else none

def edge (u v : String) : SqlEdge := (some u, some v, some "t")

/-- A topology is built for a deep call, and used for the next one. -/
theorem paths_agree_of_heeds_twice : ∃ w, (∃ a ∈ w.answers, a.topology ≠ none ∧ "b" ∈ a.payload.nodes) ∧
    Law (fun _ => defaultTenant) (fun depth => max depth 1) w := by
  have hnulls : NoNulls (graphOf 0 ["a", "b"] [edge "a" "b"]) defaultTenant links := by
    intro e he
    obtain rfl := mem_singleton.1 he
    exact ⟨Option.some_ne_none _, Option.some_ne_none _⟩
  have h₀ : Runs.Reach (step 10) (Heeds 10) World.init World.init := .init
  have h₁ := h₀.step (Action.change (graphOf 0 ["a", "b"] [edge "a" "b"]) [links])
    (fun c _ snap hsnap => by cases hsnap) rfl
  have h₂ := h₁.step (Action.call 1 0 links "a" 3) ⟨hnulls, fun _ hlarge => absurd hlarge (by decide)⟩ rfl
  have h₃ := h₂.step (Action.finish 1) (fun p hp => by
    cases hp
    refine ⟨hnulls, by decide, fun c hc _ _ => ?_⟩
    obtain rfl := mem_singleton.1 hc
    exact same_edgeSample (by decide)) rfl
  have h₄ := h₃.step (Action.call 1 0 links "b" 3) ⟨hnulls, fun _ hlarge => absurd hlarge (by decide)⟩ rfl
  exact ⟨_, ⟨_, mem_cons_self, Option.some_ne_none _, by decide⟩, paths_agree_of_heeds 10 h₄⟩

def typed : StoredGraphConfig := ⟨"d", "nodes", "edges", "id", "src", "type", "dst"⟩

/-- The runs that go astray, each with a value of `topo_max_edges`. -/
def replacedRow : List Action :=
  [.change (graphOf 0 ["a", "b", "c"] [edge "a" "b"]) [links], .call 1 0 links "a" 3, .finish 1,
    .change (graphOf 0 ["a", "b", "c"] [edge "a" "c"]) [links], .call 1 0 links "a" 3]

def otherTenant : List Action := [.change (graphOf 7 ["a"] []) [links], .call 1 7 links "a" 1]

def noDepth : List Action := [.change (graphOf 0 ["a", "b"] [edge "a" "b"]) [links], .call 1 0 links "a" 0]

def oldSnapshot : List Action :=
  [.change (graphOf 0 ["a", "c"] [edge "a" "b", edge "x" "y"]) [links], .snapshot links,
    .change (graphOf 0 ["a", "c"] [edge "a" "c", edge "x" "y"]) [links], .call 1 0 links "a" 3]

def missingTarget : List Action :=
  [.change (graphOf 0 ["a", "b"] [(some "a", none, none), (some "b", none, none)]) [links], .call 1 0 links "a" 3, .finish 1]

def otherColumns : List Action :=
  [.change (graphOf 0 ["a", "b", "t"] [edge "a" "b"]) [links, typed], .call 1 0 links "a" 3, .finish 1,
    .call 1 0 typed "a" 3]

def countedBefore : List Action :=
  [.change (graphOf 0 ["a", "b"] [edge "a" "b"]) [links], .call 1 0 links "a" 3,
    .change (graphOf 0 ["a", "b"] [edge "x" "y", edge "y" "z"]) [links], .finish 1,
    .change (graphOf 0 ["a", "b"] [edge "a" "b"]) [links], .call 1 0 links "a" 3]

theorem near_self {t : Tables} {tenant : TenantId} {c : StoredGraphConfig} {id : String} {depth : ℕ}
    (h : some id ∈ nodeSource t tenant c) : Near t tenant c id depth id := ⟨h, 0, Nat.zero_le depth, Walk.nil⟩

theorem near_of_edge {t : Tables} {tenant : TenantId} {c : StoredGraphConfig} {id v : String} {depth : ℕ}
    {e : SqlEdge} (hdepth : 1 ≤ depth) (hv : some v ∈ nodeSource t tenant c) (he : e ∈ edgeSource t tenant c)
    (hjoin : e.1 = some id ∧ e.2.1 = some v) : Near t tenant c id depth v :=
  ⟨hv, 1, hdepth, Walk.nil.snoc ⟨e, he, .inl hjoin⟩⟩

theorem eq_of_walk_zero {V : Type} {R : V → V → Prop} {u v : V} (h : Walk R u 0 v) : v = u := by
  cases h
  rfl

/-- **The paths go astray**: a row is replaced and the counts are the same; another tenant has the node; the depth is zero; a
snapshot is old; an edge has no target; two graphs have the same tables; and a graph is counted before it changes and scanned
after. -/
theorem astray : (∀ actions ∈ [replacedRow, otherTenant, noDepth, missingTarget, otherColumns, countedBefore],
      ∃ w, Runs.run (step 10) Runs.Free World.init actions = some w ∧ ¬ Law id id w) ∧
      ∃ w, Runs.run (step 1) Runs.Free World.init oldSnapshot = some w ∧ ¬ Law id id w := by
  constructor
  · intro actions hactions
    simp only [mem_cons, not_mem_nil, or_false] at hactions
    rcases hactions with rfl | rfl | rfl | rfl | rfl | rfl
    · refine ⟨_, rfl, fun h => ?_⟩
      have hmem := (h.nodes _ mem_cons_self rfl "c").2
        (near_of_edge (e := edge "a" "c") (by decide) (by decide) (by decide) ⟨rfl, rfl⟩)
      exact absurd hmem (by decide)
    · refine ⟨_, rfl, fun h => ?_⟩
      have hmem := (h.nodes _ mem_cons_self rfl "a").2 (near_self (by decide))
      exact absurd hmem (by decide)
    · refine ⟨_, rfl, fun h => ?_⟩
      obtain ⟨-, n, hn, hwalk⟩ := (h.nodes _ mem_cons_self rfl "b").1 (by decide)
      have hself : "b" = "a" := eq_of_walk_zero (Nat.le_zero.1 hn ▸ hwalk)
      exact absurd hself (by decide)
    · refine ⟨_, rfl, fun h => ?_⟩
      obtain ⟨-, n, -, hwalk⟩ := (h.nodes _ mem_cons_self rfl "b").1 (by decide)
      have hnone : ∀ e ∈ edgeSource (graphOf 0 ["a", "b"] [(some "a", none, none), (some "b", none, none)]) 0 links,
          e.2.1 = none := by decide
      have hself : "b" = "a" := eq_of_walk (by
        rintro u ⟨e, he, ⟨-, hdst⟩ | ⟨-, hdst⟩⟩
        · cases (hnone e he).symm.trans hdst
        · cases (hnone e he).symm.trans hdst) hwalk
      exact absurd hself (by decide)
    · refine ⟨_, rfl, fun h => ?_⟩
      have hmem := (h.nodes _ mem_cons_self rfl "t").2
        (near_of_edge (e := (some "a", some "t", some "b")) (by decide) (by decide) (by decide) ⟨rfl, rfl⟩)
      exact absurd hmem (by decide)
    · refine ⟨_, rfl, fun h => ?_⟩
      have hmem := (h.nodes _ mem_cons_self rfl "b").2
        (near_of_edge (e := edge "a" "b") (by decide) (by decide) (by decide) ⟨rfl, rfl⟩)
      exact absurd hmem (by decide)
  · refine ⟨_, rfl, fun h => ?_⟩
    have hmem := (h.nodes _ mem_cons_self rfl "c").2
      (near_of_edge (e := edge "a" "c") (by decide) (by decide) (by decide) ⟨rfl, rfl⟩)
    exact absurd hmem (by decide)

end StoredGraph
