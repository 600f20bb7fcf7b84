/-
**Subgraphs of a stored graph, in one state of its tables.**

The nodes and edges of a stored graph are rows of two tables.  The subgraph around a node is found hop by hop, by one query
for the edges at the frontier and a limit of rows, or from a topology in memory that was built from the edges before.
-/

import Pensieve.CsrTraverse
import Pensieve.TenantScope

namespace StoredGraph

open List
open Bfs (Walk IsDist)
open Catalog (TenantId)
open GraphTopo (CsrGraph EdgeRow WithinCeiling edgeRel)
open Tenancy (defaultTenant)

/-! ### Tables -/

/-- The texts of a row by their columns, `none` for NULL. -/
abbrev Row := String → Option String

structure StoredGraphConfig where
  database : String
  nodeTable : String
  edgeTable : String
  idCol : String
  srcCol : String
  dstCol : String
  typeCol : String
  deriving DecidableEq

structure Tables where
  rows : TenantId → String → String → List Row

abbrev SqlEdge := Option String × Option String × Option String

variable (t : Tables) (tenant : TenantId) (c : StoredGraphConfig)

/-- `node_source`: one row for each id. -/
def nodeSource : List (Option String) := ((t.rows tenant c.database c.nodeTable).map fun r => r c.idCol).dedup

/-- `edge_source`: one row for each source, target and type. -/
def edgeSource : List SqlEdge :=
  ((t.rows tenant c.database c.edgeTable).map fun r => (r c.srcCol, r c.dstCol, r c.typeCol)).dedup

/-- `row_to_edge`, for which NULL is the empty text. -/
def rowToEdge (e : SqlEdge) : EdgeRow := (e.1.getD "", e.2.1.getD "", e.2.2.getD "")

/-- `SELECT … WHERE src IN (…) OR dst IN (…)`, which no NULL meets. -/
def touching (ids : Finset String) (edges : List SqlEdge) : List SqlEdge :=
  edges.filter fun e => e.1.any (· ∈ ids) || e.2.1.any (· ∈ ids)

/-- The ids that have a node: `node`, for each of them. -/
def materialize (ids : Finset String) : Finset String := ids.filter fun v => some v ∈ nodeSource t tenant c

/-! ### Hop by hop -/

structure GraphPayload where
  nodes : Finset String
  edges : List EdgeRow

/-- What the hops have seen; `limited` tells whether a query had more rows than its limit. -/
structure Hops where
  frontier : Finset String
  seen : Finset String
  edges : List EdgeRow
  limited : Bool

def edgeId (e : EdgeRow) : String := e.1 ++ "->" ++ e.2.1 ++ ":" ++ e.2.2

def pushEdge (edges : List EdgeRow) (e : EdgeRow) : List EdgeRow :=
  if edges.any (fun k => edgeId k = edgeId e) then edges else edges ++ [e]

def ends (edges : List EdgeRow) : List String := edges.flatMap fun e => [e.1, e.2.1]

def hopLimit : ℕ := 500

/-- One round of the loop of `subgraph_per_hop`, with the query `neighbors`. -/
def hop (edges : List SqlEdge) (s : Hops) : Hops :=
  let found := touching s.frontier edges
  let rows := (found.take hopLimit).map rowToEdge
  let next := ((ends rows).toFinset \ s.frontier) \ s.seen
  { frontier := next
    seen := s.seen ∪ next
    edges := rows.foldl pushEdge s.edges
    limited := s.limited || decide (hopLimit < found.length) }

def hops (edges : List SqlEdge) : ℕ → Hops → Hops
  | 0, s => s
  | n + 1, s => if s.frontier = ∅ then s else hops edges n (hop edges s)

/-- The hops of `subgraph_per_hop` from one id. -/
def hopsFrom (edges : List SqlEdge) (id : String) (depth : ℕ) : Hops := hops edges (max depth 1) ⟨{id}, {id}, [], false⟩

def subgraphPerHop (id : String) (depth : ℕ) : GraphPayload :=
  let s := hopsFrom (edgeSource t tenant c) id depth
  ⟨materialize t tenant c s.seen, s.edges⟩

/-! ### In a topology -/

def csrOf (edges : List EdgeRow) : CsrGraph := CsrGraph.build (ends edges) edges

/-- `k_hop` around an id, and the id itself. -/
def reachedBy (csr : CsrGraph) (id : String) (depth : ℕ) : Finset String :=
  insert id ((csr.kHop [id] (max depth 1) .both none).image fun p => p.2.1)

def induced (reached : Finset String) (edges : List EdgeRow) : List EdgeRow :=
  edges.filter fun e => e.1 ∈ reached ∧ e.2.1 ∈ reached

/-! ### What is near -/

def Linked (u v : String) : Prop :=
  ∃ e ∈ edgeSource t tenant c, (e.1 = some u ∧ e.2.1 = some v) ∨ (e.1 = some v ∧ e.2.1 = some u)

/-- **A node within a distance**. -/
def Near (id : String) (depth : ℕ) (v : String) : Prop :=
  some v ∈ nodeSource t tenant c ∧ ∃ n ≤ depth, Walk (Linked t tenant c) id n v

def NoNulls : Prop := ∀ e ∈ edgeSource t tenant c, e.1 ≠ none ∧ e.2.1 ≠ none

variable {t tenant c}

variable {v : String}

theorem linked_iff (hnulls : NoNulls t tenant c) {u : String} : Linked t tenant c u v ↔
    ∃ e ∈ (edgeSource t tenant c).map rowToEdge, (e.1 = u ∧ e.2.1 = v) ∨ (e.1 = v ∧ e.2.1 = u) := by
  constructor
  · rintro ⟨e, he, hjoin⟩
    refine ⟨rowToEdge e, mem_map_of_mem he, ?_⟩
    rcases hjoin with ⟨hsrc, hdst⟩ | ⟨hsrc, hdst⟩
    · exact .inl ⟨by rw [rowToEdge, hsrc, Option.getD_some], by rw [rowToEdge, hdst, Option.getD_some]⟩
    · exact .inr ⟨by rw [rowToEdge, hsrc, Option.getD_some], by rw [rowToEdge, hdst, Option.getD_some]⟩
  · rintro ⟨e', he', hjoin⟩
    obtain ⟨e, he, rfl⟩ := mem_map.1 he'
    obtain ⟨hsrc, hdst⟩ := hnulls e he
    obtain ⟨a, ha⟩ := Option.ne_none_iff_exists'.1 hsrc
    obtain ⟨b, hb⟩ := Option.ne_none_iff_exists'.1 hdst
    refine ⟨e, he, ?_⟩
    simpa [rowToEdge, ha, hb] using hjoin

variable {ids : Finset String}

theorem mem_touching {edges : List SqlEdge} {e : SqlEdge} :
    e ∈ touching ids edges ↔ e ∈ edges ∧ ((∃ u ∈ ids, e.1 = some u) ∨ ∃ u ∈ ids, e.2.1 = some u) := by
  rw [touching, mem_filter, Bool.or_eq_true, Option.any_eq_true, Option.any_eq_true]
  have hany : ∀ o : Option String, (∃ u, o = some u ∧ decide (u ∈ ids) = true) ↔ ∃ u ∈ ids, o = some u := by
    intro o
    constructor
    · rintro ⟨u, ho, hu⟩
      exact ⟨u, of_decide_eq_true hu, ho⟩
    · rintro ⟨u, hu, ho⟩
      exact ⟨u, ho, decide_eq_true hu⟩
  rw [hany, hany]

/-! ### The hops see what is near -/

/-- After some hops: what is seen is near, and what is near to the seen, but not to the frontier, is seen. -/
structure Seen (t : Tables) (tenant : TenantId) (c : StoredGraphConfig) (id : String) (k : ℕ) (s : Hops) : Prop where
  near : ∀ v, v ∈ s.seen ↔ ∃ n ≤ k, Walk (Linked t tenant c) id n v
  frontier : s.frontier ⊆ s.seen
  closed : ∀ v ∈ s.seen, v ∉ s.frontier → ∀ u, Linked t tenant c v u → u ∈ s.seen

theorem Seen.start (id : String) : Seen t tenant c id 0 ⟨{id}, {id}, [], false⟩ where
  near v := by
    constructor
    · intro hv
      rw [Finset.mem_singleton.1 hv]
      exact ⟨0, le_rfl, Walk.nil⟩
    · rintro ⟨n, hn, hwalk⟩
      obtain rfl : n = 0 := by omega
      cases hwalk
      exact Finset.mem_singleton_self id
  frontier := Finset.Subset.refl _
  closed v hv hnot := absurd hv hnot

theorem mem_ends_touching (hnulls : NoNulls t tenant c)
    (hv : v ∈ ends ((touching ids (edgeSource t tenant c)).map rowToEdge)) :
    v ∈ ids ∨ ∃ u ∈ ids, Linked t tenant c u v := by
  obtain ⟨e', he', hend⟩ := mem_flatMap.1 hv
  obtain ⟨e, he, rfl⟩ := mem_map.1 he'
  obtain ⟨hmem, htouch⟩ := mem_touching.1 he
  obtain ⟨hsrc, hdst⟩ := hnulls e hmem
  obtain ⟨a, ha⟩ := Option.ne_none_iff_exists'.1 hsrc
  obtain ⟨b, hb⟩ := Option.ne_none_iff_exists'.1 hdst
  have hends : v = a ∨ v = b := by simpa [rowToEdge, ha, hb] using hend
  rcases htouch with ⟨u, hu, heq⟩ | ⟨u, hu, heq⟩
  · obtain rfl : a = u := Option.some.inj (ha.symm.trans heq)
    rcases hends with rfl | rfl
    · exact .inl hu
    · exact .inr ⟨a, hu, e, hmem, .inl ⟨ha, hb⟩⟩
  · obtain rfl : b = u := Option.some.inj (hb.symm.trans heq)
    rcases hends with rfl | rfl
    · exact .inr ⟨b, hu, e, hmem, .inr ⟨ha, hb⟩⟩
    · exact .inl hu

theorem mem_ends_of_linked {u : String} (hu : u ∈ ids) (h : Linked t tenant c u v) :
    v ∈ ends ((touching ids (edgeSource t tenant c)).map rowToEdge) := by
  obtain ⟨e, he, hjoin⟩ := h
  refine mem_flatMap.2 ⟨rowToEdge e, mem_map_of_mem (mem_touching.2 ⟨he, ?_⟩), ?_⟩
  · rcases hjoin with ⟨hsrc, -⟩ | ⟨-, hdst⟩
    · exact .inl ⟨u, hu, hsrc⟩
    · exact .inr ⟨u, hu, hdst⟩
  · rcases hjoin with ⟨-, hdst⟩ | ⟨hsrc, -⟩
    · simp [rowToEdge, hdst]
    · simp [rowToEdge, hsrc]

variable {id : String} {s : Hops}

theorem Seen.hop (hnulls : NoNulls t tenant c) {k : ℕ} (h : Seen t tenant c id k s)
    (hfew : (touching s.frontier (edgeSource t tenant c)).length ≤ hopLimit) :
    Seen t tenant c id (k + 1) (hop (edgeSource t tenant c) s) := by
  have htake : (touching s.frontier (edgeSource t tenant c)).take hopLimit = touching s.frontier (edgeSource t tenant c) :=
    take_of_length_le hfew
  -- what is linked to the frontier is seen afterwards
  have hnext : ∀ v ∈ s.frontier, ∀ u, Linked t tenant c v u → u ∈ (StoredGraph.hop (edgeSource t tenant c) s).seen := by
    intro v hv u hlinked
    have hend := mem_ends_of_linked hv hlinked
    dsimp only [StoredGraph.hop]
    rw [htake]
    by_cases hseen : u ∈ s.seen
    · exact Finset.mem_union_left _ hseen
    · have hnot : u ∉ s.frontier := fun hu => hseen (h.frontier hu)
      exact Finset.mem_union_right _ (Finset.mem_sdiff.2 ⟨Finset.mem_sdiff.2 ⟨mem_toFinset.2 hend, hnot⟩, hseen⟩)
  constructor
  · intro v
    constructor
    · intro hv
      dsimp only [StoredGraph.hop] at hv
      rw [htake] at hv
      rcases Finset.mem_union.1 hv with hv | hv
      · obtain ⟨n, hn, hwalk⟩ := (h.near v).1 hv
        exact ⟨n, by omega, hwalk⟩
      · obtain ⟨hv, -⟩ := Finset.mem_sdiff.1 hv
        obtain ⟨hend, hnot⟩ := Finset.mem_sdiff.1 hv
        obtain ⟨u, hu, hlinked⟩ := (mem_ends_touching hnulls (mem_toFinset.1 hend)).resolve_left hnot
        obtain ⟨n, hn, hwalk⟩ := (h.near u).1 (h.frontier hu)
        exact ⟨n + 1, by omega, hwalk.snoc hlinked⟩
    · rintro ⟨n, hn, hwalk⟩
      have hold : ∀ u, u ∈ s.seen → u ∈ (StoredGraph.hop (edgeSource t tenant c) s).seen := fun u hu =>
        Finset.mem_union_left _ hu
      rcases Nat.lt_or_ge k n with hlt | hle
      · cases hwalk with
        | nil => omega
        | @snoc m u _ hwalk hlinked =>
          have hu : u ∈ s.seen := (h.near u).2 ⟨m, by omega, hwalk⟩
          by_cases hfrontier : u ∈ s.frontier
          · exact hnext u hfrontier v hlinked
          · exact hold v (h.closed u hu hfrontier v hlinked)
      · exact hold v ((h.near v).2 ⟨n, hle, hwalk⟩)
  · exact fun v hv => Finset.mem_union_right _ hv
  · intro v hv hnot u hlinked
    have hv' : v ∈ s.seen := (Finset.mem_union.1 hv).resolve_right hnot
    by_cases hfrontier : v ∈ s.frontier
    · exact hnext v hfrontier u hlinked
    · exact Finset.mem_union_left _ (h.closed v hv' hfrontier u hlinked)

theorem Seen.all {k : ℕ} (h : Seen t tenant c id k s) (hfrontier : s.frontier = ∅) {n : ℕ}
    (hwalk : Walk (Linked t tenant c) id n v) : v ∈ s.seen := by
  induction hwalk with
  | nil => exact (h.near id).2 ⟨0, Nat.zero_le k, Walk.nil⟩
  | snoc _ hlinked ih =>
    refine h.closed _ ih ?_ _ hlinked
    rw [hfrontier]
    exact Finset.notMem_empty _

theorem limited_of_hop {edges : List SqlEdge} (h : (hop edges s).limited = false) :
    s.limited = false ∧ (touching s.frontier edges).length ≤ hopLimit := by
  obtain ⟨hs, hfew⟩ := Bool.or_eq_false_iff.1 h
  exact ⟨hs, Nat.le_of_not_lt (of_decide_eq_false hfew)⟩

theorem limited_of_hops {edges : List SqlEdge} (n : ℕ)
    (h : (hops edges n s).limited = false) : s.limited = false := by
  induction n generalizing s with
  | zero => exact h
  | succ n ih =>
    unfold hops at h
    split at h
    · exact h
    · exact (limited_of_hop (ih h)).1

theorem hops_spec (hnulls : NoNulls t tenant c) (n : ℕ) {k : ℕ} (h : Seen t tenant c id k s)
    (hlimited : (hops (edgeSource t tenant c) n s).limited = false) (v : String) :
    v ∈ (hops (edgeSource t tenant c) n s).seen ↔ ∃ m ≤ k + n, Walk (Linked t tenant c) id m v := by
  induction n generalizing k s with
  | zero => exact h.near v
  | succ n ih =>
    unfold hops at hlimited ⊢
    split at hlimited
    · rename_i hfrontier
      rw [if_pos hfrontier]
      constructor
      · intro hv
        obtain ⟨m, hm, hwalk⟩ := (h.near v).1 hv
        exact ⟨m, by omega, hwalk⟩
      · rintro ⟨m, -, hwalk⟩
        exact h.all hfrontier hwalk
    · rename_i hfrontier
      rw [if_neg hfrontier]
      obtain ⟨-, hfew⟩ := limited_of_hop (limited_of_hops n hlimited)
      have hrest := ih (h.hop hnulls hfew) hlimited
      rw [hrest]
      have hsum : k + 1 + n = k + (n + 1) := by omega
      rw [hsum]

theorem near_of_perHop (hnulls : NoNulls t tenant c) {depth : ℕ}
    (hlimited : (hopsFrom (edgeSource t tenant c) id depth).limited = false) (v : String) :
    v ∈ (subgraphPerHop t tenant c id depth).nodes ↔ Near t tenant c id (max depth 1) v := by
  have hseen := hops_spec hnulls (max depth 1) (Seen.start id) hlimited v
  rw [Nat.zero_add] at hseen
  dsimp only [subgraphPerHop, materialize, Near]
  rw [Finset.mem_filter, and_comm]
  exact and_congr_right fun _ => hseen

/-! ### A topology reaches what is near -/

theorem eq_of_walk {V : Type} {R : V → V → Prop} {u v : V} {n : ℕ} (h : ∀ w, ¬ R u w) (hwalk : Walk R u n v) : v = u := by
  induction hwalk with
  | nil => rfl
  | snoc _ hr ih =>
    rw [ih] at hr
    exact absurd hr (h _)

variable {edges : List EdgeRow}

theorem withinCeiling_csrOf (h : edges.length < 2 ^ 31) : WithinCeiling (ends edges) edges := by
  have hends : (ends edges).length = 2 * edges.length := by
    unfold ends
    rw [length_flatMap]
    simp [mul_comm]
  constructor
  · have hdedup := (dedup_sublist (ends edges)).length_le
    omega
  · have hcount : (edges.countP fun e => decide (e.1 ∈ ends edges ∧ e.2.1 ∈ ends edges)) ≤ edges.length :=
      countP_le_length
    omega

theorem edgeRel_iff_linked (hnulls : NoNulls t tenant c)
    (hedges : ∀ e, e ∈ edges ↔ e ∈ (edgeSource t tenant c).map rowToEdge) (u v : String) :
    edgeRel (ends edges) edges .both none u v ↔ Linked t tenant c u v := by
  rw [linked_iff hnulls]
  constructor
  · rintro ⟨e, he, -, -, -, ⟨-, hsrc, hdst⟩ | ⟨-, hdst, hsrc⟩⟩
    · exact ⟨e, (hedges e).1 he, .inl ⟨hsrc, hdst⟩⟩
    · exact ⟨e, (hedges e).1 he, .inr ⟨hsrc, hdst⟩⟩
  · rintro ⟨e, he, hjoin⟩
    have he' := (hedges e).2 he
    refine ⟨e, he', ?_, ?_, (fun ty h => by cases h), ?_⟩
    · exact mem_flatMap.2 ⟨e, he', mem_cons_self⟩
    · exact mem_flatMap.2 ⟨e, he', mem_cons_of_mem _ mem_cons_self⟩
    · rcases hjoin with ⟨hsrc, hdst⟩ | ⟨hsrc, hdst⟩
      · exact .inl ⟨by decide, hsrc, hdst⟩
      · exact .inr ⟨by decide, hdst, hsrc⟩

theorem mem_reachedBy_iff (hnulls : NoNulls t tenant c)
    (hedges : ∀ e, e ∈ edges ↔ e ∈ (edgeSource t tenant c).map rowToEdge)
    (hlength : edges.length < 2 ^ 31) {depth : ℕ} :
    v ∈ reachedBy (csrOf edges) id depth ↔ ∃ n ≤ max depth 1, Walk (Linked t tenant c) id n v := by
  have hrel := edgeRel_iff_linked hnulls hedges
  unfold reachedBy
  rw [Finset.mem_insert, Finset.mem_image]
  constructor
  · rintro (rfl | ⟨⟨s, w, d⟩, hp, rfl⟩)
    · exact ⟨0, Nat.zero_le _, Walk.nil⟩
    · obtain ⟨hs, -, hd, hdist⟩ :=
        (GraphTopo.mem_kHop_build_iff (withinCeiling_csrOf hlength) [id] _ .both none s w d).1 hp
      obtain rfl := mem_singleton.1 hs
      exact ⟨d, hd, hdist.1.mono fun a b hab => (hrel a b).1 hab⟩
  · rintro ⟨n, hn, hwalk⟩
    have hwalk' : Walk (edgeRel (ends edges) edges .both none) id n v := hwalk.mono fun a b hab => (hrel a b).2 hab
    by_cases hid : id ∈ ends edges
    · obtain ⟨d, hd, hdist⟩ := Bfs.exists_isDist hwalk'
      refine .inr ⟨(id, v, d), ?_, rfl⟩
      exact (GraphTopo.mem_kHop_build_iff (withinCeiling_csrOf hlength) [id] _ .both none id v d).2
        ⟨mem_singleton.2 rfl, hid, hd.trans hn, hdist⟩
    · -- an id without edges reaches itself only
      left
      have hnone : ∀ w, ¬ edgeRel (ends edges) edges .both none id w := by
        rintro w ⟨e, -, hsrc, hdst, -, ⟨-, rfl, -⟩ | ⟨-, rfl, -⟩⟩
        · exact hid hsrc
        · exact hid hdst
      exact eq_of_walk hnone hwalk'

theorem near_of_reachedBy (hnulls : NoNulls t tenant c)
    (hedges : ∀ e, e ∈ edges ↔ e ∈ (edgeSource t tenant c).map rowToEdge)
    (hlength : edges.length < 2 ^ 31) {depth : ℕ} (v : String) :
    v ∈ materialize t tenant c (reachedBy (csrOf edges) id depth) ↔ Near t tenant c id (max depth 1) v := by
  dsimp only [materialize, Near]
  rw [Finset.mem_filter, and_comm, mem_reachedBy_iff hnulls hedges hlength]

end StoredGraph
