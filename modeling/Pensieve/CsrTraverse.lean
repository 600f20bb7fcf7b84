/-
**Traversal of the CSR topology, and the reference oracle.**

`CsrGraph::step` lists the neighbours of an ordinal under a direction and an edge-type filter;
`k_hop`, `var_length` and `shortest_path_len` are breadth-first searches over it.
-/

import Pensieve.Bfs
import Pensieve.CsrGraph

namespace GraphTopo

open List
open Bfs

inductive Direction
  | fwd
  | back
  | both
  deriving DecidableEq

/-! ### The graph that is meant -/

/-- `u` and `v` are joined, in the direction read, by an edge of the requested type whose endpoints
are both nodes. -/
def edgeRel (nodes : List String) (edges : List EdgeRow) (dir : Direction) (etype : Option String)
    (u v : String) : Prop :=
  ∃ e ∈ edges, e.1 ∈ nodes ∧ e.2.1 ∈ nodes ∧ (∀ t, etype = some t → e.2.2 = t) ∧
    ((dir ≠ .back ∧ e.1 = u ∧ e.2.1 = v) ∨ (dir ≠ .fwd ∧ e.2.1 = u ∧ e.1 = v))

/-! ### The searches, over any store -/

/-- `k_hop` over a store: `idx` finds a node, `name` reads its id, `succ` lists its neighbours. -/
def kHopWith (idx : String → Option ℕ) (name : ℕ → String) (succ : ℕ → List ℕ) (fuel : ℕ)
    (sources : List String) (k : ℕ) : Finset (String × String × ℕ) :=
  sources.foldl (fun out s =>
      match idx s with
      | none => out
      | some i =>
        (loop succ (fun nb d out => insert (s, name nb, d) out) k fuel (start i (insert (s, s, 0) out))).acc)
    ∅

/-- `shortest_path_len` over a store. -/
def shortestWith (idx : String → Option ℕ) (succ : ℕ → List ℕ) (fuel : ℕ) (src dst : String) : Option ℕ :=
  match idx src, idx dst with
  | some i, some goal => if i = goal then some 0 else goalLoop succ goal fuel (start i ())
  | _, _ => none

/-- The store `(idx, name, R)` of ordinals represents the relation `E` on node ids. -/
structure Represents (idx : String → Option ℕ) (name : ℕ → String) (R : ℕ → ℕ → Prop)
    (E : String → String → Prop) : Prop where
  name_idx : ∀ x i, idx x = some i → name i = x
  edge_of : ∀ i j, R i j → ∃ x y, idx x = some i ∧ idx y = some j ∧ E x y
  of_edge : ∀ x y, E x y → ∃ i j, idx x = some i ∧ idx y = some j ∧ R i j

section Store

variable {idx : String → Option ℕ} {name : ℕ → String} {R : ℕ → ℕ → Prop}
  {E : String → String → Prop} {succ : ℕ → List ℕ} {fuel k : ℕ}

theorem Represents.idx_inj (h : Represents idx name R E) {x y : String} {i : ℕ}
    (hx : idx x = some i) (hy : idx y = some i) : x = y :=
  (h.name_idx x i hx).symm.trans (h.name_idx y i hy)

theorem Represents.walk_iff (h : Represents idx name R E) {x : String} {i : ℕ}
    (hx : idx x = some i) {n : ℕ} {y : String} :
    Walk E x n y ↔ ∃ j, idx y = some j ∧ Walk R i n j := by
  constructor
  · intro hw
    induction hw with
    | nil => exact ⟨i, hx, Walk.nil⟩
    | @snoc n v y _ he ih =>
      obtain ⟨a, ha, hwa⟩ := ih
      obtain ⟨a', j, ha', hj, hr⟩ := h.of_edge v y he
      obtain rfl : a = a' := Option.some_inj.1 (ha.symm.trans ha')
      exact ⟨j, hj, hwa.snoc hr⟩
  · rintro ⟨j, hj, hw⟩
    induction hw generalizing y with
    | nil =>
      rw [h.idx_inj hj hx]
      exact Walk.nil
    | @snoc n a j _ hr ih =>
      obtain ⟨v, w, hv, hw', he⟩ := h.edge_of a j hr
      rw [h.idx_inj hj hw']
      exact (ih hv).snoc he

theorem Represents.isDist_iff (h : Represents idx name R E) {x : String} {i : ℕ}
    (hx : idx x = some i) {y : String} {d : ℕ} :
    IsDist E x y d ↔ ∃ j, idx y = some j ∧ IsDist R i j d := by
  constructor
  · rintro ⟨hw, hmin⟩
    obtain ⟨j, hj, hwj⟩ := (h.walk_iff hx).1 hw
    exact ⟨j, hj, hwj, fun n hn => hmin n ((h.walk_iff hx).2 ⟨j, hj, hn⟩)⟩
  · rintro ⟨j, hj, hw, hmin⟩
    refine ⟨(h.walk_iff hx).2 ⟨j, hj, hw⟩, fun n hn => hmin n ?_⟩
    obtain ⟨j', hj', hwj'⟩ := (h.walk_iff hx).1 hn
    obtain rfl : j = j' := Option.some_inj.1 (hj.symm.trans hj')
    exact hwj'

theorem mem_foldl_insert {α β : Type} [DecidableEq β] (f : α → β) (l : List α) (s : Finset β)
    (b : β) : b ∈ l.foldl (fun s a => insert (f a) s) s ↔ b ∈ s ∨ ∃ a ∈ l, f a = b := by
  induction l generalizing s with
  | nil => simp
  | cons a l ih =>
    simp only [foldl_cons, ih, Finset.mem_insert, mem_cons, exists_eq_or_imp]
    constructor
    · rintro ((h | h) | h)
      · exact Or.inr (Or.inl h.symm)
      · exact Or.inl h
      · exact Or.inr (Or.inr h)
    · rintro (h | h | h)
      · exact Or.inl (Or.inr h)
      · exact Or.inl (Or.inl h.symm)
      · exact Or.inr h

theorem mem_loop_acc_iff (hsucc : ∀ v w, w ∈ succ v ↔ R v w)
    (hS : ∀ v, ∀ w ∈ succ v, w < fuel) {i : ℕ} (hi : i < fuel) (s y : String) (d : ℕ)
    (out : Finset (String × String × ℕ)) (p : String) :
    (p, y, d) ∈ (loop succ (fun nb d out => insert (s, name nb, d) out) k fuel (start i (insert (s, s, 0) out))).acc ↔
      (p, y, d) ∈ out ∨ p = s ∧ (y = s ∧ d = 0 ∨ ∃ j, j ≠ i ∧ name j = y ∧ IsDist R i j d ∧ d ≤ k) := by
  obtain ⟨trace, hacc, htr⟩ := loop_acc succ
    (fun nb d (out : Finset (String × String × ℕ)) => insert (s, name nb, d) out) k fuel
    (start i (insert (s, s, 0) out))
  have hdepth : ∀ j d, (loop succ
      (fun nb d (out : Finset (String × String × ℕ)) => insert (s, name nb, d) out) k fuel
      (start i (insert (s, s, 0) out))).depth j = some d ↔ IsDist R i j d ∧ d ≤ k :=
    fun j d => loop_depth_iff hsucc _ (Finset.mem_range.2 hi)
      (fun v w hw => Finset.mem_range.2 (hS v w hw)) (by simp) _ j d
  have htr' : ∀ j d, (j, d) ∈ trace ↔ j ≠ i ∧ IsDist R i j d ∧ d ≤ k := by
    intro j d
    rw [htr, hdepth]
    by_cases hj : j = i
    · simp [start, hj]
    · simp [start, hj]
  rw [hacc, mem_foldl_insert (fun p : ℕ × ℕ => (s, name p.1, p.2))]
  simp only [start, Finset.mem_insert, Prod.mk.injEq, Prod.exists, htr']
  constructor
  · rintro ((⟨rfl, rfl, rfl⟩ | h) | ⟨j, e, ⟨hj, hdist, hle⟩, rfl, rfl, rfl⟩)
    · exact Or.inr ⟨rfl, Or.inl ⟨rfl, rfl⟩⟩
    · exact Or.inl h
    · exact Or.inr ⟨rfl, Or.inr ⟨j, hj, rfl, hdist, hle⟩⟩
  · rintro (h | ⟨rfl, ⟨rfl, rfl⟩ | ⟨j, hj, rfl, hdist, hle⟩⟩)
    · exact Or.inl (Or.inr h)
    · exact Or.inl (Or.inl ⟨rfl, rfl, rfl⟩)
    · exact Or.inr ⟨j, d, ⟨hj, hdist, hle⟩, rfl, rfl, rfl⟩

theorem mem_kHopWith_ordinals (hsucc : ∀ v w, w ∈ succ v ↔ R v w)
    (hS : ∀ v, ∀ w ∈ succ v, w < fuel) (hidx : ∀ x i, idx x = some i → i < fuel)
    (sources : List String) (s y : String) (d : ℕ) : (s, y, d) ∈ kHopWith idx name succ fuel sources k ↔
      s ∈ sources ∧ ∃ i, idx s = some i ∧ (y = s ∧ d = 0 ∨ ∃ j, j ≠ i ∧ name j = y ∧ IsDist R i j d ∧ d ≤ k) := by
  have key : ∀ (l : List String) (out : Finset (String × String × ℕ)), (s, y, d) ∈ l.foldl (fun out s =>
        match idx s with
        | none => out
        | some i =>
          (loop succ (fun nb d out => insert (s, name nb, d) out) k fuel (start i (insert (s, s, 0) out))).acc) out ↔
        (s, y, d) ∈ out ∨ s ∈ l ∧ ∃ i, idx s = some i ∧ (y = s ∧ d = 0 ∨
          ∃ j, j ≠ i ∧ name j = y ∧ IsDist R i j d ∧ d ≤ k) := by
    intro l
    induction l with
    | nil => simp
    | cons x l ih =>
      intro out
      rw [foldl_cons, ih]
      cases hx : idx x with
      | none =>
        simp only [mem_cons]
        constructor
        · rintro (h | ⟨h, h'⟩)
          · exact Or.inl h
          · exact Or.inr ⟨Or.inr h, h'⟩
        · rintro (h | ⟨rfl | h, h'⟩)
          · exact Or.inl h
          · simp [hx] at h'
          · exact Or.inr ⟨h, h'⟩
      | some i =>
        simp only [mem_loop_acc_iff hsucc hS (hidx x i hx), mem_cons]
        constructor
        · rintro ((h | ⟨rfl, h⟩) | ⟨h, h'⟩)
          · exact Or.inl h
          · exact Or.inr ⟨Or.inl rfl, i, hx, h⟩
          · exact Or.inr ⟨Or.inr h, h'⟩
        · rintro (h | ⟨rfl | h, h'⟩)
          · exact Or.inl (Or.inl h)
          · obtain ⟨i', hi', h'⟩ := h'
            obtain rfl : i = i' := Option.some_inj.1 (hx.symm.trans hi')
            exact Or.inl (Or.inr ⟨rfl, h'⟩)
          · exact Or.inr ⟨h, h'⟩
  simpa [kHopWith] using key sources ∅

/-- **Over a store that represents `E`, `k_hop` is exact.** -/
theorem mem_kHopWith_iff (h : Represents idx name R E) (hsucc : ∀ v w, w ∈ succ v ↔ R v w)
    (hS : ∀ v, ∀ w ∈ succ v, w < fuel) (hidx : ∀ x i, idx x = some i → i < fuel)
    (sources : List String) (s y : String) (d : ℕ) : (s, y, d) ∈ kHopWith idx name succ fuel sources k ↔
      s ∈ sources ∧ (∃ i, idx s = some i) ∧ d ≤ k ∧ IsDist E s y d := by
  rw [mem_kHopWith_ordinals hsucc hS hidx]
  refine and_congr_right fun _ => ?_
  constructor
  · rintro ⟨i, hi, ⟨rfl, rfl⟩ | ⟨j, hji, rfl, hdist, hle⟩⟩
    · exact ⟨⟨i, hi⟩, Nat.zero_le _, isDist_self _ _⟩
    · -- a vertex other than the source is the end of an edge, so it has an id
      have hj : idx (name j) = some j := by
        cases hdist.1 with
        | nil => exact absurd rfl hji
        | snoc _ hr =>
          obtain ⟨_, w, _, hw, _⟩ := h.edge_of _ _ hr
          rw [h.name_idx w j hw]
          exact hw
      exact ⟨⟨i, hi⟩, hle, (h.isDist_iff hi).2 ⟨j, hj, hdist⟩⟩
  · rintro ⟨⟨i, hi⟩, hle, hdist⟩
    obtain ⟨j, hj, hdistj⟩ := (h.isDist_iff hi).1 hdist
    refine ⟨i, hi, ?_⟩
    by_cases hji : j = i
    · subst hji
      exact Or.inl ⟨h.idx_inj hj hi, hdistj.unique (isDist_self R j)⟩
    · exact Or.inr ⟨j, hji, h.name_idx y j hj, hdistj, hle⟩

/-- **Over a store that represents `E`, `shortest_path_len` is exact.** -/
theorem shortestWith_eq_some_iff (h : Represents idx name R E)
    (hsucc : ∀ v w, w ∈ succ v ↔ R v w) (hS : ∀ v, ∀ w ∈ succ v, w < fuel)
    (hidx : ∀ x i, idx x = some i → i < fuel) (s y : String) (d : ℕ) :
    shortestWith idx succ fuel s y = some d ↔ (∃ i, idx s = some i) ∧ IsDist E s y d := by
  unfold shortestWith
  cases hs : idx s with
  | none => simp
  | some i =>
    rw [h.isDist_iff hs]
    cases hy : idx y with
    | none => simp
    | some j =>
      have hex : ((∃ i', some i = some i') ∧ ∃ j', some j = some j' ∧ IsDist R i j' d) ↔ IsDist R i j d := by simp
      rw [hex]
      by_cases hij : i = j
      · subst hij
        simp only [if_true, Option.some.injEq]
        exact ⟨fun h0 => h0 ▸ isDist_self R i, fun hd => (isDist_self R i).unique hd⟩
      · simp only [if_neg hij]
        exact goalLoop_eq_some_iff hsucc (Finset.mem_range.2 (hidx s i hs))
          (fun v w hw => Finset.mem_range.2 (hS v w hw)) (by simp) (Ne.symm hij) d

end Store

/-! ### The engine -/

inductive EtypeFilter
  | any
  | unknown
  | only (id : ℕ)
  deriving DecidableEq

def EtypeFilter.matches : EtypeFilter → ℕ → Bool
  | .any, _ => true
  | .unknown, _ => false
  | .only i, e => e = i

namespace CsrGraph

def resolveEtype (g : CsrGraph) : Option String → EtypeFilter
  | none => .any
  | some t => if t ∈ g.etypes then .only (asU32 (g.etypes.idxOf t)) else .unknown

/-- The entries of `targets` in `start..stop` whose edge type passes. -/
def scanRow (targets etypes : List ℕ) (start stop : ℕ) (f : EtypeFilter) : List ℕ :=
  ((List.range' start (stop - start)).filter fun i => f.matches (etypes.getD i 0)).map fun i => targets.getD i 0

/-- **`step`**: the neighbours of `v`, outgoing before incoming. -/
def step (g : CsrGraph) (v : ℕ) (dir : Direction) (f : EtypeFilter) : List ℕ :=
  (if dir = .back then []
    else scanRow g.outTargets g.outEtype (g.outOffsets.getD v 0) (g.outOffsets.getD (v + 1) 0) f) ++
  (if dir = .fwd then []
    else scanRow g.inSources g.inEtype (g.inOffsets.getD v 0) (g.inOffsets.getD (v + 1) 0) f)

/-- **`k_hop`**.  Every vertex enters the queue once, so the number of nodes is fuel enough. -/
def kHop (g : CsrGraph) (sources : List String) (k : ℕ) (dir : Direction)
    (etype : Option String) : Finset (String × String × ℕ) :=
  kHopWith g.idToIdx (fun i => g.ids.getD i "") (fun v => g.step v dir (g.resolveEtype etype))
    g.ids.length sources k

/-- **`var_length`**: `k_hop` at the upper bound, less what is nearer than the lower one. -/
def varLength (g : CsrGraph) (sources : List String) (lo hi : ℕ) (dir : Direction)
    (etype : Option String) : Finset (String × String × ℕ) :=
  (g.kHop sources hi dir etype).filter fun p => lo ≤ p.2.2

def shortestPathLen (g : CsrGraph) (src dst : String) (dir : Direction) (etype : Option String) : Option ℕ :=
  shortestWith g.idToIdx (fun v => g.step v dir (g.resolveEtype etype)) g.ids.length src dst

end CsrGraph

section Csr

variable {nodes : List String} {edges : List EdgeRow}

theorem mem_scanRow_buildCsr (n : ℕ) (triples : List Triple) (hn : ∀ t ∈ triples, t.1 < n)
    (hlt : triples.length < 2 ^ 32) (f : EtypeFilter) (v w : ℕ) :
    w ∈ CsrGraph.scanRow (buildCsr n triples).2.1 (buildCsr n triples).2.2
        ((buildCsr n triples).1.getD v 0) ((buildCsr n triples).1.getD (v + 1) 0) f ↔
      ∃ t ∈ triples, t.1 = v ∧ t.2.1 = w ∧ f.matches t.2.2 = true := by
  obtain ⟨hlen, hoff⟩ := buildCsr_offsets hn hlt
  by_cases hv : v < n
  · have hrow := buildCsr_row hn hlt hv
    rw [CsrGraph.scanRow, hoff v hv.le, hoff (v + 1) hv, rank_succ, Nat.add_sub_cancel_left]
    simp only [mem_map, mem_filter]
    constructor
    · rintro ⟨i, ⟨hi, hf⟩, rfl⟩
      have hmem : ((buildCsr n triples).2.1.getD i 0, (buildCsr n triples).2.2.getD i 0) ∈
          (triples.filter fun t => t.1 = v).map Prod.snd := by
        rw [← hrow]
        exact mem_map.2 ⟨i, hi, rfl⟩
      obtain ⟨t, ht, heq⟩ := mem_map.1 hmem
      obtain ⟨htm, htv⟩ := mem_filter.1 ht
      refine ⟨t, htm, by simpa using htv, by rw [heq], by rw [heq]; exact hf⟩
    · rintro ⟨t, ht, htv, rfl, hf⟩
      have hmem : t.2 ∈ (triples.filter fun t => t.1 = v).map Prod.snd :=
        mem_map.2 ⟨t, mem_filter.2 ⟨ht, by simpa using htv⟩, rfl⟩
      rw [← hrow] at hmem
      obtain ⟨i, hi, heq⟩ := mem_map.1 hmem
      refine ⟨i, ⟨hi, ?_⟩, ?_⟩
      · rw [← heq] at hf
        exact hf
      · rw [← heq]
  · -- past the last row the slice is empty
    have hstop : (buildCsr n triples).1.getD (v + 1) 0 = 0 := getD_eq_default _ _ (by omega)
    rw [hstop]
    simp only [CsrGraph.scanRow, Nat.zero_sub, range'_zero, filter_nil, map_nil, not_mem_nil, false_iff]
    rintro ⟨t, ht, rfl, -⟩
    exact hv (hn t ht)

def ordinalRel (nodes : List String) (edges : List EdgeRow) (dir : Direction) (f : EtypeFilter) (v w : ℕ) : Prop :=
  ∃ t ∈ (keepEdges nodes edges).kept, f.matches t.2.2 = true ∧
    ((dir ≠ .back ∧ t.1 = v ∧ t.2.1 = w) ∨ (dir ≠ .fwd ∧ t.2.1 = v ∧ t.1 = w))

theorem mem_step_build (hedges : (keepEdges nodes edges).kept.length < 2 ^ 32) (dir : Direction)
    (f : EtypeFilter) (v w : ℕ) : w ∈ (CsrGraph.build nodes edges).step v dir f ↔ ordinalRel nodes edges dir f v w := by
  have hout := mem_scanRow_buildCsr (nodeDict nodes).names.length (keepEdges nodes edges).kept
    (fun t ht => (keepEdges_lt ht).1) hedges f v w
  have hin := mem_scanRow_buildCsr (nodeDict nodes).names.length
    ((keepEdges nodes edges).kept.map fun t => (t.2.1, t.1, t.2.2))
    (fun t ht => by
      obtain ⟨u, hu, rfl⟩ := mem_map.1 ht
      exact (keepEdges_lt hu).2) (by simpa using hedges) f v w
  have hin' : (∃ t ∈ (keepEdges nodes edges).kept.map fun t => (t.2.1, t.1, t.2.2),
      t.1 = v ∧ t.2.1 = w ∧ f.matches t.2.2 = true) ↔
      ∃ t ∈ (keepEdges nodes edges).kept, t.2.1 = v ∧ t.1 = w ∧ f.matches t.2.2 = true := by
    simp
  rw [hin'] at hin
  unfold CsrGraph.step ordinalRel
  rw [mem_append]
  cases dir with
  | fwd =>
    simp only [reduceCtorEq, if_false, if_true, not_mem_nil, or_false, ne_eq,
      not_true_eq_false, not_false_eq_true, true_and, false_and]
    refine hout.trans ⟨?_, ?_⟩
    · rintro ⟨t, ht, h₁, h₂, h₃⟩
      exact ⟨t, ht, h₃, h₁, h₂⟩
    · rintro ⟨t, ht, h₃, h₁, h₂⟩
      exact ⟨t, ht, h₁, h₂, h₃⟩
  | back =>
    simp only [reduceCtorEq, if_false, if_true, not_mem_nil, false_or, ne_eq,
      not_true_eq_false, not_false_eq_true, true_and, false_and]
    refine hin.trans ⟨?_, ?_⟩
    · rintro ⟨t, ht, h₁, h₂, h₃⟩
      exact ⟨t, ht, h₃, h₁, h₂⟩
    · rintro ⟨t, ht, h₃, h₁, h₂⟩
      exact ⟨t, ht, h₁, h₂, h₃⟩
  | both =>
    simp only [reduceCtorEq, if_false, ne_eq, not_false_eq_true, true_and]
    refine (or_congr hout hin).trans ⟨?_, ?_⟩
    · rintro (⟨t, ht, h₁, h₂, h₃⟩ | ⟨t, ht, h₁, h₂, h₃⟩)
      · exact ⟨t, ht, h₃, Or.inl ⟨h₁, h₂⟩⟩
      · exact ⟨t, ht, h₃, Or.inr ⟨h₁, h₂⟩⟩
    · rintro ⟨t, ht, h₃, ⟨h₁, h₂⟩ | ⟨h₁, h₂⟩⟩
      · exact Or.inl ⟨t, ht, h₁, h₂, h₃⟩
      · exact Or.inr ⟨t, ht, h₁, h₂, h₃⟩

variable {x : String}

theorem Dict.WF.index_eq_idxOf {d : Dict} (h : d.WF) (hlen : d.names.length ≤ 2 ^ 32)
    {i : ℕ} : d.index x = some i ↔ x ∈ d.names ∧ i = d.names.idxOf x := by
  rw [h.index_eq_some]
  refine and_congr_right fun hmem => ?_
  rw [asU32_of_lt (lt_of_lt_of_le (idxOf_lt_length_of_mem hmem) hlen)]

theorem getD_idxOf {l : List String} (h : x ∈ l) : l.getD (l.idxOf x) "" = x := by
  rw [getD_eq_getElem _ _ (idxOf_lt_length_of_mem h)]
  exact getElem_idxOf _

theorem names_length_nodeDict (nodes : List String) : (nodeDict nodes).names.length = nodes.dedup.length := by
  refine List.Perm.length_eq ?_
  rw [perm_ext_iff_of_nodup (nodeDict_wf nodes).nodup (nodup_dedup nodes)]
  intro x
  rw [mem_nodeDict, mem_dedup]

theorem nodeDict_index_isSome {nodes : List String} : ((nodeDict nodes).index x).isSome = true ↔ x ∈ nodes := by
  rw [← mem_nodeDict, Option.isSome_iff_ne_none, ne_eq, (nodeDict_wf nodes).index_eq_none, not_not]

theorem exists_nodeDict_index {nodes : List String} : (∃ i, (nodeDict nodes).index x = some i) ↔ x ∈ nodes := by
  rw [← nodeDict_index_isSome, Option.isSome_iff_exists]

theorem kept_length (nodes : List String) (edges : List EdgeRow) : (keepEdges nodes edges).kept.length =
      edges.countP fun e => decide (e.1 ∈ nodes ∧ e.2.1 ∈ nodes) := by
  rw [(keepEdges_inv nodes edges).length]
  refine countP_congr fun e _ => ?_
  simp only [Bool.and_eq_true, nodeDict_index_isSome, decide_eq_true_eq]

theorem resolveEtype_matches (hedges : (keepEdges nodes edges).kept.length < 2 ^ 32)
    (etype : Option String) {t : String} {i : ℕ}
    (hi : (keepEdges nodes edges).etypes.index t = some i) :
    ((CsrGraph.build nodes edges).resolveEtype etype).matches i = true ↔ ∀ u, etype = some u → t = u := by
  have hk := keepEdges_inv nodes edges
  have hlen : (keepEdges nodes edges).etypes.names.length ≤ 2 ^ 32 := by
    have := hk.types_le
    omega
  obtain ⟨hmem, rfl⟩ := (hk.etypes.index_eq_idxOf hlen).1 hi
  cases etype with
  | none => simp [CsrGraph.resolveEtype, EtypeFilter.matches]
  | some u =>
    simp only [CsrGraph.resolveEtype, Option.some.injEq, forall_eq']
    by_cases hu : u ∈ (CsrGraph.build nodes edges).etypes
    · rw [if_pos hu, asU32_of_lt (lt_of_lt_of_le (idxOf_lt_length_of_mem hu) hlen)]
      simp only [EtypeFilter.matches, decide_eq_true_eq]
      exact idxOf_inj hmem
    · rw [if_neg hu]
      simp only [EtypeFilter.matches, Bool.false_eq_true, false_iff]
      rintro rfl
      exact hu hmem

/-- **The CSR store represents the graph**, as long as ordinals fit in a `u32`. -/
theorem csr_represents (hnodes : (nodeDict nodes).names.length ≤ 2 ^ 32)
    (hedges : (keepEdges nodes edges).kept.length < 2 ^ 32) (dir : Direction) (etype : Option String) :
    Represents (CsrGraph.build nodes edges).idToIdx (fun i => (CsrGraph.build nodes edges).ids.getD i "")
      (ordinalRel nodes edges dir ((CsrGraph.build nodes edges).resolveEtype etype))
      (edgeRel nodes edges dir etype) := by
  have hd := nodeDict_wf nodes
  have hk := keepEdges_inv nodes edges
  refine ⟨fun x i hx => ?_, fun i j => ?_, fun x y => ?_⟩
  · obtain ⟨hmem, rfl⟩ := (hd.index_eq_idxOf hnodes).1 hx
    exact getD_idxOf hmem
  · rintro ⟨t, ht, hf, hjoin⟩
    obtain ⟨e, he, h₁, h₂, h₃⟩ := (hk.mem t).1 ht
    have hty := (resolveEtype_matches hedges etype h₃).1 hf
    have hn₁ : e.1 ∈ nodes := exists_nodeDict_index.1 ⟨_, h₁⟩
    have hn₂ : e.2.1 ∈ nodes := exists_nodeDict_index.1 ⟨_, h₂⟩
    rcases hjoin with ⟨hdir, rfl, rfl⟩ | ⟨hdir, rfl, rfl⟩
    · exact ⟨e.1, e.2.1, h₁, h₂, e, he, hn₁, hn₂, hty, Or.inl ⟨hdir, rfl, rfl⟩⟩
    · exact ⟨e.2.1, e.1, h₂, h₁, e, he, hn₁, hn₂, hty, Or.inr ⟨hdir, rfl, rfl⟩⟩
  · rintro ⟨e, he, hn₁, hn₂, hty, hjoin⟩
    obtain ⟨i, hi⟩ := exists_nodeDict_index.2 hn₁
    obtain ⟨j, hj⟩ := exists_nodeDict_index.2 hn₂
    obtain ⟨t, ht⟩ := hk.interned e he i j hi hj
    have hkept : (i, j, t) ∈ (keepEdges nodes edges).kept := (hk.mem _).2 ⟨e, he, hi, hj, ht⟩
    have hf := (resolveEtype_matches hedges etype ht).2 hty
    rcases hjoin with ⟨hdir, rfl, rfl⟩ | ⟨hdir, rfl, rfl⟩
    · exact ⟨i, j, hi, hj, _, hkept, hf, Or.inl ⟨hdir, rfl, rfl⟩⟩
    · exact ⟨j, i, hj, hi, _, hkept, hf, Or.inr ⟨hdir, rfl, rfl⟩⟩

theorem step_build_lt (hedges : (keepEdges nodes edges).kept.length < 2 ^ 32) {dir : Direction}
    {f : EtypeFilter} {v w : ℕ} (hw : w ∈ (CsrGraph.build nodes edges).step v dir f) :
    w < (CsrGraph.build nodes edges).ids.length := by
  obtain ⟨t, ht, -, ⟨-, -, rfl⟩ | ⟨-, -, rfl⟩⟩ := (mem_step_build hedges dir f v w).1 hw
  · exact (keepEdges_lt ht).2
  · exact (keepEdges_lt ht).1

end Csr

/-! ### The reference oracle -/

/-- The petgraph mirror: node `i` is `nodes[i]`, an edge carries its position in `edges`. -/
structure Oracle where
  nodes : List String
  edges : List EdgeRow
  graph : List Triple
  idx : String → Option ℕ

namespace Oracle

def insertAll (m : String → Option ℕ) (l : List (String × ℕ)) : String → Option ℕ :=
  l.foldl (fun m p => Function.update m p.1 (some p.2)) m

def nodeIndex (nodes : List String) : String → Option ℕ := insertAll (fun _ => none) nodes.zipIdx

/-- **`Oracle::new`**: edges with a missing endpoint are dropped. -/
def new (nodes : List String) (edges : List EdgeRow) : Oracle :=
  let idx := nodeIndex nodes
  { nodes := nodes
    edges := edges
    graph := edges.zipIdx.filterMap fun p =>
      match idx p.1.1, idx p.1.2.1 with
      | some s, some d => some (s, d, p.2)
      | _, _ => none
    idx := idx }

/-- The edges at `v`, outgoing (`true`) or incoming, whose type passes, as the vertex at the other
end.  petgraph leaves the order of `edges_directed` open; nothing below depends on it. -/
def collect (o : Oracle) (v : ℕ) (outgoing : Bool) (etype : Option String) : List ℕ :=
  (o.graph.filter fun t =>
      (if outgoing then t.1 else t.2.1) = v ∧ ∀ u ∈ etype, (o.edges.getD t.2.2 ("", "", "")).2.2 = u).map
    fun t => if outgoing then t.2.1 else t.1

/-- **The oracle's `step`.** -/
def step (o : Oracle) (v : ℕ) (etype : Option String) : Direction → List ℕ
  | .fwd => o.collect v true etype
  | .back => o.collect v false etype
  | .both => o.collect v true etype ++ o.collect v false etype

/-- **The oracle's `k_hop`.** -/
def kHop (o : Oracle) (sources : List String) (k : ℕ) (dir : Direction) (etype : Option String) :
    Finset (String × String × ℕ) :=
  kHopWith o.idx (fun i => o.nodes.getD i "") (fun v => o.step v etype dir) o.nodes.length sources k

/-- **The oracle's `shortest_path_len`.** -/
def shortestPathLen (o : Oracle) (src dst : String) (dir : Direction) (etype : Option String) : Option ℕ :=
  shortestWith o.idx (fun v => o.step v etype dir) o.nodes.length src dst

theorem nodeIndex_eq_some {nodes : List String} {x : String} {i : ℕ}
    (h : nodeIndex nodes x = some i) : nodes[i]? = some x := by
  have key : ∀ (l : List (String × ℕ)) (m : String → Option ℕ),
      (∀ x i, m x = some i → nodes[i]? = some x) → (∀ p ∈ l, nodes[p.2]? = some p.1) →
      ∀ x i, insertAll m l x = some i → nodes[i]? = some x := by
    intro l
    induction l with
    | nil => intro m hm _ x i hx; exact hm x i hx
    | cons p l ih =>
      intro m hm hl x i hx
      refine ih (Function.update m p.1 (some p.2)) ?_ (fun q hq => hl q (by simp [hq])) x i hx
      intro y j hy
      by_cases hyp : y = p.1
      · subst hyp
        obtain rfl : p.2 = j := by simpa using hy
        exact hl p (by simp)
      · exact hm y j (by simpa [Function.update_of_ne hyp] using hy)
  exact key nodes.zipIdx (fun _ => none) (by simp)
    (fun p hp => mk_mem_zipIdx_iff_getElem?.1 hp) x i h

theorem exists_nodeIndex {nodes : List String} {x : String} : (∃ i, nodeIndex nodes x = some i) ↔ x ∈ nodes := by
  constructor
  · rintro ⟨i, hi⟩
    exact mem_of_getElem? (nodeIndex_eq_some hi)
  · have key : ∀ (l : List (String × ℕ)) (m : String → Option ℕ), ((∃ i, m x = some i) ∨ ∃ p ∈ l, p.1 = x) →
        ∃ i, insertAll m l x = some i := by
      intro l
      induction l with
      | nil => intro m h; simpa [insertAll] using h
      | cons p l ih =>
        intro m h
        refine ih _ ?_
        by_cases hp : x = p.1
        · exact Or.inl ⟨p.2, by simp [hp]⟩
        · rcases h with ⟨i, hi⟩ | ⟨q, hq, rfl⟩
          · exact Or.inl ⟨i, by simpa [Function.update_of_ne hp] using hi⟩
          · rcases mem_cons.1 hq with rfl | hq
            · exact absurd rfl hp
            · exact Or.inr ⟨q, hq, rfl⟩
    intro hx
    obtain ⟨i, hi⟩ := mem_iff_getElem?.1 hx
    exact key nodes.zipIdx _ (Or.inr ⟨(x, i), mk_mem_zipIdx_iff_getElem?.2 hi, rfl⟩)

theorem mem_graph_new {nodes : List String} {edges : List EdgeRow} {t : Triple} :
    t ∈ (new nodes edges).graph ↔ ∃ e, edges[t.2.2]? = some e ∧
      nodeIndex nodes e.1 = some t.1 ∧ nodeIndex nodes e.2.1 = some t.2.1 := by
  simp only [new, mem_filterMap]
  constructor
  · rintro ⟨⟨e, n⟩, hp, heq⟩
    have he := mk_mem_zipIdx_iff_getElem?.1 hp
    split at heq
    · rename_i s d hs hd
      simp only [Option.some.injEq] at heq
      subst heq
      exact ⟨e, he, hs, hd⟩
    · simp at heq
  · rintro ⟨e, he, hs, hd⟩
    exact ⟨(e, t.2.2), mk_mem_zipIdx_iff_getElem?.2 he, by simp [hs, hd]⟩

theorem mem_collect_new {nodes : List String} {edges : List EdgeRow} {v w : ℕ} {outgoing : Bool}
    {etype : Option String} :
    w ∈ (new nodes edges).collect v outgoing etype ↔
      ∃ e ∈ edges, ∃ i j, nodeIndex nodes e.1 = some i ∧ nodeIndex nodes e.2.1 = some j ∧
        (∀ u, etype = some u → e.2.2 = u) ∧
        (if outgoing then i = v ∧ j = w else j = v ∧ i = w) := by
  have hedges : (new nodes edges).edges = edges := rfl
  simp only [collect, mem_map, mem_filter, mem_graph_new, decide_eq_true_eq, Option.mem_def, hedges]
  constructor
  · rintro ⟨t, ⟨⟨e, he, hs, hd⟩, hv, hty⟩, hw⟩
    refine ⟨e, mem_of_getElem? he, t.1, t.2.1, hs, hd, ?_, ?_⟩
    · rw [getD_eq_getElem?_getD, he] at hty
      exact hty
    · cases outgoing <;> simpa using ⟨hv, hw⟩
  · rintro ⟨e, he, i, j, hi, hj, hty, hjoin⟩
    obtain ⟨n, hn⟩ := mem_iff_getElem?.1 he
    refine ⟨(i, j, n), ⟨⟨e, hn, hi, hj⟩, ?_, ?_⟩, ?_⟩
    · cases outgoing <;> simp_all
    · rw [getD_eq_getElem?_getD, hn]
      exact hty
    · cases outgoing <;> simp_all

theorem step_new_lt {nodes : List String} {edges : List EdgeRow} {v w : ℕ} {dir : Direction}
    {etype : Option String} (h : w ∈ (new nodes edges).step v etype dir) :
    w < (new nodes edges).nodes.length := by
  have key : ∀ outgoing, w ∈ (new nodes edges).collect v outgoing etype → w < nodes.length := by
    intro outgoing hw
    obtain ⟨e, -, i, j, hi, hj, -, hjoin⟩ := mem_collect_new.1 hw
    have hi' := (List.getElem?_eq_some_iff.1 (nodeIndex_eq_some hi)).1
    have hj' := (List.getElem?_eq_some_iff.1 (nodeIndex_eq_some hj)).1
    cases outgoing <;> simp only [if_true, Bool.false_eq_true, if_false] at hjoin <;> omega
  cases dir with
  | fwd => exact key true h
  | back => exact key false h
  | both => exact (mem_append.1 h).elim (key true) (key false)

end Oracle

theorem oracle_represents (nodes : List String) (edges : List EdgeRow) (dir : Direction) (etype : Option String) :
    Represents (Oracle.new nodes edges).idx (fun i => (Oracle.new nodes edges).nodes.getD i "")
      (fun v w => w ∈ (Oracle.new nodes edges).step v etype dir) (edgeRel nodes edges dir etype) := by
  have hmem : ∀ x i, Oracle.nodeIndex nodes x = some i → x ∈ nodes := fun x i hx => Oracle.exists_nodeIndex.1 ⟨i, hx⟩
  refine ⟨fun x i hx => ?_, fun v w hw => ?_, fun x y => ?_⟩
  · have h : nodes[i]? = some x := Oracle.nodeIndex_eq_some hx
    show nodes.getD i "" = x
    rw [getD_eq_getElem?_getD, h]
    rfl
  · -- an edge met going out is read forwards, one met coming in backwards
    have hout : dir ≠ .back → w ∈ (Oracle.new nodes edges).collect v true etype →
        ∃ x y, Oracle.nodeIndex nodes x = some v ∧ Oracle.nodeIndex nodes y = some w ∧
          edgeRel nodes edges dir etype x y := by
      intro hdir h
      obtain ⟨e, he, i, j, hi, hj, hty, hjoin⟩ := Oracle.mem_collect_new.1 h
      obtain ⟨rfl, rfl⟩ : i = v ∧ j = w := by simpa using hjoin
      exact ⟨e.1, e.2.1, hi, hj, e, he, hmem _ _ hi, hmem _ _ hj, hty, Or.inl ⟨hdir, rfl, rfl⟩⟩
    have hin : dir ≠ .fwd → w ∈ (Oracle.new nodes edges).collect v false etype →
        ∃ x y, Oracle.nodeIndex nodes x = some v ∧ Oracle.nodeIndex nodes y = some w ∧
          edgeRel nodes edges dir etype x y := by
      intro hdir h
      obtain ⟨e, he, i, j, hi, hj, hty, hjoin⟩ := Oracle.mem_collect_new.1 h
      obtain ⟨rfl, rfl⟩ : j = v ∧ i = w := by simpa using hjoin
      exact ⟨e.2.1, e.1, hj, hi, e, he, hmem _ _ hi, hmem _ _ hj, hty, Or.inr ⟨hdir, rfl, rfl⟩⟩
    cases dir with
    | fwd => exact hout (by simp) hw
    | back => exact hin (by simp) hw
    | both => exact (mem_append.1 hw).elim (hout (by simp)) (hin (by simp))
  · rintro ⟨e, he, hn₁, hn₂, hty, hjoin⟩
    obtain ⟨i, hi⟩ := Oracle.exists_nodeIndex.2 hn₁
    obtain ⟨j, hj⟩ := Oracle.exists_nodeIndex.2 hn₂
    rcases hjoin with ⟨hdir, rfl, rfl⟩ | ⟨hdir, rfl, rfl⟩
    · refine ⟨i, j, hi, hj, ?_⟩
      have h : j ∈ (Oracle.new nodes edges).collect i true etype :=
        Oracle.mem_collect_new.2 ⟨e, he, i, j, hi, hj, hty, by simp⟩
      cases dir with
      | fwd => exact h
      | back => exact absurd rfl hdir
      | both => exact mem_append_left _ h
    · refine ⟨j, i, hj, hi, ?_⟩
      have h : i ∈ (Oracle.new nodes edges).collect j false etype :=
        Oracle.mem_collect_new.2 ⟨e, he, i, j, hi, hj, hty, by simp⟩
      cases dir with
      | fwd => exact absurd rfl hdir
      | back => exact h
      | both => exact mem_append_right _ h

/-! ### Exactness -/

/-- The graph fits the `u32` ordinals the module is designed around: at most `2 ^ 32` distinct node
ids and fewer than `2 ^ 32` edges that are not dangling. -/
def WithinCeiling (nodes : List String) (edges : List EdgeRow) : Prop :=
  nodes.dedup.length ≤ 2 ^ 32 ∧ (edges.countP fun e => decide (e.1 ∈ nodes ∧ e.2.1 ∈ nodes)) < 2 ^ 32

section Exact

variable {nodes : List String} {edges : List EdgeRow}

theorem mem_kHop_build_iff (h : WithinCeiling nodes edges) (sources : List String) (k : ℕ)
    (dir : Direction) (etype : Option String) (s v : String) (d : ℕ) :
    (s, v, d) ∈ (CsrGraph.build nodes edges).kHop sources k dir etype ↔
      s ∈ sources ∧ s ∈ nodes ∧ d ≤ k ∧ IsDist (edgeRel nodes edges dir etype) s v d := by
  have hnodes : (nodeDict nodes).names.length ≤ 2 ^ 32 := names_length_nodeDict nodes ▸ h.1
  have hedges : (keepEdges nodes edges).kept.length < 2 ^ 32 := kept_length nodes edges ▸ h.2
  have hmem : (∃ i, (CsrGraph.build nodes edges).idToIdx s = some i) ↔ s ∈ nodes := exists_nodeDict_index
  rw [← hmem]
  exact mem_kHopWith_iff (csr_represents hnodes hedges dir etype) (mem_step_build hedges dir _)
    (fun v w hw => step_build_lt hedges hw) (fun x i hx => nodeDict_index_lt hx) sources s v d

theorem shortestPathLen_build_iff (h : WithinCeiling nodes edges) (s v : String) (dir : Direction)
    (etype : Option String) (d : ℕ) : (CsrGraph.build nodes edges).shortestPathLen s v dir etype = some d ↔
      s ∈ nodes ∧ IsDist (edgeRel nodes edges dir etype) s v d := by
  have hnodes : (nodeDict nodes).names.length ≤ 2 ^ 32 := names_length_nodeDict nodes ▸ h.1
  have hedges : (keepEdges nodes edges).kept.length < 2 ^ 32 := kept_length nodes edges ▸ h.2
  rw [← exists_nodeDict_index]
  exact shortestWith_eq_some_iff (csr_represents hnodes hedges dir etype)
    (mem_step_build hedges dir _) (fun v w hw => step_build_lt hedges hw)
    (fun x i hx => nodeDict_index_lt hx) s v d

theorem mem_kHop_oracle_iff (nodes : List String) (edges : List EdgeRow) (sources : List String)
    (k : ℕ) (dir : Direction) (etype : Option String) (s v : String) (d : ℕ) :
    (s, v, d) ∈ (Oracle.new nodes edges).kHop sources k dir etype ↔
      s ∈ sources ∧ s ∈ nodes ∧ d ≤ k ∧ IsDist (edgeRel nodes edges dir etype) s v d := by
  have hmem : (∃ i, (Oracle.new nodes edges).idx s = some i) ↔ s ∈ nodes := Oracle.exists_nodeIndex
  rw [← hmem]
  exact mem_kHopWith_iff (oracle_represents nodes edges dir etype) (fun _ _ => Iff.rfl)
    (fun v w hw => Oracle.step_new_lt hw)
    (fun x i hx => (List.getElem?_eq_some_iff.1 (Oracle.nodeIndex_eq_some hx)).1) sources s v d

theorem shortestPathLen_oracle_iff (nodes : List String) (edges : List EdgeRow) (s v : String)
    (dir : Direction) (etype : Option String) (d : ℕ) :
    (Oracle.new nodes edges).shortestPathLen s v dir etype = some d ↔
      s ∈ nodes ∧ IsDist (edgeRel nodes edges dir etype) s v d := by
  rw [← Oracle.exists_nodeIndex]
  exact shortestWith_eq_some_iff (oracle_represents nodes edges dir etype) (fun _ _ => Iff.rfl)
    (fun v w hw => Oracle.step_new_lt hw)
    (fun x i hx => (List.getElem?_eq_some_iff.1 (Oracle.nodeIndex_eq_some hx)).1) s v d

end Exact

/-- **Traversal is exact** on every graph within the `u32` ceiling: `k_hop` reports the distances up
to the bound, `shortest_path_len` is the distance `k_hop` would report, and both agree with the
oracle. -/
theorem csr_traversal_exact (nodes : List String) (edges : List EdgeRow) (h : WithinCeiling nodes edges) :
    (∀ sources k dir etype s v d, (s, v, d) ∈ (CsrGraph.build nodes edges).kHop sources k dir etype ↔
        s ∈ sources ∧ s ∈ nodes ∧ d ≤ k ∧ IsDist (edgeRel nodes edges dir etype) s v d) ∧ (∀ s v dir etype d,
      (CsrGraph.build nodes edges).shortestPathLen s v dir etype = some d ↔
        ∃ k, (s, v, d) ∈ (CsrGraph.build nodes edges).kHop [s] k dir etype) ∧
    (∀ sources k dir etype, (CsrGraph.build nodes edges).kHop sources k dir etype =
      (Oracle.new nodes edges).kHop sources k dir etype) ∧
    (∀ s v dir etype, (CsrGraph.build nodes edges).shortestPathLen s v dir etype =
      (Oracle.new nodes edges).shortestPathLen s v dir etype) := by
  refine ⟨fun sources k dir etype s v d => mem_kHop_build_iff h sources k dir etype s v d,
    fun s v dir etype d => ?_, fun sources k dir etype => ?_, fun s v dir etype => ?_⟩
  · rw [shortestPathLen_build_iff h]
    simp only [mem_kHop_build_iff h, mem_singleton, true_and]
    exact ⟨fun ⟨hs, hd⟩ => ⟨d, hs, le_rfl, hd⟩, fun ⟨_, hs, _, hd⟩ => ⟨hs, hd⟩⟩
  · ext ⟨s, v, d⟩
    rw [mem_kHop_build_iff h, mem_kHop_oracle_iff]
  · refine Option.ext fun d => ?_
    rw [shortestPathLen_build_iff h, shortestPathLen_oracle_iff]

/-- A graph with a repeated id, a parallel edge, a self-loop and a dangling edge is within the
ceiling. -/
theorem csr_traversal_exact_small :
    WithinCeiling ["a", "b", "a"] [("a", "b", "t"), ("a", "b", "t"), ("b", "b", "u"), ("a", "z", "t")] ∧
      (("a", "b", 1) ∈ (CsrGraph.build ["a", "b", "a"]
          [("a", "b", "t"), ("a", "b", "t"), ("b", "b", "u"), ("a", "z", "t")]).kHop ["a"] 1 .fwd (some "t") ↔
        "a" ∈ ["a"] ∧ "a" ∈ ["a", "b", "a"] ∧ 1 ≤ 1 ∧ IsDist (edgeRel ["a", "b", "a"]
          [("a", "b", "t"), ("a", "b", "t"), ("b", "b", "u"), ("a", "z", "t")] .fwd (some "t")) "a" "b" 1) := by
  have h : WithinCeiling ["a", "b", "a"]
      [("a", "b", "t"), ("a", "b", "t"), ("b", "b", "u"), ("a", "z", "t")] := by
    constructor <;> decide
  exact ⟨h, (csr_traversal_exact _ _ h).1 ["a"] 1 .fwd (some "t") "a" "b" 1⟩

section Metric

variable {nodes : List String} {edges : List EdgeRow} {etype : Option String} {dir : Direction}

theorem mem_of_isDist {s v : String} {d : ℕ} (h : IsDist (edgeRel nodes edges dir etype) s v d) (hs : s ∈ nodes) :
    v ∈ nodes := by
  cases h.1 with
  | nil => exact hs
  | snoc _ hlast =>
    obtain ⟨e, -, h₁, h₂, -, ⟨-, -, rfl⟩ | ⟨-, -, rfl⟩⟩ := hlast
    · exact h₂
    · exact h₁

def Direction.reverse : Direction → Direction
  | .fwd => .back
  | .back => .fwd
  | .both => .both

theorem edgeRel_reverse : edgeRel nodes edges dir.reverse etype = fun u v => edgeRel nodes edges dir etype v u := by
  funext u v
  refine propext (exists_congr fun e => and_congr_right' (and_congr_right' (and_congr_right' (and_congr_right' ?_))))
  cases dir <;> simp [Direction.reverse, and_comm, or_comm]

/-- **Path lengths are a metric**: a way back is as long as the way, read in the other direction, and a way over a third
node is no shorter. -/
theorem shortestPathLen_metric (h : WithinCeiling nodes edges) (dir : Direction) (etype : Option String) (u v w : String) :
    (CsrGraph.build nodes edges).shortestPathLen u v dir etype =
      (CsrGraph.build nodes edges).shortestPathLen v u dir.reverse etype ∧
    ((CsrGraph.build nodes edges).shortestPathLen u v dir etype = some 0 ↔ u = v ∧ u ∈ nodes) ∧
    ∀ a b, (CsrGraph.build nodes edges).shortestPathLen u v dir etype = some a →
      (CsrGraph.build nodes edges).shortestPathLen v w dir etype = some b →
      ∃ c ≤ a + b, (CsrGraph.build nodes edges).shortestPathLen u w dir etype = some c := by
  simp only [shortestPathLen_build_iff h]
  refine ⟨Option.ext fun d => ?_, ⟨?_, ?_⟩, ?_⟩
  · have hback : IsDist (edgeRel nodes edges dir.reverse etype) v u d ↔ IsDist (edgeRel nodes edges dir etype) u v d := by
      rw [edgeRel_reverse]
      exact isDist_reverse
    rw [shortestPathLen_build_iff h, shortestPathLen_build_iff h, hback]
    exact and_congr_left fun hd => ⟨mem_of_isDist hd, mem_of_isDist (hback.2 hd)⟩
  · rintro ⟨hu, hd⟩
    cases hd.1
    exact ⟨rfl, hu⟩
  · rintro ⟨rfl, hu⟩
    exact ⟨hu, isDist_self _ _⟩
  · rintro a b ⟨hu, ha⟩ ⟨-, hb⟩
    obtain ⟨c, hc, hdist⟩ := exists_isDist (ha.1.trans hb.1)
    exact ⟨c, hc, hu, hdist⟩

theorem shortestPathLen_metric_chain : (CsrGraph.build ["a", "b"] [("a", "b", "t")]).shortestPathLen "a" "b" .fwd none =
    (CsrGraph.build ["a", "b"] [("a", "b", "t")]).shortestPathLen "b" "a" .back none :=
  (shortestPathLen_metric (by constructor <;> decide) .fwd none "a" "b" "b").1

end Metric

/-! ### Past the ceiling -/

/-- The id of the `i`-th node of the wide graph: `i` letters. -/
def wideName (i : ℕ) : String := String.ofList (List.replicate i 'a')

theorem wideName_injective : Function.Injective wideName := by
  intro i j h
  have := congrArg (fun s => s.toList.length) h
  simpa [wideName] using this

/-- `n` distinct node ids. -/
def wideNodes (n : ℕ) : List String := (List.range n).map wideName

theorem nodup_wideNodes (n : ℕ) : (wideNodes n).Nodup := nodup_range.map wideName_injective

theorem names_wideNodes (n : ℕ) : (nodeDict (wideNodes n)).names = wideNodes n := by
  have h := Dict.names_internAll_of_nodup Dict.wf_empty (nodup_wideNodes n)
    (fun x _ => by simp [Dict.empty])
  rw [nodeDict, h]
  simp [Dict.empty]

variable {n : ℕ}

theorem getElem?_wideNodes {i : ℕ} (hi : i < n) : (wideNodes n)[i]? = some (wideName i) := by
  simp [wideNodes, hi]

theorem idxOf_wideName {i : ℕ} (hi : i < n) : (wideNodes n).idxOf (wideName i) = i := by
  obtain ⟨hlt, hget⟩ := List.getElem?_eq_some_iff.1 (getElem?_wideNodes hi)
  rw [← hget]
  exact (nodup_wideNodes n).idxOf_getElem i hlt

theorem index_wideNodes {i : ℕ} (hi : i < n) : (nodeDict (wideNodes n)).index (wideName i) = some (asU32 i) := by
  rw [(nodeDict_wf _).index_eq_some, names_wideNodes, idxOf_wideName hi]
  exact ⟨mem_of_getElem? (getElem?_wideNodes hi), rfl⟩

/-- One edge, from node `0` to node `1`: a node whose ordinal is `0` is reported to reach node `1`,
whichever node it is. -/
theorem kHop_of_ordinal_zero {m : ℕ} (hm : m < n) (hn : 1 < n) (h0 : asU32 m = 0) : (wideName m, wideName 1, 1) ∈
      (CsrGraph.build (wideNodes n) [(wideName 0, wideName 1, "t")]).kHop [wideName m] 1 .fwd none := by
  have hedges : (keepEdges (wideNodes n) [(wideName 0, wideName 1, "t")]).kept.length < 2 ^ 32 := by
    rw [kept_length]
    exact lt_of_le_of_lt countP_le_length (by norm_num)
  have hidx0 : (nodeDict (wideNodes n)).index (wideName 0) = some 0 := index_wideNodes (by omega)
  have hidx1 : (nodeDict (wideNodes n)).index (wideName 1) = some 1 := index_wideNodes hn
  have hk := keepEdges_inv (wideNodes n) [(wideName 0, wideName 1, "t")]
  obtain ⟨t, ht⟩ := hk.interned _ (mem_singleton_self _) 0 1 hidx0 hidx1
  have hkept : (0, 1, t) ∈ (keepEdges (wideNodes n) [(wideName 0, wideName 1, "t")]).kept :=
    (hk.mem _).2 ⟨_, mem_singleton_self _, hidx0, hidx1, ht⟩
  have hrel : ordinalRel (wideNodes n) [(wideName 0, wideName 1, "t")] .fwd .any 0 1 :=
    ⟨_, hkept, rfl, Or.inl ⟨by simp, rfl, rfl⟩⟩
  have hdist : IsDist (ordinalRel (wideNodes n) [(wideName 0, wideName 1, "t")] .fwd .any)
      0 1 1 := by
    refine ⟨Walk.nil.snoc hrel, fun l hl => ?_⟩
    cases hl with
    | snoc _ _ => omega
  refine (mem_kHopWith_ordinals (mem_step_build hedges .fwd .any)
    (fun v w hw => step_build_lt hedges hw) (fun x i hx => nodeDict_index_lt hx)
    [wideName m] (wideName m) (wideName 1) 1).2 ⟨by simp, asU32 m, index_wideNodes hm, ?_⟩
  rw [h0]
  refine Or.inr ⟨1, by omega, ?_, hdist, le_rfl⟩
  have hids : (CsrGraph.build (wideNodes n) [(wideName 0, wideName 1, "t")]).ids = wideNodes n := names_wideNodes n
  rw [hids, getD_eq_getElem?_getD, getElem?_wideNodes hn]
  rfl

theorem not_isDist_of_ne_zero {m : ℕ} (hm : m ≠ 0) :
    ¬ IsDist (edgeRel (wideNodes n) [(wideName 0, wideName 1, "t")] .fwd none) (wideName m) (wideName 1) 1 := by
  rintro ⟨hw, -⟩
  cases hw with
  | snoc hw hr =>
    cases hw
    obtain ⟨e, he, -, -, -, hjoin⟩ := hr
    rw [mem_singleton] at he
    subst he
    rcases hjoin with ⟨-, h, -⟩ | ⟨h, -, -⟩
    · exact hm (wideName_injective h).symm
    · exact h rfl

/-- **Beyond the ceiling the traversal is not exact**: the last of `2 ^ 32 + 1` nodes shares ordinal
`0` with the first one and is reported to reach the first one's neighbour, although no edge leaves
it. -/
theorem kHop_of_ordinal_wraparound : (wideName (2 ^ 32), wideName 1, 1) ∈
        (CsrGraph.build (wideNodes (2 ^ 32 + 1)) [(wideName 0, wideName 1, "t")]).kHop [wideName (2 ^ 32)] 1 .fwd none ∧
      ¬ IsDist (edgeRel (wideNodes (2 ^ 32 + 1)) [(wideName 0, wideName 1, "t")] .fwd none)
          (wideName (2 ^ 32)) (wideName 1) 1 := by
  have hzero : asU32 (2 ^ 32) = 0 := by norm_num [asU32]
  have hpos : 0 < 2 ^ 32 := by norm_num
  -- from here on only these two facts about `2 ^ 32` are used
  generalize 2 ^ 32 = m at hzero hpos ⊢
  exact ⟨kHop_of_ordinal_zero (by omega) (by omega) hzero, not_isDist_of_ne_zero (by omega)⟩

end GraphTopo
