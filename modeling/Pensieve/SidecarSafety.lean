/-
**Traversing a graph that was read from bytes.**

`from_bytes` checks the magic, the version and the checksum, and its cursor never leaves the
payload.  The lengths of the arrays follow from that.
-/

import Pensieve.GraphSidecar
import Pensieve.SafeCommunities

namespace GraphTopo

open List
open Wire

/-! ### Every traversal -/

/-- **No index out of bounds**: `step` from every node, and the traversals for all arguments, however
many rounds their loops run and in whatever order the maps are iterated. -/
structure TraversalSafe (g : CsrGraph) : Prop where
  step : ∀ v < g.ids.length, ∀ dir f, (Checked.step g v dir f).isSome
  kHop : ∀ fuel sources k dir etype, (Checked.kHop g fuel sources k dir etype).isSome
  shortestPathLen : ∀ fuel src dst dir etype, (Checked.shortestPathLen g fuel src dst dir etype).isSome
  connectedComponents : ∀ fuel dir, (Checked.connectedComponents g fuel dir).isSome
  detectCommunities : ∀ dir maxPasses, (Checked.detectCommunities g dir maxPasses).isSome
  detectCommunitiesHierarchical : ∀ order : Checked.Weights → Checked.Weights,
    (∀ m, (order m).Perm m) → ∀ dir maxPasses maxLevels,
      (Checked.detectCommunitiesHierarchical order g dir maxPasses maxLevels).isSome
  personalizedPagerank : ∀ fuel seeds alpha epsilon dir,
    (Checked.personalizedPagerank g fuel seeds alpha epsilon dir).isSome

theorem traversalSafe_of_wellFormed {g : CsrGraph} (hwf : WellFormed g)
    (hlt : g.ids.length < 2 ^ 32) (hidx : ∀ s i, g.idToIdx s = some i → i < g.ids.length) : TraversalSafe g :=
  { step := fun _ hv dir f => (Checked.safe_step hwf hv dir f).isSome
    kHop := fun fuel sources k dir etype =>
      (Checked.safe_kHop hwf hidx fuel sources k dir etype).isSome
    shortestPathLen := fun fuel src dst dir etype =>
      (Checked.safe_shortestPathLen hwf hidx fuel src dst dir etype).isSome
    connectedComponents := fun fuel dir => (Checked.safe_connectedComponents hwf fuel dir).isSome
    detectCommunities := fun dir maxPasses =>
      (Checked.safe_detectCommunities hwf hlt dir maxPasses).isSome
    detectCommunitiesHierarchical := fun _ horder dir maxPasses maxLevels =>
      (Checked.safe_detectCommunitiesHierarchical horder hwf dir maxPasses maxLevels).isSome
    personalizedPagerank := fun fuel seeds alpha epsilon dir =>
      (Checked.safe_personalizedPagerank hwf hidx fuel seeds alpha epsilon dir).isSome }

theorem indexIds_lt {ids : List String} {x : String} {i : ℕ} (h : indexIds ids x = some i) : i < ids.length := by
  have key : ∀ (rest : List String) (start : ℕ) (m : String → Option ℕ),
      start + rest.length ≤ ids.length → (∀ y j, m y = some j → j < ids.length) →
      ∀ (y : String) (j : ℕ), (rest.zipIdx start).foldl
        (fun (m : String → Option ℕ) p => Function.update m p.1 (some (asU32 p.2))) m y = some j → j < ids.length := by
    intro rest
    induction rest with
    | nil => exact fun _ m _ hm y j hj => hm y j hj
    | cons r rest ih =>
      intro start m hle hm y j hj
      rw [length_cons] at hle
      refine ih (start + 1) (Function.update m r (some (asU32 start))) (by omega) (fun z k hk => ?_)
        y j hj
      by_cases hz : z = r
      · rw [hz, Function.update_self] at hk
        obtain rfl := Option.some.inj hk
        have := Checked.asU32_le start
        omega
      · rw [Function.update_of_ne hz] at hk
        exact hm z k hk
  exact key ids 0 _ (by omega) (by simp) x i h

/-! ### Built graphs -/

theorem rowsWellFormed_buildCsr {n types : ℕ} {triples : List Triple}
    (hlt : triples.length < 2 ^ 32) (h : ∀ t ∈ triples, t.1 < n ∧ t.2.1 < n ∧ t.2.2 < types) :
    RowsWellFormed (buildCsr n triples).1 (buildCsr n triples).2.1 (buildCsr n triples).2.2 n types := by
  have hn : ∀ t ∈ triples, t.1 < n := fun t ht => (h t ht).1
  obtain ⟨hlen, hoff⟩ := buildCsr_offsets hn hlt
  obtain ⟨htargets, hetypes⟩ := length_buildCsr hn hlt
  -- an array that is not empty belongs to a triple, so there is a node and a type
  have hpos : ∀ (l : List ℕ) (x : ℕ), l.length = triples.length → x ∈ l → 0 < n ∧ 0 < types := by
    intro l x hl hx
    have hl' := length_pos_of_mem hx
    obtain ⟨t, ht⟩ := exists_mem_of_length_pos (hl ▸ hl')
    have := h t ht
    omega
  refine ⟨hlen, ?_, fun i hi => ?_, ?_, hetypes.trans htargets.symm, fun x hx => ?_, fun x hx => ?_⟩
  · rw [hoff 0 (Nat.zero_le n), rank_zero]
  · rw [hoff i hi.le, hoff (i + 1) hi]
    exact rank_mono triples (Nat.le_succ i)
  · rw [hoff n le_rfl, rank_eq_length hn, htargets]
  · rcases mem_buildCsr.1 hx with rfl | ⟨t, ht, rfl⟩
    · exact (hpos _ _ htargets hx).1
    · exact (h t ht).2.1
  · rcases mem_buildCsr.2 hx with rfl | ⟨t, ht, rfl⟩
    · exact (hpos _ _ hetypes hx).2
    · exact (h t ht).2.2

/-- **A built graph is well formed**, as long as its edges can be counted in a `u32`. -/
theorem wellFormed_build {nodes : List String} {edges : List EdgeRow}
    (hedges : (edges.countP fun e => decide (e.1 ∈ nodes ∧ e.2.1 ∈ nodes)) < 2 ^ 32) :
    WellFormed (CsrGraph.build nodes edges) := by
  have hinv := keepEdges_inv nodes edges
  have hlen : (keepEdges nodes edges).kept.length < 2 ^ 32 := kept_length nodes edges ▸ hedges
  have htype : ∀ t ∈ (keepEdges nodes edges).kept, t.2.2 < (keepEdges nodes edges).etypes.names.length := by
    intro t ht
    obtain ⟨e, -, -, -, he⟩ := (hinv.mem t).mp ht
    obtain ⟨hmem, hid⟩ := hinv.etypes.index_eq_some.mp he
    rw [hid]
    exact (Checked.asU32_le _).trans_lt (idxOf_lt_length_of_mem hmem)
  constructor
  · refine rowsWellFormed_buildCsr hlen fun t ht => ?_
    exact ⟨(keepEdges_lt ht).1, (keepEdges_lt ht).2, htype t ht⟩
  · refine rowsWellFormed_buildCsr (by rwa [length_map]) fun t ht => ?_
    obtain ⟨u, hu, rfl⟩ := mem_map.mp ht
    exact ⟨(keepEdges_lt hu).2, (keepEdges_lt hu).1, htype u hu⟩

/-! ### Accepted bytes -/

/-- **What a traversal of accepted bytes can rely on.**  The arrays have the lengths that the counts
give them; when their contents are well formed no traversal indexes out of bounds; and what was
written for a built graph is well formed. -/
theorem fromBytes_traversal (bytes : Bytes) (g : CsrGraph) (h : fromBytes bytes = .ok g) :
    (g.outOffsets.length = g.ids.length + 1 ∧ g.outEtype.length = g.outTargets.length ∧
      g.inOffsets.length = g.ids.length + 1 ∧ g.inEtype.length = g.inSources.length) ∧
    (WellFormed g → TraversalSafe g) ∧ ∀ nodes edges, nodes.dedup.length < 2 ^ 32 →
      (edges.countP fun e => decide (e.1 ∈ nodes ∧ e.2.1 ∈ nodes)) < 2 ^ 32 →
      (∀ x ∈ nodes, (utf8 x).length < 2 ^ 32) → (∀ e ∈ edges, (utf8 e.2.2).length < 2 ^ 32) →
      bytes = toBytes (CsrGraph.build nodes edges) → WellFormed g ∧ TraversalSafe g := by
  obtain ⟨hfits, -⟩ := fromBytes_eq_ok_iff.mp h
  have hidx : ∀ s i, g.idToIdx s = some i → i < g.ids.length := by
    intro s i hs
    rw [hfits.index] at hs
    exact indexIds_lt hs
  have hsafe : WellFormed g → TraversalSafe g := fun hwf =>
    traversalSafe_of_wellFormed hwf hfits.ids_lt hidx
  have harr := hfits.arrays
  refine ⟨⟨harr.outOffsets_length, harr.outEtype_length, harr.inOffsets_length, harr.inEtype_length⟩, hsafe, ?_⟩
  intro nodes edges hnodes hedges hids htypes hbytes
  rw [hbytes, fromBytes_toBytes (fits_build hnodes hedges hids htypes)] at h
  obtain rfl := Except.ok.inj h
  exact ⟨wellFormed_build hedges, hsafe (wellFormed_build hedges)⟩

/-- The bytes of a graph of two nodes and one edge. -/
theorem fromBytes_traversal_small : WellFormed (CsrGraph.build ["a", "b"] [("a", "b", "t")]) ∧
      TraversalSafe (CsrGraph.build ["a", "b"] [("a", "b", "t")]) := by
  have h : fromBytes (toBytes (CsrGraph.build ["a", "b"] [("a", "b", "t")])) =
      .ok (CsrGraph.build ["a", "b"] [("a", "b", "t")]) :=
    fromBytes_toBytes (fits_build (by decide) (by decide) (by decide) (by decide))
  exact (fromBytes_traversal _ _ h).2.2 ["a", "b"] [("a", "b", "t")] (by decide) (by decide)
    (by decide) (by decide) rfl

/-! ### What is not checked -/

/-- One node and no edge, but a row that is said to end at `5`. -/
def overlongRow : CsrGraph :=
  { ids := ["a"], idToIdx := indexIds ["a"], etypes := [], outOffsets := [0, 5], outTargets := [],
    outEtype := [], inOffsets := [0, 0], inSources := [], inEtype := [] }

/-- **The contents of the arrays are not checked**: the bytes of the graph above are accepted, the
graph is not well formed, and the first hop from its node is out of bounds. -/
theorem overlongRow_accepted : fromBytes (toBytes overlongRow) = .ok overlongRow ∧ ¬ WellFormed overlongRow ∧
      Checked.step overlongRow 0 .fwd .any = none ∧
      ∀ fuel, Checked.kHop overlongRow (fuel + 1) ["a"] 1 .fwd none = none := by
  have hfits : Fits overlongRow :=
    ⟨by decide, by decide, by decide, by decide, by decide, by decide,
      ⟨rfl, rfl, rfl, rfl, rfl, rfl, by decide, by decide, by decide, by decide, by decide,
        by decide⟩, rfl⟩
  refine ⟨fromBytes_toBytes hfits, fun h => ?_, rfl, fun fuel => rfl⟩
  exact absurd h.out.offsets_last (by decide)

end GraphTopo
