/-
**Communities.**

One level of community detection moves nodes between communities of a graph.  The hierarchical
version does so on a weighted adjacency, makes one node of every community, and goes on with these,
until a level merges nothing.
-/

import Pensieve.Components
import Pensieve.LocalMoving
import Pensieve.SafeCommunities

namespace GraphTopo

open Function
open Finset LocalMoving
open Checked (densify densifyLabel entryId)

/-! ### One level -/

def unitRow (g : CsrGraph) (dir : Direction) (u : ℕ) : Weights ℚ := (g.step u dir .any).map fun v => (v, 1)

namespace CsrGraph

variable (g : CsrGraph) (dir : Direction)

/-- `degrees`: of every node, and half of their sum. -/
def degrees : List ℚ × ℚ :=
  let deg := (List.range g.ids.length).map fun u => ((g.step u dir .any).length : ℚ)
  (deg, deg.sum / 2)

def tally (deg : List ℚ) (community : List ℕ) (maps : Weights ℚ × Weights ℚ) (u : ℕ) : Weights ℚ × Weights ℚ :=
  let cu := community.getD u 0
  (entryAdd maps.1 cu (deg.getD u 0),
    (g.step u dir .any).foldl (fun inC v => if community.getD v 0 = cu then entryAdd inC cu 1 else inC) maps.2)

def modularity (community : List ℕ) : ℚ :=
  if community.length ≠ g.ids.length then 0
  else if (g.degrees dir).2 = 0 then 0
  else
    let maps := (List.range g.ids.length).foldl (g.tally dir (g.degrees dir).1 community) ([], [])
    let twoM := 2 * (g.degrees dir).2
    (maps.1.map fun p => weightOf maps.2 p.1 / twoM - (p.2 / twoM) ^ 2).sum

def denseCommunities (comm : List ℕ) : List (String × ℕ) := g.ids.zip ((densify comm).1.map asU32)

def moveNode : Moving ℚ → ℕ → Moving ℚ := move (g.degrees dir).1 (2 * (g.degrees dir).2) (unitRow g dir)

def moveStart : Moving ℚ := ⟨List.range g.ids.length, (g.degrees dir).1, false⟩

def detectCommunities (maxPasses : ℕ) : List (String × ℕ) :=
  if (g.degrees dir).2 = 0 then g.denseCommunities (List.range g.ids.length)
  else g.denseCommunities (passes (g.moveNode dir) g.ids.length maxPasses (g.moveStart dir)).comm

def weightedAdjacency : List (Weights ℚ) :=
  (List.range g.ids.length).map fun u => (g.step u dir .any).foldl (fun row v => entryAdd row v 1) []

end CsrGraph

section Levels

variable (adj : List (Weights ℚ))

def weightedRow (u : ℕ) : Weights ℚ := (adj.getD u []).filter fun p => p.1 ≠ u

def weightedDegrees : List ℚ := adj.map fun row => (row.map Prod.snd).sum

def moveWeighted : Moving ℚ → ℕ → Moving ℚ :=
  move (weightedDegrees adj) (2 * ((weightedDegrees adj).sum / 2)) (weightedRow adj)

def weightedStart : Moving ℚ := ⟨List.range adj.length, weightedDegrees adj, false⟩

def louvainLocalMoving (maxPasses : ℕ) : List ℕ :=
  if (weightedDegrees adj).sum / 2 = 0 then List.range adj.length
  else (passes (moveWeighted adj) adj.length (max maxPasses 1) (weightedStart adj)).comm

/-- **`aggregate`**: the row of every node is added to that of its community. -/
def aggregate (comm : List ℕ) (k : ℕ) : List (Weights ℚ) :=
  (List.range adj.length).foldl
    (fun sup u => sup.modify (comm.getD u 0) (collect (fun v => comm.getD v 0) (adj.getD u [])))
    (List.replicate k [])

end Levels

/-- The adjacency of a level, and the node of it that each original node belongs to. -/
structure Level where
  adj : List (Weights ℚ)
  nodeComm : List ℕ

/-- **One level**, and whether there is a next one. -/
def Level.step (maxPasses : ℕ) (s : Level) : Level × Bool :=
  let d := densify (louvainLocalMoving s.adj maxPasses)
  let nodeComm := s.nodeComm.map fun c => d.1.getD c 0
  if d.2 = s.adj.length then (⟨s.adj, nodeComm⟩, false) else (⟨aggregate s.adj d.1 d.2, nodeComm⟩, true)

def levels (maxPasses : ℕ) : ℕ → Level → Level
  | 0, s => s
  | k + 1, s => if (s.step maxPasses).2 then levels maxPasses k (s.step maxPasses).1 else (s.step maxPasses).1

def CsrGraph.ground (g : CsrGraph) (dir : Direction) : Level := ⟨g.weightedAdjacency dir, List.range g.ids.length⟩

def CsrGraph.detectCommunitiesHierarchical (g : CsrGraph) (dir : Direction) (maxPassesPerLevel maxLevels : ℕ) :
    List (String × ℕ) :=
  g.denseCommunities ((levels maxPassesPerLevel (max maxLevels 1) (g.ground dir)).nodeComm.map asU32)

theorem find?_zipIdx (seen : List ℕ) (k r : ℕ) :
    (seen.zipIdx k).find? (fun p => p.1 = r) = if r ∈ seen then some (r, k + seen.idxOf r) else none := by
  induction seen generalizing k with
  | nil => rfl
  | cons c seen ih =>
    rw [List.zipIdx_cons]
    by_cases hc : c = r
    · subst hc
      rw [List.find?_cons_of_pos (by simp), if_pos (List.mem_cons_self ..), List.idxOf_cons_self]
      rfl
    · have hmem : r ∈ c :: seen ↔ r ∈ seen := by
        rw [List.mem_cons]
        exact ⟨fun h => h.resolve_left (Ne.symm hc), .inr⟩
      rw [List.find?_cons_of_neg (by simpa using hc), ih, List.idxOf_cons_ne _ hc]
      simp only [hmem]
      split
      · rw [show k + 1 + seen.idxOf r = k + (seen.idxOf r + 1) by omega]
      · rfl

theorem foldl_densifyLabel (rest seen done : List ℕ) (hdone : ∀ c ∈ done, c ∈ seen) (hseen : seen.Nodup) :
    ∃ seen' : List ℕ, seen'.Nodup ∧ (∀ c ∈ done ++ rest, c ∈ seen') ∧
      rest.foldl densifyLabel (seen.zipIdx, done.map fun c => seen.idxOf c) =
        (seen'.zipIdx, (done ++ rest).map fun c => seen'.idxOf c) := by
  induction rest generalizing seen done with
  | nil => exact ⟨seen, hseen, by simpa using hdone, by simp⟩
  | cons r rest ih =>
    have hfind := find?_zipIdx seen 0 r
    rw [List.foldl_cons]
    by_cases hr : r ∈ seen
    · have hstep : densifyLabel (seen.zipIdx, done.map fun c => seen.idxOf c) r =
          (seen.zipIdx, (done ++ [r]).map fun c => seen.idxOf c) := by
        rw [if_pos hr, Nat.zero_add] at hfind
        simp only [densifyLabel, entryId, hfind, List.map_append, List.map_singleton]
      have hall : ∀ c ∈ done ++ [r], c ∈ seen := by
        intro c hc
        rcases List.mem_append.1 hc with hc | hc
        · exact hdone c hc
        · rwa [List.mem_singleton.1 hc]
      obtain ⟨seen', hnodup, hmem, heq⟩ := ih seen (done ++ [r]) hall hseen
      rw [List.append_assoc, List.singleton_append] at hmem heq
      exact ⟨seen', hnodup, hmem, hstep ▸ heq⟩
    · have hidx : ∀ c ∈ seen, (seen ++ [r]).idxOf c = seen.idxOf c := fun c hc =>
        List.idxOf_append_of_mem hc
      have hnew : (seen ++ [r]).idxOf r = seen.length := by
        rw [List.idxOf_append_of_notMem hr, List.idxOf_cons_self, Nat.add_zero]
      have hstep : densifyLabel (seen.zipIdx, done.map fun c => seen.idxOf c) r =
          ((seen ++ [r]).zipIdx, (done ++ [r]).map fun c => (seen ++ [r]).idxOf c) := by
        rw [if_neg hr] at hfind
        simp only [densifyLabel, entryId, hfind, List.map_append, List.map_singleton, hnew,
          List.zipIdx_append, List.length_zipIdx, List.zipIdx_singleton, Nat.zero_add]
        rw [List.map_congr_left fun c hc => hidx c (hdone c hc)]
      have hall : ∀ c ∈ done ++ [r], c ∈ seen ++ [r] := by
        intro c hc
        rcases List.mem_append.1 hc with hc | hc
        · exact List.mem_append_left _ (hdone c hc)
        · exact List.mem_append_right _ hc
      have hnodup : (seen ++ [r]).Nodup :=
        List.nodup_append.2 ⟨hseen, List.nodup_singleton r, fun a ha b hb => by
          rw [List.mem_singleton.1 hb]
          exact fun h => hr (h ▸ ha)⟩
      obtain ⟨seen', hnodup', hmem, heq⟩ := ih (seen ++ [r]) (done ++ [r]) hall hnodup
      rw [List.append_assoc, List.singleton_append] at hmem heq
      exact ⟨seen', hnodup', hmem, hstep ▸ heq⟩

theorem densify_label_iff {raw : List ℕ} {u v : ℕ} (hu : u < raw.length) (hv : v < raw.length) :
    label (densify raw).1 u = label (densify raw).1 v ↔ label raw u = label raw v := by
  obtain ⟨seen, hnodup, hmem, heq⟩ := foldl_densifyLabel raw [] [] nofun List.nodup_nil
  have hlabels : (densify raw).1 = raw.map fun c => seen.idxOf c := congrArg Prod.snd heq
  have hget : ∀ i, i < raw.length → label (densify raw).1 i = seen.idxOf (label raw i) := by
    intro i hi
    rw [hlabels, label, label, List.getD_eq_getElem _ _ (by rwa [List.length_map]), List.getElem_map,
      List.getD_eq_getElem _ _ hi]
  have hin : label raw u ∈ seen := by
    refine hmem _ ?_
    rw [label, List.getD_eq_getElem _ _ hu]
    exact List.getElem_mem hu
  rw [hget u hu, hget v hv, List.idxOf_inj hin]

theorem densify_le (raw : List ℕ) : (densify raw).2 ≤ raw.length := by
  -- a label is one entry more at most
  have hlength : ∀ (rest : List ℕ) (s : List (ℕ × ℕ) × List ℕ),
      (rest.foldl densifyLabel s).1.length ≤ s.1.length + rest.length := by
    intro rest
    induction rest with
    | nil => exact fun _ => le_rfl
    | cons r rest ih =>
      intro s
      have hone : (densifyLabel s r).1.length ≤ s.1.length + 1 := by
        unfold densifyLabel entryId
        split
        · exact Nat.le_succ _
        · exact (List.length_append ..).le
      have hrest := ih (densifyLabel s r)
      rw [List.foldl_cons, List.length_cons]
      omega
  have h := hlength raw ([], [])
  rwa [List.length_nil, Nat.zero_add] at h

theorem label_densify_lt {raw : List ℕ} {v : ℕ} (hv : v < raw.length) :
    label (densify raw).1 v < (densify raw).2 := by
  obtain ⟨hlength, hlt⟩ := Checked.densify_spec raw
  refine hlt _ ?_
  rw [label, List.getD_eq_getElem _ _ (hlength.symm ▸ hv)]
  exact List.getElem_mem _

/-! ### The graph -/

def wOf (adj : List (Weights ℚ)) (u v : ℕ) : ℚ := weightOf (adj.getD u []) v

theorem sum_list_range (n : ℕ) (f : ℕ → ℚ) : ((List.range n).map f).sum = ∑ u ∈ range n, f u := by
  induction n with
  | zero => rfl
  | succ n ih => rw [List.range_succ, List.map_append, List.sum_append, sum_range_succ, ih, List.map_singleton,
      List.sum_singleton]

theorem sum_unit (l : List ℕ) (P : ℕ → Prop) [DecidablePred P] :
    (((l.map fun v => (v, (1 : ℚ))).filter fun p => P p.1).map Prod.snd).sum = (l.countP P : ℚ) := by
  induction l with
  | nil => rfl
  | cons a l ih =>
    rw [List.map_cons, List.filter_cons, List.countP_cons]
    by_cases ha : P a
    · rw [if_pos (decide_eq_true ha), List.map_cons, List.sum_cons, ih, if_pos (decide_eq_true ha)]
      push_cast
      ring
    · rw [if_neg (by simpa using ha), ih, if_neg (by simpa using ha), Nat.add_zero]

theorem foldl_entryAdd_one (l : List ℕ) :
    l.foldl (fun row v => entryAdd row v (1 : ℚ)) [] = collect id (l.map fun v => (v, (1 : ℚ))) [] := by
  rw [collect, List.foldl_map]
  rfl

theorem weightOf_unit (l : List ℕ) (v : ℕ) :
    weightOf (l.foldl (fun row v => entryAdd row v (1 : ℚ)) []) v = (l.count v : ℚ) := by
  rw [foldl_entryAdd_one, weightOf_collect]
  change 0 + (((l.map fun v => (v, (1 : ℚ))).filter fun p => p.1 = v).map Prod.snd).sum = _
  rw [zero_add, sum_unit l (· = v)]
  exact congrArg _ (List.countP_congr fun a _ => by simp)

section Build

variable {nodes : List String} {edges : List EdgeRow}

theorem count_scanRow_buildCsr (n : ℕ) (triples : List Triple) (hn : ∀ t ∈ triples, t.1 < n)
    (hlt : triples.length < 2 ^ 32) {v : ℕ} (hv : v < n) (w : ℕ) :
    (CsrGraph.scanRow (buildCsr n triples).2.1 (buildCsr n triples).2.2
        ((buildCsr n triples).1.getD v 0) ((buildCsr n triples).1.getD (v + 1) 0) .any).count w =
      triples.countP fun t => t.1 = v ∧ t.2.1 = w := by
  obtain ⟨hlen, hoff⟩ := buildCsr_offsets hn hlt
  have hrow := buildCsr_row hn hlt hv
  have htargets : CsrGraph.scanRow (buildCsr n triples).2.1 (buildCsr n triples).2.2
      ((buildCsr n triples).1.getD v 0) ((buildCsr n triples).1.getD (v + 1) 0) .any =
      ((triples.filter fun t => t.1 = v).map Prod.snd).map Prod.fst := by
    have hany : ∀ l : List ℕ, l.filter (fun i =>
        EtypeFilter.any.matches ((buildCsr n triples).2.2.getD i 0)) = l := fun l =>
      List.filter_eq_self.2 fun _ _ => rfl
    rw [CsrGraph.scanRow, hoff v hv.le, hoff (v + 1) hv, rank_succ, Nat.add_sub_cancel_left, ← hrow, List.map_map, hany]
    rfl
  rw [htargets, List.map_map, List.count, List.countP_map, List.countP_filter]
  refine List.countP_congr fun t _ => ?_
  simp only [Function.comp, beq_iff_eq, Bool.and_eq_true, decide_eq_true_eq]
  exact and_comm

variable {u : ℕ}

theorem count_step_build (hedges : (keepEdges nodes edges).kept.length < 2 ^ 32)
    (hu : u < (CsrGraph.build nodes edges).ids.length) (v : ℕ) :
    ((CsrGraph.build nodes edges).step u .both .any).count v =
      ((keepEdges nodes edges).kept.countP fun t => t.1 = u ∧ t.2.1 = v) +
        (keepEdges nodes edges).kept.countP fun t => t.1 = v ∧ t.2.1 = u := by
  have hout := count_scanRow_buildCsr (nodeDict nodes).names.length (keepEdges nodes edges).kept
    (fun t ht => (keepEdges_lt ht).1) hedges hu v
  have hin := count_scanRow_buildCsr (nodeDict nodes).names.length
    ((keepEdges nodes edges).kept.map fun t => (t.2.1, t.1, t.2.2))
    (fun t ht => by
      obtain ⟨t', ht', rfl⟩ := List.mem_map.1 ht
      exact (keepEdges_lt ht').2) (by simpa using hedges) hu v
  rw [List.countP_map] at hin
  have hswap : (keepEdges nodes edges).kept.countP
      ((fun t : Triple => decide (t.1 = u ∧ t.2.1 = v)) ∘ fun t => (t.2.1, t.1, t.2.2)) =
      (keepEdges nodes edges).kept.countP fun t => t.1 = v ∧ t.2.1 = u :=
    List.countP_congr fun t _ => by simp [and_comm]
  rw [hswap] at hin
  unfold CsrGraph.step
  rw [if_neg (by decide), if_neg (by decide), List.count_append]
  exact congrArg₂ (· + ·) hout hin

variable (nodes edges)

def buildWeight : ℕ → ℕ → ℚ := wOf ((CsrGraph.build nodes edges).weightedAdjacency .both)

variable {nodes edges}

theorem buildWeight_eq (hu : u < (CsrGraph.build nodes edges).ids.length) (v : ℕ) :
    buildWeight nodes edges u v = (((CsrGraph.build nodes edges).step u .both .any).count v : ℚ) := by
  have hrow : ((CsrGraph.build nodes edges).weightedAdjacency .both).getD u [] =
      ((CsrGraph.build nodes edges).step u .both .any).foldl (fun row v => entryAdd row v 1) [] := by
    rw [CsrGraph.weightedAdjacency, List.getD_eq_getElem _ _ (by simpa using hu), List.getElem_map,
      List.getElem_range]
  rw [buildWeight, wOf, hrow, weightOf_unit]

theorem buildWeight_of_le (hu : (CsrGraph.build nodes edges).ids.length ≤ u) (v : ℕ) :
    buildWeight nodes edges u v = 0 := by
  rw [buildWeight, wOf, List.getD_eq_default]
  · rfl
  · rw [CsrGraph.weightedAdjacency, List.length_map, List.length_range]
    exact hu

theorem buildWeight_nonneg (u v : ℕ) : 0 ≤ buildWeight nodes edges u v := by
  by_cases hu : u < (CsrGraph.build nodes edges).ids.length
  · rw [buildWeight_eq hu]
    exact Nat.cast_nonneg _
  · rw [buildWeight_of_le (not_lt.1 hu)]

theorem buildWeight_symm (hedges : (keepEdges nodes edges).kept.length < 2 ^ 32) (u v : ℕ) :
    buildWeight nodes edges u v = buildWeight nodes edges v u := by
  have hout : ∀ {u v : ℕ}, u < (CsrGraph.build nodes edges).ids.length →
      ¬ v < (CsrGraph.build nodes edges).ids.length → buildWeight nodes edges u v = 0 := by
    intro u v hu hv
    rw [buildWeight_eq hu, List.count_eq_zero_of_not_mem fun hmem => hv (step_build_lt hedges hmem)]
    rfl
  by_cases hu : u < (CsrGraph.build nodes edges).ids.length
  · by_cases hv : v < (CsrGraph.build nodes edges).ids.length
    · rw [buildWeight_eq hu, buildWeight_eq hv, count_step_build hedges hu, count_step_build hedges hv, Nat.add_comm]
    · rw [hout hu hv, buildWeight_of_le (not_lt.1 hv)]
  · by_cases hv : v < (CsrGraph.build nodes edges).ids.length
    · rw [hout hv hu, buildWeight_of_le (not_lt.1 hu)]
    · rw [buildWeight_of_le (not_lt.1 hu), buildWeight_of_le (not_lt.1 hv)]

theorem sum_buildWeight (hedges : (keepEdges nodes edges).kept.length < 2 ^ 32)
    (hu : u < (CsrGraph.build nodes edges).ids.length) (P : ℕ → Prop) [DecidablePred P] :
    ∑ v ∈ range (CsrGraph.build nodes edges).ids.length with P v, buildWeight nodes edges u v =
      (((CsrGraph.build nodes edges).step u .both .any).countP P : ℚ) := by
  have hlt : ∀ p ∈ unitRow (CsrGraph.build nodes edges) .both u, p.1 < (CsrGraph.build nodes edges).ids.length := by
    intro p hp
    obtain ⟨v, hv, rfl⟩ := List.mem_map.1 hp
    exact step_build_lt hedges hv
  rw [← sum_unit]
  change _ = (((unitRow (CsrGraph.build nodes edges) .both u).filter fun p => P p.1).map Prod.snd).sum
  rw [sum_row hlt P]
  refine sum_congr rfl fun v _ => ?_
  rw [buildWeight_eq hu, ← weightOf_unit, foldl_entryAdd_one]
  rfl

theorem degree_build (hedges : (keepEdges nodes edges).kept.length < 2 ^ 32)
    (hu : u < (CsrGraph.build nodes edges).ids.length) :
    Modularity.degree (range (CsrGraph.build nodes edges).ids.length) (buildWeight nodes edges) u =
      (((CsrGraph.build nodes edges).step u .both .any).length : ℚ) := by
  have hsum := sum_buildWeight hedges hu fun _ => True
  rw [filter_true_of_mem fun _ _ => trivial, List.countP_eq_length.2 fun _ _ => decide_eq_true trivial] at hsum
  exact hsum

theorem getD_degrees (g : CsrGraph) (dir : Direction) (hu : u < g.ids.length) :
    (g.degrees dir).1.getD u 0 = ((g.step u dir .any).length : ℚ) := by
  rw [CsrGraph.degrees, List.getD_eq_getElem _ _ (by simpa using hu), List.getElem_map, List.getElem_range]

theorem total_build (hedges : (keepEdges nodes edges).kept.length < 2 ^ 32) :
    2 * ((CsrGraph.build nodes edges).degrees .both).2 =
      Modularity.total (range (CsrGraph.build nodes edges).ids.length) (buildWeight nodes edges) := by
  rw [CsrGraph.degrees, mul_div_cancel₀ _ two_ne_zero, sum_list_range, Modularity.total]
  exact sum_congr rfl fun u hu => (degree_build hedges (mem_range.1 hu)).symm

theorem total_nonneg {n : ℕ} {w : ℕ → ℕ → ℚ} (hw : ∀ u v, 0 ≤ w u v) : 0 ≤ Modularity.total (range n) w :=
  sum_nonneg fun u _ => sum_nonneg fun v _ => hw u v

theorem weighs_build (hedges : (keepEdges nodes edges).kept.length < 2 ^ 32)
    (hm : ((CsrGraph.build nodes edges).degrees .both).2 ≠ 0) :
    Weighs (CsrGraph.build nodes edges).ids.length (buildWeight nodes edges)
      ((CsrGraph.build nodes edges).degrees .both).1 (2 * ((CsrGraph.build nodes edges).degrees .both).2)
      (unitRow (CsrGraph.build nodes edges) .both) (fun u => buildWeight nodes edges u u) where
  symm := buildWeight_symm hedges
  nonneg := buildWeight_nonneg
  loops_nonneg := fun u => buildWeight_nonneg u u
  length_deg := by rw [CsrGraph.degrees, List.length_map, List.length_range]
  deg := fun u hu => (getD_degrees _ _ hu).trans (degree_build hedges hu).symm
  total := total_build hedges
  total_pos := by
    have htotal : 0 ≤ Modularity.total (range (CsrGraph.build nodes edges).ids.length)
        (buildWeight nodes edges) := total_nonneg buildWeight_nonneg
    rw [← total_build hedges] at htotal
    exact lt_of_le_of_ne htotal (mul_ne_zero two_ne_zero hm).symm
  row_lt := fun u _ p hp => by
    obtain ⟨v, hv, rfl⟩ := List.mem_map.1 hp
    exact step_build_lt hedges hv
  row := fun u hu key C => by
    rw [unitRow, sum_unit _ fun v => key v = C, ← sum_buildWeight hedges hu, sum_community hu, add_comm]

end Build

section Computed

theorem weightOf_of_mem {m : Weights ℚ} (h : (keys m).Nodup) {p : ℕ × ℚ} (hp : p ∈ m) : weightOf m p.1 = p.2 := by
  induction m with
  | nil => cases hp
  | cons q m ih =>
    obtain ⟨k, x⟩ := q
    obtain ⟨hnot, hnodup⟩ := List.nodup_cons.1 h
    rw [weightOf_cons]
    rcases List.mem_cons.1 hp with rfl | hmem
    · exact if_pos rfl
    · have hne : ¬ k = p.1 := by
        rintro rfl
        exact hnot (List.mem_map.2 ⟨p, hmem, rfl⟩)
      rw [if_neg hne]
      exact ih hnodup hmem

theorem weightOf_foldl_inner (community : List ℕ) (cu : ℕ) (nbrs : List ℕ) (inC : Weights ℚ) (C : ℕ) :
    weightOf (nbrs.foldl (fun inC v => if community.getD v 0 = cu then entryAdd inC cu 1 else inC) inC) C =
      weightOf inC C + if cu = C then (nbrs.countP (label community · = C) : ℚ) else 0 := by
  induction nbrs generalizing inC with
  | nil => simp
  | cons v nbrs ih =>
    rw [List.foldl_cons, ih, List.countP_cons]
    by_cases hv : community.getD v 0 = cu
    · rw [if_pos hv, weightOf_entryAdd]
      by_cases hcu : cu = C
      · have hlabel : label community v = C := hv.trans hcu
        simp only [if_pos hcu, hlabel, decide_true, if_true]
        push_cast
        ring
      · simp only [if_neg hcu, add_zero]
    · rw [if_neg hv]
      by_cases hcu : cu = C
      · have hlabel : ¬ label community v = C := fun h => hv (h.trans hcu.symm)
        simp only [if_pos hcu, hlabel, decide_false, Bool.false_eq_true, if_false, Nat.add_zero]
      · rw [if_neg hcu, if_neg hcu]

variable (g : CsrGraph) (dir : Direction) (deg : List ℚ) (community : List ℕ)

theorem tally_range (n : ℕ) (C : ℕ) : weightOf ((List.range n).foldl (g.tally dir deg community) ([], [])).1 C =
        ∑ u ∈ range n with label community u = C, deg.getD u 0 ∧
      weightOf ((List.range n).foldl (g.tally dir deg community) ([], [])).2 C =
        ∑ u ∈ range n with label community u = C, ((g.step u dir .any).countP (label community · = C) : ℚ) := by
  induction n with
  | zero => exact ⟨rfl, rfl⟩
  | succ n ih =>
    rw [List.range_succ, List.foldl_append, List.foldl_cons, List.foldl_nil]
    obtain ⟨htot, hin⟩ := ih
    rw [CsrGraph.tally, weightOf_entryAdd, weightOf_foldl_inner, htot, hin, sum_filter, sum_filter,
      sum_filter, sum_filter, sum_range_succ, sum_range_succ]
    exact ⟨rfl, rfl⟩

theorem keys_tally_range (n : ℕ) : (keys ((List.range n).foldl (g.tally dir deg community) ([], [])).1).Nodup ∧
      ∀ u < n, label community u ∈ keys ((List.range n).foldl (g.tally dir deg community) ([], [])).1 := by
  induction n with
  | zero => exact ⟨List.nodup_nil, nofun⟩
  | succ n ih =>
    rw [List.range_succ, List.foldl_append, List.foldl_cons, List.foldl_nil]
    obtain ⟨hnodup, hmem⟩ := ih
    refine ⟨nodup_keys_entryAdd hnodup _ _, fun u hu => mem_keys_entryAdd.2 ?_⟩
    rcases Nat.lt_succ_iff_lt_or_eq.1 hu with hless | rfl
    · exact .inl (hmem u hless)
    · exact .inr rfl

variable {nodes : List String} {edges : List EdgeRow} {community}

theorem modularity_eq (hedges : (keepEdges nodes edges).kept.length < 2 ^ 32)
    (hlength : community.length = (CsrGraph.build nodes edges).ids.length) :
    (CsrGraph.build nodes edges).modularity .both community =
      quality (CsrGraph.build nodes edges).ids.length (buildWeight nodes edges) community := by
  have htotal := total_build hedges
  rw [CsrGraph.modularity, if_neg (not_not.2 hlength), quality]
  split
  · rename_i hm
    rw [hm, mul_zero] at htotal
    rw [Modularity.modularity, ← htotal, div_zero]
  · obtain ⟨hnodup, hmem⟩ := keys_tally_range (CsrGraph.build nodes edges) .both
      ((CsrGraph.build nodes edges).degrees .both).1 community (CsrGraph.build nodes edges).ids.length
    have htally := tally_range (CsrGraph.build nodes edges) .both
      ((CsrGraph.build nodes edges).degrees .both).1 community (CsrGraph.build nodes edges).ids.length
    rw [Modularity.modularity_eq_sum (S := (keys ((List.range (CsrGraph.build nodes edges).ids.length).foldl
      ((CsrGraph.build nodes edges).tally .both ((CsrGraph.build nodes edges).degrees .both).1 community)
      ([], [])).1).toFinset) fun u hu => List.mem_toFinset.2 (hmem u (mem_range.1 hu)),
      List.sum_toFinset _ hnodup, keys, List.map_map, htotal]
    refine congrArg List.sum (List.map_congr_left fun p hp => ?_)
    have hvolume : p.2 = Modularity.volume (range (CsrGraph.build nodes edges).ids.length)
        (buildWeight nodes edges) (label community) p.1 := by
      rw [← weightOf_of_mem hnodup hp, (htally p.1).1, Modularity.volume]
      refine sum_congr rfl fun u hu => ?_
      have hu := mem_range.1 (mem_filter.1 hu).1
      rw [getD_degrees _ _ hu, degree_build hedges hu]
    have hinside : weightOf ((List.range (CsrGraph.build nodes edges).ids.length).foldl
        ((CsrGraph.build nodes edges).tally .both ((CsrGraph.build nodes edges).degrees .both).1 community)
        ([], [])).2 p.1 = Modularity.inside (range (CsrGraph.build nodes edges).ids.length)
        (buildWeight nodes edges) (label community) p.1 := by
      rw [(htally p.1).2, Modularity.inside]
      refine sum_congr rfl fun u hu => ?_
      exact (sum_buildWeight hedges (mem_range.1 (mem_filter.1 hu).1) fun v => label community v = p.1).symm
    rw [comp_apply, ← hvolume, ← hinside]

end Computed

/-! ### Levels -/

/-- **A weighted adjacency**: rows with distinct keys, which are numbers of rows, and symmetric weights. -/
structure Adjacency (adj : List (Weights ℚ)) : Prop where
  nodup : ∀ u, (keys (adj.getD u [])).Nodup
  lt : ∀ u, ∀ v ∈ keys (adj.getD u []), v < adj.length
  symm : ∀ u v, wOf adj u v = wOf adj v u
  nonneg : ∀ u v, 0 ≤ wOf adj u v

section Weighted

variable {adj : List (Weights ℚ)}

theorem Adjacency.sum_filter (h : Adjacency adj) (u : ℕ) (P : ℕ → Prop) [DecidablePred P] :
    (((adj.getD u []).filter fun p => P p.1).map Prod.snd).sum = ∑ v ∈ range adj.length with P v, wOf adj u v :=
  sum_values (h.nodup u) (h.lt u) P

theorem Adjacency.getD_degrees (h : Adjacency adj) {u : ℕ} (hu : u < adj.length) :
    (weightedDegrees adj).getD u 0 = Modularity.degree (range adj.length) (wOf adj) u := by
  have hrow := h.sum_filter u fun _ => True
  rw [filter_true_of_mem fun _ _ => trivial, List.filter_eq_self.2 fun _ _ => decide_eq_true trivial] at hrow
  rw [weightedDegrees, List.getD_eq_getElem _ _ (by rwa [List.length_map]), List.getElem_map, Modularity.degree,
    ← hrow, List.getD_eq_getElem _ _ hu]

theorem Adjacency.total (h : Adjacency adj) :
    2 * ((weightedDegrees adj).sum / 2) = Modularity.total (range adj.length) (wOf adj) := by
  have hdegrees : weightedDegrees adj = (List.range adj.length).map fun u => (weightedDegrees adj).getD u 0 := by
    refine List.ext_getElem (by simp [weightedDegrees]) fun i hi hi' => ?_
    rw [List.getElem_map, List.getElem_range, List.getD_eq_getElem _ _ hi]
  rw [mul_div_cancel₀ _ two_ne_zero, hdegrees, sum_list_range, Modularity.total]
  refine sum_congr rfl fun u hu => ?_
  exact h.getD_degrees (mem_range.1 hu)

theorem Adjacency.weighs (h : Adjacency adj) (hm : (weightedDegrees adj).sum / 2 ≠ 0) :
    Weighs adj.length (wOf adj) (weightedDegrees adj) (2 * ((weightedDegrees adj).sum / 2)) (weightedRow adj)
      fun _ => 0 where
  symm := h.symm
  nonneg := h.nonneg
  loops_nonneg := fun _ => le_rfl
  length_deg := by rw [weightedDegrees, List.length_map]
  deg := fun u hu => h.getD_degrees hu
  total := h.total
  total_pos := by
    have htotal : 0 ≤ Modularity.total (range adj.length) (wOf adj) := total_nonneg h.nonneg
    rw [← h.total] at htotal
    exact lt_of_le_of_ne htotal (mul_ne_zero two_ne_zero hm).symm
  row_lt := fun u _ p hp => h.lt u p.1 (List.mem_map_of_mem (List.mem_filter.1 hp).1)
  row := fun u _ key C => by
    have hrow := h.sum_filter u fun v => key v = C ∧ v ≠ u
    rw [weightedRow, List.filter_filter, ite_self, add_zero]
    have hsame : (adj.getD u []).filter (fun p => decide (key p.1 = C) && decide (p.1 ≠ u)) =
        (adj.getD u []).filter fun p => decide (key p.1 = C ∧ p.1 ≠ u) :=
      List.filter_congr fun p _ => (Bool.decide_and ..).symm
    rw [hsame, hrow]
    refine sum_congr ?_ fun _ _ => rfl
    ext v
    simp only [mem_filter, mem_erase]
    tauto

theorem inv_start {n : ℕ} {w : ℕ → ℕ → ℚ} {deg : List ℚ} (hlength : deg.length = n)
    (hdeg : ∀ u < n, deg.getD u 0 = Modularity.degree (range n) w u) (moved : Bool) :
    Inv n w ⟨List.range n, deg, moved⟩ := by
  have hlabel : ∀ v < n, label (List.range n) v = v := by
    intro v hv
    rw [label, List.getD_eq_getElem _ _ (by rwa [List.length_range]), List.getElem_range]
  refine ⟨List.length_range, fun v hv => ?_, hlength, fun C hC => ?_⟩
  · dsimp only
    rwa [hlabel v hv]
  · dsimp only
    have hself : (range n).filter (fun v => label (List.range n) v = C) = {C} := by
      ext v
      simp only [mem_filter, mem_range, mem_singleton]
      constructor
      · rintro ⟨hv, rfl⟩
        exact (hlabel v hv).symm
      · rintro rfl
        exact ⟨hC, hlabel v hC⟩
    rw [hdeg C hC, Modularity.volume, hself, sum_singleton]

theorem Adjacency.louvainLocalMoving (h : Adjacency adj) (maxPasses : ℕ) :
    (GraphTopo.louvainLocalMoving adj maxPasses).length = adj.length ∧
      quality adj.length (wOf adj) (List.range adj.length) ≤
        quality adj.length (wOf adj) (GraphTopo.louvainLocalMoving adj maxPasses) := by
  unfold GraphTopo.louvainLocalMoving
  split
  · exact ⟨List.length_range, le_rfl⟩
  · rename_i hm
    have hstart : Inv adj.length (wOf adj) (weightedStart adj) :=
      inv_start (by rw [weightedDegrees, List.length_map]) (fun u hu => h.getD_degrees hu) false
    obtain ⟨hinv, hle⟩ := modularity_passes (h.weighs hm) hstart (max maxPasses 1)
    exact ⟨hinv.length_comm, hle⟩

theorem weightOf_foldl_aggregate (comm : List ℕ) (k m : ℕ) {i : ℕ} (hi : i < k) (j : ℕ) :
    ((List.range m).foldl (fun sup u => sup.modify (comm.getD u 0) (collect (fun v => comm.getD v 0) (adj.getD u [])))
        (List.replicate k [])).length = k ∧ weightOf (((List.range m).foldl
        (fun sup u => sup.modify (comm.getD u 0) (collect (fun v => comm.getD v 0) (adj.getD u [])))
        (List.replicate k [])).getD i []) j = ∑ u ∈ range m with label comm u = i,
        (((adj.getD u []).filter fun p => label comm p.1 = j).map Prod.snd).sum := by
  induction m with
  | zero =>
    refine ⟨List.length_replicate, ?_⟩
    change weightOf ((List.replicate k ([] : Weights ℚ)).getD i []) j = 0
    rw [List.getD_eq_getElem _ _ (by rwa [List.length_replicate]), List.getElem_replicate]
    rfl
  | succ m ih =>
    obtain ⟨hlength, hsum⟩ := ih
    rw [List.range_succ, List.foldl_append, List.foldl_cons, List.foldl_nil]
    refine ⟨by rw [List.length_modify, hlength], ?_⟩
    rw [Finset.sum_filter, sum_range_succ, ← Finset.sum_filter, ← hsum,
      LocalMoving.getD_modify _ _ _ _ (hlength.symm ▸ hi)]
    by_cases hm : i = comm.getD m 0
    · have hlabel : label comm m = i := hm.symm
      rw [if_pos hm, if_pos hlabel, weightOf_collect]
      rfl
    · have hlabel : ¬ label comm m = i := Ne.symm hm
      rw [if_neg hm, if_neg hlabel, add_zero]

theorem wOf_aggregate (h : Adjacency adj) (comm : List ℕ) {k i : ℕ} (hi : i < k) (j : ℕ) :
    wOf (aggregate adj comm k) i j = Modularity.aggregate (range adj.length) (wOf adj) (label comm) i j := by
  rw [wOf, aggregate, (weightOf_foldl_aggregate comm k adj.length hi j).2, Modularity.aggregate]
  refine sum_congr rfl fun u _ => ?_
  exact h.sum_filter u fun v => label comm v = j

theorem length_aggregate (comm : List ℕ) (k : ℕ) : (aggregate adj comm k).length = k := by
  have hlength : ∀ (us : List ℕ) (sup : List (Weights ℚ)), (us.foldl
      (fun sup u => sup.modify (comm.getD u 0) (collect (fun v => comm.getD v 0) (adj.getD u []))) sup).length =
      sup.length := by
    intro us
    induction us with
    | nil => exact fun _ => rfl
    | cons u us ih => exact fun sup => (ih _).trans (List.length_modify ..)
  exact (hlength _ _).trans List.length_replicate

theorem keys_aggregate (comm : List ℕ) (k i : ℕ) : (keys ((aggregate adj comm k).getD i [])).Nodup ∧
      ∀ j ∈ keys ((aggregate adj comm k).getD i []), ∃ u, ∃ v ∈ keys (adj.getD u []), label comm v = j := by
  have hrows : ∀ (us : List ℕ) (sup : List (Weights ℚ)),
      ((keys (sup.getD i [])).Nodup ∧ ∀ j ∈ keys (sup.getD i []), ∃ u, ∃ v ∈ keys (adj.getD u []), label comm v = j) →
      (keys ((us.foldl (fun sup u =>
        sup.modify (comm.getD u 0) (collect (fun v => comm.getD v 0) (adj.getD u []))) sup).getD i [])).Nodup ∧
      ∀ j ∈ keys ((us.foldl (fun sup u =>
        sup.modify (comm.getD u 0) (collect (fun v => comm.getD v 0) (adj.getD u []))) sup).getD i []),
        ∃ u, ∃ v ∈ keys (adj.getD u []), label comm v = j := by
    intro us
    induction us with
    | nil => exact fun _ h => h
    | cons u us ih =>
      intro sup h
      refine ih _ ?_
      by_cases hi : i < sup.length
      · rw [LocalMoving.getD_modify _ _ _ _ hi]
        split
        · refine ⟨nodup_keys_collect h.1, fun j hj => ?_⟩
          rcases mem_keys_collect.1 hj with hj | ⟨p, hp, hj⟩
          · exact h.2 j hj
          · exact ⟨u, p.1, List.mem_map_of_mem hp, hj⟩
        · exact h
      · rw [List.getD_eq_default _ _ (by rw [List.length_modify]; omega)]
        exact ⟨List.nodup_nil, nofun⟩
  refine hrows _ _ ?_
  have hempty : (List.replicate k ([] : Weights ℚ)).getD i [] = [] := by
    rw [List.getD_eq_getElem?_getD, List.getElem?_replicate]
    split <;> rfl
  rw [hempty]
  exact ⟨List.nodup_nil, nofun⟩

theorem wOf_of_le {u : ℕ} (hu : adj.length ≤ u) (v : ℕ) : wOf adj u v = 0 := by
  rw [wOf, List.getD_eq_default _ _ hu]
  rfl

theorem Adjacency.aggregate (h : Adjacency adj) {comm : List ℕ} {k : ℕ}
    (hk : ∀ v < adj.length, label comm v < k) : Adjacency (GraphTopo.aggregate adj comm k) where
  nodup := fun u => (keys_aggregate comm k u).1
  lt := by
    intro u j hj
    obtain ⟨u', v, hv, rfl⟩ := (keys_aggregate comm k u).2 j hj
    rw [length_aggregate]
    exact hk v (h.lt u' v hv)
  symm := by
    -- nothing goes to a number that is no community
    have hzero : ∀ {i j : ℕ}, i < k → ¬ j < k → wOf (GraphTopo.aggregate adj comm k) i j = 0 := by
      intro i j hi hj
      rw [wOf_aggregate h comm hi, Modularity.aggregate]
      have hnone : (range adj.length).filter (fun v => label comm v = j) = ∅ :=
        filter_eq_empty_iff.2 fun v hv hlabel => hj (hlabel ▸ hk v (mem_range.1 hv))
      rw [hnone]
      exact sum_eq_zero fun _ _ => sum_empty
    have hout : ∀ {i : ℕ} (j : ℕ), ¬ i < k → wOf (GraphTopo.aggregate adj comm k) i j = 0 := by
      intro i j hi
      exact wOf_of_le ((length_aggregate comm k).trans_le (not_lt.1 hi)) j
    intro i j
    by_cases hi : i < k
    · by_cases hj : j < k
      · rw [wOf_aggregate h comm hi, wOf_aggregate h comm hj, Modularity.aggregate, Modularity.aggregate, sum_comm]
        exact sum_congr rfl fun v _ => sum_congr rfl fun u _ => h.symm u v
      · rw [hzero hi hj, hout i hj]
    · by_cases hj : j < k
      · rw [hout j hi, hzero hj hi]
      · rw [hout j hi, hout i hj]
  nonneg := by
    intro i j
    by_cases hi : i < k
    · rw [wOf_aggregate h comm hi, Modularity.aggregate]
      exact sum_nonneg fun u _ => sum_nonneg fun v _ => h.nonneg u v
    · rw [wOf_of_le ((length_aggregate comm k).trans_le (not_lt.1 hi))]

/-- **What aggregation keeps**: the total, the degrees of every community, and the modularity of every
labelling of the communities. -/
theorem Adjacency.aggregate_keeps (h : Adjacency adj) {comm : List ℕ} {k : ℕ}
    (hk : ∀ v < adj.length, label comm v < k) :
    (weightedDegrees (GraphTopo.aggregate adj comm k)).sum = (weightedDegrees adj).sum ∧
      (∀ i < k, (weightedDegrees (GraphTopo.aggregate adj comm k)).getD i 0 =
        ∑ u ∈ range adj.length with label comm u = i, (weightedDegrees adj).getD u 0) ∧
      ∀ c : ℕ → ℕ, Modularity.modularity (range k) (wOf (GraphTopo.aggregate adj comm k)) c =
        Modularity.modularity (range adj.length) (wOf adj) (c ∘ label comm) := by
  have hsup := h.aggregate hk
  have hmem : ∀ u ∈ range adj.length, label comm u ∈ range k := fun u hu =>
    mem_range.2 (hk u (mem_range.1 hu))
  have hweight : ∀ i ∈ range k, ∀ j ∈ range k, wOf (GraphTopo.aggregate adj comm k) i j =
      Modularity.aggregate (range adj.length) (wOf adj) (label comm) i j := fun i hi j _ =>
    wOf_aggregate h comm (mem_range.1 hi) j
  have hdegree : ∀ i < k, (weightedDegrees (GraphTopo.aggregate adj comm k)).getD i 0 =
      ∑ u ∈ range adj.length with label comm u = i, Modularity.degree (range adj.length) (wOf adj) u := by
    intro i hi
    rw [hsup.getD_degrees (hi.trans_eq (length_aggregate comm k).symm), length_aggregate,
      ← Modularity.degree_aggregate hmem]
    exact sum_congr rfl fun j hj => hweight i (mem_range.2 hi) j hj
  refine ⟨?_, fun i hi => ?_, fun c => ?_⟩
  · have htotal := hsup.total
    rw [length_aggregate, mul_div_cancel₀ _ two_ne_zero] at htotal
    have htotal' := h.total
    rw [mul_div_cancel₀ _ two_ne_zero] at htotal'
    rw [htotal, htotal', ← Modularity.total_aggregate hmem]
    exact sum_congr rfl fun i hi => sum_congr rfl fun j hj => hweight i hi j hj
  · rw [hdegree i hi]
    refine sum_congr rfl fun u hu => ?_
    exact (h.getD_degrees (mem_range.1 (mem_filter.1 hu).1)).symm
  · rw [Modularity.modularity_congr_weight hweight, Modularity.modularity_aggregate hmem]

end Weighted

theorem label_range {n v : ℕ} (hv : v < n) : label (List.range n) v = v := by
  rw [label, List.getD_eq_getElem _ _ (by rwa [List.length_range]), List.getElem_range]

theorem label_map {l : List ℕ} (f : ℕ → ℕ) {v : ℕ} (hv : v < l.length) : label (l.map f) v = f (label l v) := by
  rw [label, label, List.getD_eq_getElem _ _ (by rwa [List.length_map]), List.getElem_map,
    List.getD_eq_getElem _ _ hv]

/-- **The invariant of levels**: the weights of a level are those between the communities of the nodes. -/
structure Level.Inv (n : ℕ) (w : ℕ → ℕ → ℚ) (s : Level) : Prop where
  adj : Adjacency s.adj
  le : s.adj.length ≤ n
  length : s.nodeComm.length = n
  lt : ∀ v < n, label s.nodeComm v < s.adj.length
  weight : ∀ i < s.adj.length, ∀ j < s.adj.length,
    wOf s.adj i j = Modularity.aggregate (range n) w (label s.nodeComm) i j

section Run

variable {n : ℕ} {w : ℕ → ℕ → ℚ} {s : Level} {maxPasses : ℕ}

theorem Level.Inv.modularity_eq (h : s.Inv n w) (c : ℕ → ℕ) : Modularity.modularity (range s.adj.length) (wOf s.adj) c =
      Modularity.modularity (range n) w (c ∘ label s.nodeComm) := by
  have hmem : ∀ v ∈ range n, label s.nodeComm v ∈ range s.adj.length := fun v hv =>
    mem_range.2 (h.lt v (mem_range.1 hv))
  rw [← Modularity.modularity_aggregate hmem]
  refine Modularity.modularity_congr_weight (fun i hi j hj => ?_) c
  exact h.weight i (mem_range.1 hi) j (mem_range.1 hj)

structure Level.Sound (n : ℕ) (s : Level) : Prop where
  adj : Adjacency s.adj
  le : s.adj.length ≤ n
  length : s.nodeComm.length = n
  lt : ∀ v < n, label s.nodeComm v < n

theorem Level.Inv.sound (h : s.Inv n w) : s.Sound n := ⟨h.adj, h.le, h.length, fun v hv => (h.lt v hv).trans_le h.le⟩

/-- **One level** keeps the invariant if another one follows, and does not lower the modularity. -/
theorem Level.Inv.step (h : s.Inv n w) (maxPasses : ℕ) :
    ((s.step maxPasses).2 = true → (s.step maxPasses).1.Inv n w) ∧ (s.step maxPasses).1.Sound n ∧
      quality n w s.nodeComm ≤ quality n w (s.step maxPasses).1.nodeComm := by
  obtain ⟨hraw, hbetter⟩ := h.adj.louvainLocalMoving maxPasses
  obtain ⟨d, hd⟩ : ∃ d, d = densify (GraphTopo.louvainLocalMoving s.adj maxPasses) := ⟨_, rfl⟩
  have hdlength : d.1.length = s.adj.length := by
    rw [hd, (Checked.densify_spec _).1, hraw]
  have hdlt : ∀ v < s.adj.length, label d.1 v < d.2 := fun v hv => hd ▸ label_densify_lt (hraw.symm ▸ hv)
  have hdle : d.2 ≤ n := ((hd ▸ densify_le _).trans_eq hraw).trans h.le
  have hnodeComm : ∀ v < n, label (s.nodeComm.map fun c => d.1.getD c 0) v = label d.1 (label s.nodeComm v) :=
    fun v hv => label_map (fun c => d.1.getD c 0) (h.length.symm ▸ hv)
  have hlt : ∀ v < n, label (s.nodeComm.map fun c => d.1.getD c 0) v < d.2 := by
    intro v hv
    rw [hnodeComm v hv]
    exact hdlt _ (h.lt v hv)
  have hlength : (s.nodeComm.map fun c => d.1.getD c 0).length = n := by rw [List.length_map, h.length]
  have hquality : quality n w s.nodeComm ≤ quality n w (s.nodeComm.map fun c => d.1.getD c 0) := by
    -- from the nodes to the level and back
    have hstart : quality s.adj.length (wOf s.adj) (List.range s.adj.length) = quality n w s.nodeComm := by
      rw [quality, h.modularity_eq]
      refine Modularity.modularity_congr fun u hu v hv => ?_
      rw [comp_apply, comp_apply, label_range (h.lt u (mem_range.1 hu)), label_range (h.lt v (mem_range.1 hv))]
    have hend : quality s.adj.length (wOf s.adj) (GraphTopo.louvainLocalMoving s.adj maxPasses) =
        quality n w (s.nodeComm.map fun c => d.1.getD c 0) := by
      rw [quality, h.modularity_eq]
      refine Modularity.modularity_congr fun u hu v hv => ?_
      have hu := mem_range.1 hu
      have hv := mem_range.1 hv
      rw [hnodeComm u hu, hnodeComm v hv, comp_apply, comp_apply, hd,
        densify_label_iff (hraw.symm ▸ h.lt u hu) (hraw.symm ▸ h.lt v hv)]
    rwa [hstart, hend] at hbetter
  unfold Level.step
  rw [← hd]
  dsimp only
  split
  · exact ⟨nofun, ⟨h.adj, h.le, hlength, fun v hv => (hlt v hv).trans_le hdle⟩, hquality⟩
  · have hnext : Level.Inv n w ⟨aggregate s.adj d.1 d.2, s.nodeComm.map fun c => d.1.getD c 0⟩ := by
      refine ⟨h.adj.aggregate hdlt, (length_aggregate ..).trans_le hdle, hlength, fun v hv => ?_, fun i hi j _ => ?_⟩
      · dsimp only
        rw [length_aggregate]
        exact hlt v hv
      · dsimp only at hi ⊢
        rw [length_aggregate] at hi
        have hmem : ∀ v ∈ range n, label s.nodeComm v ∈ range s.adj.length := fun v hv =>
          mem_range.2 (h.lt v (mem_range.1 hv))
        have hlevel : Modularity.aggregate (range s.adj.length) (wOf s.adj) (label d.1) i j =
            Modularity.aggregate (range s.adj.length)
              (Modularity.aggregate (range n) w (label s.nodeComm)) (label d.1) i j :=
          sum_congr rfl fun u hu => sum_congr rfl fun v hv =>
            h.weight u (mem_range.1 (mem_filter.1 hu).1) v (mem_range.1 (mem_filter.1 hv).1)
        have hfibers : ∀ l, (range n).filter (fun v => (label d.1 ∘ label s.nodeComm) v = l) =
            (range n).filter fun v => label (s.nodeComm.map fun c => d.1.getD c 0) v = l := fun l =>
          filter_congr fun v hv => by rw [comp_apply, hnodeComm v (mem_range.1 hv)]
        rw [wOf_aggregate h.adj d.1 hi, hlevel, Modularity.aggregate_aggregate hmem, Modularity.aggregate,
          Modularity.aggregate, hfibers, hfibers]
    exact ⟨fun _ => hnext, hnext.sound, hquality⟩

theorem Level.Inv.levels (h : s.Inv n w) (k : ℕ) : (GraphTopo.levels maxPasses k s).Sound n := by
  induction k generalizing s with
  | zero => exact h.sound
  | succ k ih =>
    obtain ⟨hinv, hsound, -⟩ := h.step maxPasses
    unfold GraphTopo.levels
    split
    · rename_i hnext
      exact ih (hinv hnext)
    · exact hsound

theorem Level.Inv.levels_succ (h : s.Inv n w) (k : ℕ) : quality n w (GraphTopo.levels maxPasses k s).nodeComm ≤
      quality n w (GraphTopo.levels maxPasses (k + 1) s).nodeComm := by
  induction k generalizing s with
  | zero =>
    obtain ⟨-, -, hquality⟩ := h.step maxPasses
    have hone : GraphTopo.levels maxPasses 1 s = (s.step maxPasses).1 := ite_self _
    rw [hone]
    exact hquality
  | succ k ih =>
    obtain ⟨hinv, -, -⟩ := h.step maxPasses
    unfold GraphTopo.levels
    split
    · rename_i hnext
      exact ih (hinv hnext)
    · exact le_rfl

end Run

section Ground

variable {nodes : List String} {edges : List EdgeRow}

theorem length_weightedAdjacency (g : CsrGraph) (dir : Direction) :
    (g.weightedAdjacency dir).length = g.ids.length := by
  rw [CsrGraph.weightedAdjacency, List.length_map, List.length_range]

theorem inv_ground (hedges : (keepEdges nodes edges).kept.length < 2 ^ 32) :
    ((CsrGraph.build nodes edges).ground .both).Inv (CsrGraph.build nodes edges).ids.length
      (buildWeight nodes edges) := by
  have hkeys : ∀ u, (keys (((CsrGraph.build nodes edges).weightedAdjacency .both).getD u [])).Nodup ∧
      ∀ v ∈ keys (((CsrGraph.build nodes edges).weightedAdjacency .both).getD u []),
        v < (CsrGraph.build nodes edges).ids.length := by
    intro u
    by_cases hu : u < (CsrGraph.build nodes edges).ids.length
    · rw [CsrGraph.weightedAdjacency, List.getD_eq_getElem _ _ (by simpa using hu), List.getElem_map,
        List.getElem_range, foldl_entryAdd_one]
      refine ⟨nodup_keys_collect List.nodup_nil, fun v hv => ?_⟩
      rcases mem_keys_collect.1 hv with hv | ⟨p, hp, rfl⟩
      · cases hv
      · obtain ⟨x, hx, rfl⟩ := List.mem_map.1 hp
        exact step_build_lt hedges hx
    · rw [List.getD_eq_default _ _ (by rw [length_weightedAdjacency]; omega)]
      exact ⟨List.nodup_nil, nofun⟩
  refine ⟨⟨fun u => (hkeys u).1, fun u v hv => ?_, buildWeight_symm hedges, buildWeight_nonneg⟩,
    (length_weightedAdjacency ..).le, List.length_range, fun v hv => ?_, fun i hi j hj => ?_⟩
  · exact (hkeys u).2 v hv |>.trans_eq (length_weightedAdjacency ..).symm
  · rw [CsrGraph.ground, label_range hv, length_weightedAdjacency]
    exact hv
  · have hself : ∀ l < (CsrGraph.build nodes edges).ids.length, (range (CsrGraph.build nodes edges).ids.length).filter
          (fun v => label (List.range (CsrGraph.build nodes edges).ids.length) v = l) = {l} := by
      intro l hl
      ext v
      simp only [mem_filter, mem_range, mem_singleton]
      constructor
      · rintro ⟨hv, hlabel⟩
        rwa [label_range hv] at hlabel
      · rintro rfl
        exact ⟨hl, label_range hl⟩
    dsimp only [CsrGraph.ground] at hi hj ⊢
    rw [length_weightedAdjacency] at hi hj
    rw [Modularity.aggregate, hself i hi, hself j hj, sum_singleton, sum_singleton]
    rfl

theorem modularity_dense (h : BelowMark nodes edges) {comm : List ℕ}
    (hlength : comm.length = (CsrGraph.build nodes edges).ids.length) : (CsrGraph.build nodes edges).modularity .both
        (((CsrGraph.build nodes edges).denseCommunities comm).map Prod.snd) =
      quality (CsrGraph.build nodes edges).ids.length (buildWeight nodes edges) comm := by
  have hnodes : (CsrGraph.build nodes edges).ids.length < 2 ^ 32 := names_length_nodeDict nodes ▸ h.1
  have hedges : (keepEdges nodes edges).kept.length < 2 ^ 32 := kept_length nodes edges ▸ h.2
  obtain ⟨hdense, hlt⟩ := Checked.densify_spec comm
  have hcast : (densify comm).1.map asU32 = (densify comm).1 := by
    refine (List.map_congr_left fun c hc => ?_).trans (List.map_id _)
    exact asU32_of_lt (((hlt c hc).trans_le (densify_le comm)).trans (hlength.trans_lt hnodes))
  have hsnd : ((CsrGraph.build nodes edges).denseCommunities comm).map Prod.snd = (densify comm).1 := by
    rw [CsrGraph.denseCommunities, hcast]
    exact List.map_snd_zip (hdense.trans hlength).le
  rw [hsnd, modularity_eq hedges (hdense.trans hlength)]
  refine Modularity.modularity_congr fun u hu v hv => ?_
  exact densify_label_iff (hlength.symm ▸ mem_range.1 hu) (hlength.symm ▸ mem_range.1 hv)

structure Keeps (adj : List (Weights ℚ)) (comm : List ℕ) (k : ℕ) : Prop where
  total : (weightedDegrees (aggregate adj comm k)).sum = (weightedDegrees adj).sum
  degrees : ∀ i < k, (weightedDegrees (aggregate adj comm k)).getD i 0 =
    ∑ u ∈ range adj.length with label comm u = i, (weightedDegrees adj).getD u 0
  modularity : ∀ c : ℕ → ℕ, Modularity.modularity (range k) (wOf (aggregate adj comm k)) c =
    Modularity.modularity (range adj.length) (wOf adj) (c ∘ label comm)

/-- **Community detection makes progress**, on every graph within the range of `u32`.

On a single level and on every level of the hierarchy, a node that moves raises the modularity, or keeps it
and goes to a community with a smaller number; the sweeps end without their bound; and no bound makes the
result worse than the nodes alone.  Aggregation keeps the total, the degrees of the communities and the
modularity of whatever labels them, and one level more never lowers the modularity. -/
theorem louvain_progress (nodes : List String) (edges : List EdgeRow) (h : BelowMark nodes edges) :
    (∀ community : List ℕ, community.length = (CsrGraph.build nodes edges).ids.length →
      (CsrGraph.build nodes edges).modularity .both community =
        quality (CsrGraph.build nodes edges).ids.length (buildWeight nodes edges) community) ∧
    (((CsrGraph.build nodes edges).degrees .both).2 ≠ 0 →
      Progress (CsrGraph.build nodes edges).ids.length (buildWeight nodes edges)
        ((CsrGraph.build nodes edges).moveNode .both) ((CsrGraph.build nodes edges).moveStart .both)) ∧
    (∀ maxPasses, (CsrGraph.build nodes edges).modularity .both (List.range (CsrGraph.build nodes edges).ids.length) ≤
      (CsrGraph.build nodes edges).modularity .both
        (((CsrGraph.build nodes edges).detectCommunities .both maxPasses).map Prod.snd)) ∧
    (∀ maxPasses k, ∀ adj, adj = (levels maxPasses k ((CsrGraph.build nodes edges).ground .both)).adj →
      ((weightedDegrees adj).sum / 2 ≠ 0 → Progress adj.length (wOf adj) (moveWeighted adj) (weightedStart adj)) ∧
      ∀ comm k', (∀ v < adj.length, label comm v < k') → Keeps adj comm k') ∧
    (∀ maxPasses, Monotone fun k => (CsrGraph.build nodes edges).modularity .both
      (levels maxPasses k ((CsrGraph.build nodes edges).ground .both)).nodeComm) ∧
    ∀ maxPasses maxLevels, (CsrGraph.build nodes edges).modularity .both
        (List.range (CsrGraph.build nodes edges).ids.length) ≤
      (CsrGraph.build nodes edges).modularity .both
        (((CsrGraph.build nodes edges).detectCommunitiesHierarchical .both maxPasses maxLevels).map Prod.snd) := by
  have hnodes : (CsrGraph.build nodes edges).ids.length < 2 ^ 32 := names_length_nodeDict nodes ▸ h.1
  have hedges : (keepEdges nodes edges).kept.length < 2 ^ 32 := kept_length nodes edges ▸ h.2
  have hground : ((CsrGraph.build nodes edges).ground .both).Inv (CsrGraph.build nodes edges).ids.length
      (buildWeight nodes edges) := inv_ground hedges
  have hsingle : ((CsrGraph.build nodes edges).degrees .both).2 ≠ 0 →
      Progress (CsrGraph.build nodes edges).ids.length (buildWeight nodes edges)
        ((CsrGraph.build nodes edges).moveNode .both) ((CsrGraph.build nodes edges).moveStart .both) ∧
      ∀ k, (passes ((CsrGraph.build nodes edges).moveNode .both) (CsrGraph.build nodes edges).ids.length k
        ((CsrGraph.build nodes edges).moveStart .both)).comm.length =
        (CsrGraph.build nodes edges).ids.length := by
    intro hm
    have hstart : LocalMoving.Inv (CsrGraph.build nodes edges).ids.length (buildWeight nodes edges)
        ((CsrGraph.build nodes edges).moveStart .both) :=
      inv_start (weighs_build hedges hm).length_deg (weighs_build hedges hm).deg false
    exact ⟨progress (weighs_build hedges hm) hstart,
      fun k => (modularity_passes (weighs_build hedges hm) hstart k).1.length_comm⟩
  have hlevels : ∀ maxPasses, Monotone fun k => (CsrGraph.build nodes edges).modularity .both
      (levels maxPasses k ((CsrGraph.build nodes edges).ground .both)).nodeComm := by
    intro maxPasses
    refine monotone_nat_of_le_succ fun k => ?_
    rw [modularity_eq hedges (hground.levels k).length, modularity_eq hedges (hground.levels (k + 1)).length]
    exact hground.levels_succ k
  refine ⟨fun community => modularity_eq hedges, fun hm => (hsingle hm).1, fun maxPasses => ?_,
    fun maxPasses k adj hadj => ?_, hlevels, fun maxPasses maxLevels => ?_⟩
  · rw [modularity_eq hedges List.length_range, CsrGraph.detectCommunities]
    split
    · rw [modularity_dense h List.length_range]
    · rename_i hm
      rw [modularity_dense h ((hsingle hm).2 maxPasses)]
      exact (hsingle hm).1.above maxPasses
  · have hsound : (levels maxPasses k ((CsrGraph.build nodes edges).ground .both)).Sound _ := hground.levels k
    have hadjacency : Adjacency adj := hadj ▸ hsound.adj
    refine ⟨fun hm => ?_, fun comm k' hk => ?_⟩
    · exact progress (hadjacency.weighs hm)
        (inv_start (hadjacency.weighs hm).length_deg (hadjacency.weighs hm).deg false)
    · obtain ⟨htotal, hdegrees, hmodularity⟩ := hadjacency.aggregate_keeps hk
      exact ⟨htotal, hdegrees, hmodularity⟩
  · have hsound : (levels maxPasses (max maxLevels 1) ((CsrGraph.build nodes edges).ground .both)).Sound _ :=
      hground.levels _
    have hcast : (levels maxPasses (max maxLevels 1) ((CsrGraph.build nodes edges).ground .both)).nodeComm.map
        asU32 = (levels maxPasses (max maxLevels 1) ((CsrGraph.build nodes edges).ground .both)).nodeComm := by
      refine (List.map_congr_left fun c hc => ?_).trans (List.map_id _)
      obtain ⟨v, hv, rfl⟩ := List.getElem_of_mem hc
      have hlt := hsound.lt v (hsound.length ▸ hv)
      rw [label, List.getD_eq_getElem _ _ hv] at hlt
      exact asU32_of_lt (hlt.trans hnodes)
    rw [CsrGraph.detectCommunitiesHierarchical, hcast, modularity_dense h hsound.length,
      ← modularity_eq hedges hsound.length]
    exact hlevels maxPasses (Nat.zero_le _)

/-- Two pairs of nodes. -/
theorem louvain_progress_pairs : BelowMark ["a", "b", "c", "d"] [("a", "b", "t"), ("c", "d", "t")] ∧
      ((CsrGraph.build ["a", "b", "c", "d"] [("a", "b", "t"), ("c", "d", "t")]).degrees .both).2 ≠ 0 ∧
      ∃ N, (passes ((CsrGraph.build ["a", "b", "c", "d"] [("a", "b", "t"), ("c", "d", "t")]).moveNode .both)
        (CsrGraph.build ["a", "b", "c", "d"] [("a", "b", "t"), ("c", "d", "t")]).ids.length N
        ((CsrGraph.build ["a", "b", "c", "d"] [("a", "b", "t"), ("c", "d", "t")]).moveStart .both)).moved = false := by
  have h : BelowMark ["a", "b", "c", "d"] [("a", "b", "t"), ("c", "d", "t")] := by
    constructor <;> decide
  have hm : ((CsrGraph.build ["a", "b", "c", "d"] [("a", "b", "t"), ("c", "d", "t")]).degrees .both).2 ≠ 0 := by
    decide +kernel
  obtain ⟨N, hN, -⟩ := ((louvain_progress _ _ h).2.1 hm).ends
  exact ⟨h, hm, N, hN⟩

/-- **A move without a gain**: in the second sweep the node 1 leaves a community that draws it as much as the
one it goes to. -/
theorem move_without_gain :
    let g := CsrGraph.build ["a", "b", "c", "d", "e"]
      [("a", "b", "t"), ("a", "c", "t"), ("b", "e", "t"), ("d", "e", "t")]
    let t := visit (g.moveNode .both) g.ids.length 1 (g.moveStart .both) 1
    t.comm = [2, 4, 2, 4, 4] ∧ (g.moveNode .both t 1).comm = [2, 2, 2, 4, 4] ∧
      g.modularity .both t.comm = 7 / 32 ∧ g.modularity .both (g.moveNode .both t 1).comm = 7 / 32 := by
  decide +kernel

end Ground

end GraphTopo
