/-
**Personalized PageRank.**

The nodes that are near to some seeds are ranked by the mass that a forward push from the seeds
leaves on them.  Parameters are clamped before:
-/

import Pensieve.ForwardPush
import Pensieve.GraphSidecar

namespace GraphTopo

open List
open ForwardPush (State Leads Conserves Settled)

def minPositive : ℚ := 1 / 2 ^ 1022

/-- `alpha.clamp(f64::MIN_POSITIVE, 1.0)` -/
def clampAlpha (alpha : ℚ) : ℚ := if alpha < minPositive then minPositive else if 1 < alpha then 1 else alpha

/-- `epsilon.max(f64::MIN_POSITIVE)` -/
def maxEpsilon (epsilon : ℚ) : ℚ := max epsilon minPositive

def ranked (ids : List String) (p : List ℚ) : List (String × ℚ) :=
  ((p.zipIdx.filter fun q => decide (0 < q.1)).map fun q => (ids.getD q.2 "", q.1)).insertionSort
    fun a b => b.2 ≤ a.2

namespace CsrGraph

variable (g : CsrGraph)

def pushNbrs (dir : Direction) (v : ℕ) : List ℕ := g.step v dir .any

def seedIdx (seeds : List String) : List ℕ := seeds.filterMap g.idToIdx

def pushStart (seeds : List String) : State ℚ := ForwardPush.start g.ids.length (g.seedIdx seeds)

def pushLoop (fuel : ℕ) (seeds : List String) (alpha epsilon : ℚ) (dir : Direction) : Option (State ℚ) :=
  ForwardPush.loop (g.pushNbrs dir) (clampAlpha alpha) (maxEpsilon epsilon) fuel (g.pushStart seeds)

/-- **`personalized_pagerank`**, for `fuel` rounds of its loop. -/
def personalizedPagerank (fuel : ℕ) (seeds : List String) (alpha epsilon : ℚ) (dir : Direction) :
    Option (List (String × ℚ)) :=
  if g.seedIdx seeds = [] ∨ g.ids.length = 0 then some []
  else (g.pushLoop fuel seeds alpha epsilon dir).map fun s => ranked g.ids s.p

end CsrGraph

/-! ### Parameters -/

theorem minPositive_pos : 0 < minPositive := by
  unfold minPositive
  positivity

theorem clampAlpha_pos (alpha : ℚ) : 0 < clampAlpha alpha := by
  unfold clampAlpha
  split
  · exact minPositive_pos
  · rename_i hge
    split
    · exact one_pos
    · exact minPositive_pos.trans_le (not_lt.1 hge)

theorem clampAlpha_le_one (alpha : ℚ) : clampAlpha alpha ≤ 1 := by
  unfold clampAlpha
  split
  · unfold minPositive
    exact div_le_one_of_le₀ (one_le_pow₀ (by norm_num)) (by positivity)
  · split
    · exact le_rfl
    · rename_i hle
      exact not_lt.1 hle

theorem maxEpsilon_pos (epsilon : ℚ) : 0 < maxEpsilon epsilon := minPositive_pos.trans_le (le_max_right _ _)

theorem sum_filter_pos {l : List ℚ} (h : ∀ x ∈ l, 0 ≤ x) (k : ℕ) :
    (((l.zipIdx k).filter fun q => decide (0 < q.1)).map Prod.fst).sum = l.sum := by
  induction l generalizing k with
  | nil => rfl
  | cons x l ih =>
    obtain ⟨hx, hl⟩ := forall_mem_cons.1 h
    rw [zipIdx_cons, filter_cons, sum_cons]
    split
    · rw [map_cons, sum_cons, ih hl]
    · rename_i hnot
      have hzero : x = 0 := le_antisymm (not_lt.1 fun hpos => hnot (decide_eq_true hpos)) hx
      rw [ih hl, hzero, zero_add]

theorem sum_ranked {ids : List String} {p : List ℚ} (h : ∀ x ∈ p, 0 ≤ x) :
    ((ranked ids p).map Prod.snd).sum = p.sum := by
  have hperm := (perm_insertionSort (fun a b : String × ℚ => b.2 ≤ a.2)
    ((p.zipIdx.filter fun q => decide (0 < q.1)).map fun q => (ids.getD q.2 "", q.1))).map Prod.snd
  rw [ranked, hperm.sum_eq, map_map]
  exact sum_filter_pos h 0

/-! ### Neighbours -/

theorem getD_lt {n : ℕ} {l : List ℕ} (hn : 0 < n) (h : ∀ x ∈ l, x < n) (i : ℕ) : l.getD i 0 < n := by
  rw [getD_eq_getElem?_getD]
  cases hi : l[i]? with
  | none => exact hn
  | some x => exact h x (mem_of_getElem? hi)

theorem pushNbrs_build_lt {nodes : List String} {edges : List EdgeRow}
    (hn : 0 < (CsrGraph.build nodes edges).ids.length) (dir : Direction) {v w : ℕ}
    (hw : w ∈ (CsrGraph.build nodes edges).pushNbrs dir v) : w < (CsrGraph.build nodes edges).ids.length := by
  have hout : ∀ x ∈ (CsrGraph.build nodes edges).outTargets, x < (CsrGraph.build nodes edges).ids.length := by
    intro x hx
    rcases mem_buildCsr.1 hx with rfl | ⟨t, ht, rfl⟩
    · exact hn
    · exact (keepEdges_lt ht).2
  have hinn : ∀ x ∈ (CsrGraph.build nodes edges).inSources, x < (CsrGraph.build nodes edges).ids.length := by
    intro x hx
    rcases mem_buildCsr.1 hx with rfl | ⟨t, ht, rfl⟩
    · exact hn
    · obtain ⟨u, hu, rfl⟩ := mem_map.1 ht
      exact (keepEdges_lt hu).1
  unfold CsrGraph.pushNbrs CsrGraph.step CsrGraph.scanRow at hw
  rcases mem_append.1 hw with hw | hw
  · split at hw
    · cases hw
    · obtain ⟨i, -, rfl⟩ := mem_map.1 hw
      exact getD_lt hn hout i
  · split at hw
    · cases hw
    · obtain ⟨i, -, rfl⟩ := mem_map.1 hw
      exact getD_lt hn hinn i

section Pushes

variable {nodes : List String} {edges : List EdgeRow} {seeds : List String}

theorem seedIdx_build (hseeds : ∃ x ∈ seeds, x ∈ nodes) :
    (∀ v ∈ (CsrGraph.build nodes edges).seedIdx seeds, v < (CsrGraph.build nodes edges).ids.length) ∧
      (CsrGraph.build nodes edges).seedIdx seeds ≠ [] := by
  constructor
  · intro v hv
    obtain ⟨x, -, hx⟩ := mem_filterMap.1 hv
    exact nodeDict_index_lt hx
  · obtain ⟨x, hx, hmem⟩ := hseeds
    obtain ⟨v, hv⟩ := exists_nodeDict_index.2 hmem
    exact ne_nil_of_mem (mem_filterMap.2 ⟨x, hx, hv⟩)

/-- **Conservation of mass, termination, and the end.**  In every state of the loop the estimates and the
residuals sum to 1 and none is negative, and in the queue is every node with neighbours whose residual is at
least its threshold and every sink that has a residual.  The loop ends, and then the residual of a node is
below its threshold, and that of a sink is 0; the scores sum to at most 1. -/
theorem personalizedPagerank_exact (nodes : List String) (edges : List EdgeRow) (seeds : List String)
    (hseeds : ∃ x ∈ seeds, x ∈ nodes) (alpha epsilon : ℚ) (dir : Direction) :
    (∀ s, Leads ((CsrGraph.build nodes edges).pushNbrs dir) (clampAlpha alpha) (maxEpsilon epsilon)
        ((CsrGraph.build nodes edges).pushStart seeds) s →
      Conserves ((CsrGraph.build nodes edges).pushNbrs dir) (maxEpsilon epsilon)
        (CsrGraph.build nodes edges).ids.length s) ∧ ∃ last fuel,
      (∀ fuel' ≥ fuel, (CsrGraph.build nodes edges).pushLoop fuel' seeds alpha epsilon dir = some last ∧
        (CsrGraph.build nodes edges).personalizedPagerank fuel' seeds alpha epsilon dir =
          some (ranked (CsrGraph.build nodes edges).ids last.p)) ∧
      Leads ((CsrGraph.build nodes edges).pushNbrs dir) (clampAlpha alpha) (maxEpsilon epsilon)
        ((CsrGraph.build nodes edges).pushStart seeds) last ∧
      Settled ((CsrGraph.build nodes edges).pushNbrs dir) (maxEpsilon epsilon)
        (CsrGraph.build nodes edges).ids.length last ∧
      ((ranked (CsrGraph.build nodes edges).ids last.p).map Prod.snd).sum ≤ 1 := by
  obtain ⟨hlt, hne⟩ := @seedIdx_build nodes edges seeds hseeds
  have hn : 0 < (CsrGraph.build nodes edges).ids.length := by
    obtain ⟨v, hv⟩ := exists_mem_of_ne_nil _ hne
    exact (Nat.zero_le v).trans_lt (hlt v hv)
  obtain ⟨hall, last, fuel, hloop, hleads, hsettled, hsum⟩ := ForwardPush.run_start
    (fun v _ w hw => pushNbrs_build_lt hn dir hw) (clampAlpha_pos alpha)
    (clampAlpha_le_one alpha) (maxEpsilon_pos epsilon) hlt hne
  refine ⟨hall, last, fuel, fun fuel' hfuel => ⟨hloop fuel' hfuel, ?_⟩, hleads, hsettled, ?_⟩
  · have hlast : (CsrGraph.build nodes edges).pushLoop fuel' seeds alpha epsilon dir = some last := hloop fuel' hfuel
    rw [CsrGraph.personalizedPagerank, if_neg (by
      rintro (hnil | hzero)
      · exact hne hnil
      · omega), hlast]
    rfl
  · rw [sum_ranked]
    · exact hsum
    · intro x hx
      obtain ⟨v, hv, rfl⟩ := mem_iff_getElem.1 hx
      rw [← getD_eq_getElem _ 0 hv]
      exact (hall last hleads).p_nonneg v

/-- From one node of an edge. -/
theorem personalizedPagerank_exact_small :
    ∃ last fuel, (∀ fuel' ≥ fuel, (CsrGraph.build ["a", "b"] [("a", "b", "t")]).pushLoop fuel' ["a"] (3 / 20)
      (1 / 1000) .both = some last) ∧ ((ranked (CsrGraph.build ["a", "b"] [("a", "b", "t")]).ids
        last.p).map Prod.snd).sum ≤ 1 := by
  obtain ⟨-, last, fuel, hloop, -, -, hsum⟩ :=
    personalizedPagerank_exact ["a", "b"] [("a", "b", "t")] ["a"] ⟨"a", by simp, by simp⟩ (3 / 20) (1 / 1000)
      .both
  exact ⟨last, fuel, fun fuel' hfuel => (hloop fuel' hfuel).1, hsum⟩

end Pushes

/-- **A sink is at its threshold without being queued**: before the first push, and at the end.  And a
threshold below the smallest normal number is raised to it: the residual of a node that points to itself stays
above its own. -/
theorem sink_not_queued : (1 / 2 * (((CsrGraph.build ["a", "b"] []).pushNbrs .both 1).length : ℚ) ≤
        ((CsrGraph.build ["a", "b"] []).pushStart ["a"]).r.getD 1 0 ∧
      1 ∉ ((CsrGraph.build ["a", "b"] []).pushStart ["a"]).queue) ∧
    (∃ last, (CsrGraph.build ["a", "b"] []).pushLoop 3 ["a"] (1 / 2) (1 / 2) .both = some last ∧
      ¬ last.r.getD 0 0 < 1 / 2 * (((CsrGraph.build ["a", "b"] []).pushNbrs .both 0).length : ℚ)) ∧
    ∃ last, (CsrGraph.build ["a"] [("a", "a", "t")]).pushLoop 30 ["a"] (1 - 1 / 2 ^ 53) (1 / 2 ^ 1074) .fwd =
        some last ∧ 1 / 2 ^ 1074 * (((CsrGraph.build ["a"] [("a", "a", "t")]).pushNbrs .fwd 0).length : ℚ) ≤
        last.r.getD 0 0 := by
  refine ⟨by decide +kernel, ?_, ?_⟩
  · exact ⟨⟨[1, 0], [0, 0], [false, false], []⟩, by decide +kernel, by decide +kernel⟩
  · cases hloop : (CsrGraph.build ["a"] [("a", "a", "t")]).pushLoop 30 ["a"] (1 - 1 / 2 ^ 53) (1 / 2 ^ 1074)
        .fwd with
    | none =>
      have hsome : ((CsrGraph.build ["a"] [("a", "a", "t")]).pushLoop 30 ["a"] (1 - 1 / 2 ^ 53)
        (1 / 2 ^ 1074) .fwd).isSome = true := by decide +kernel
      rw [hloop] at hsome
      cases hsome
    | some last =>
      refine ⟨last, rfl, ?_⟩
      have hkept : ∀ s ∈ (CsrGraph.build ["a"] [("a", "a", "t")]).pushLoop 30 ["a"] (1 - 1 / 2 ^ 53)
        (1 / 2 ^ 1074) .fwd, 1 / 2 ^ 1074 * (((CsrGraph.build ["a"] [("a", "a", "t")]).pushNbrs .fwd
          0).length : ℚ) ≤ s.r.getD 0 0 := by decide +kernel
      exact hkept last hloop

end GraphTopo
