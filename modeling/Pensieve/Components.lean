/-
**Connected components of the CSR topology.**

`connected_components` goes through the nodes in the order of their ordinals.  A node without a
label starts a component: it gets the next label, and a fill gives it to all nodes that can be
reached from there.
-/

import Pensieve.CsrTraverse
import Pensieve.Flood

namespace GraphTopo

open Relation (ReflTransGen)

/-! ### The algorithm -/

/-- `u32::MAX`, for a node without a label. -/
def u32Max : ℕ := 2 ^ 32 - 1

namespace CsrGraph

/-- One node of the outer loop, with the labels and the next one.  Every node enters the queue of a
fill at most once, so the number of nodes is fuel enough. -/
def labelFrom (g : CsrGraph) (dir : Direction) (st : List ℕ × ℕ) (start : ℕ) : List ℕ × ℕ :=
  if st.1[start]? = some u32Max then
    (Flood.flood (fun u => g.step u dir .any) u32Max st.2 g.ids.length
      (st.1.set start st.2, [asU32 start]), asU32 (st.2 + 1))
  else st

def labels (g : CsrGraph) (dir : Direction) : List ℕ :=
  ((List.range g.ids.length).foldl (g.labelFrom dir) (List.replicate g.ids.length u32Max, 0)).1

def connectedComponents (g : CsrGraph) (dir : Direction) : List (String × ℕ) := g.ids.zip (g.labels dir)

end CsrGraph

section Loop

variable {g : CsrGraph} {dir : Direction}

def Joined (g : CsrGraph) (dir : Direction) : ℕ → ℕ → Prop := ReflTransGen fun v w => w ∈ g.step v dir .any

structure Undirected (g : CsrGraph) (dir : Direction) : Prop where
  lt : ∀ v, ∀ w ∈ g.step v dir .any, w < g.ids.length
  symm : ∀ v w, w ∈ g.step v dir .any → v ∈ g.step w dir .any

variable {v : ℕ}

theorem Undirected.joined_symm (h : Undirected g dir) {w : ℕ} (hvw : Joined g dir v w) : Joined g dir w v := by
  have : Std.Symm fun v w => w ∈ g.step v dir .any := ⟨h.symm⟩
  exact Relation.ReflTransGen.stdSymm.symm v w hvw

theorem Undirected.joined_lt (h : Undirected g dir) {w : ℕ} (hv : v < g.ids.length)
    (hvw : Joined g dir v w) : w < g.ids.length := by
  cases hvw with
  | refl => exact hv
  | tail _ hstep => exact h.lt _ _ hstep

/-- **What holds after the first `k` nodes**: `roots` are those that started a component. -/
structure Labelled (g : CsrGraph) (dir : Direction) (k : ℕ) (st : List ℕ × ℕ) (roots : List ℕ) : Prop where
  length : st.1.length = g.ids.length
  next : st.2 = roots.length
  lt : ∀ r ∈ roots, r < k
  sorted : roots.Pairwise (· < ·)
  reached : ∀ c r, roots[c]? = some r → ∀ v, Joined g dir r v → st.1[v]? = some c ∧ r ≤ v
  unreached : ∀ v < g.ids.length, (∀ r ∈ roots, ¬ Joined g dir r v) → st.1[v]? = some u32Max ∧ k ≤ v

theorem labelled_zero : Labelled g dir 0 (List.replicate g.ids.length u32Max, 0) [] where
  length := List.length_replicate
  next := rfl
  lt := fun r hr => by cases hr
  sorted := .nil
  reached := fun c r hr => by cases hr
  unreached := fun v hv _ => ⟨by simp [hv], Nat.zero_le v⟩

variable {k : ℕ} {st : List ℕ × ℕ} {roots : List ℕ}

theorem Labelled.length_roots_le (h : Labelled g dir k st roots) : roots.length ≤ k := by
  have hnodup : roots.Nodup := h.sorted.imp fun hlt => hlt.ne
  have hsub : roots ⊆ List.range k := fun r hr => List.mem_range.2 (h.lt r hr)
  have hle := (hnodup.subperm hsub).length_le
  rwa [List.length_range] at hle

variable {c : ℕ}

theorem Labelled.ne_u32Max (h : Labelled g dir k st roots) (hk : k ≤ u32Max) {r : ℕ}
    (hr : roots[c]? = some r) : c ≠ u32Max := by
  have hc := (List.getElem?_eq_some_iff.1 hr).1
  have hle := h.length_roots_le
  omega

theorem Labelled.cases (h : Labelled g dir k st roots) (hv : v < g.ids.length) :
    (∃ c r, roots[c]? = some r ∧ Joined g dir r v ∧ st.1[v]? = some c) ∨
      (∀ r ∈ roots, ¬ Joined g dir r v) ∧ st.1[v]? = some u32Max ∧ k ≤ v := by
  by_cases hex : ∃ r ∈ roots, Joined g dir r v
  · obtain ⟨r, hr, hjoined⟩ := hex
    obtain ⟨c, hc⟩ := List.mem_iff_getElem?.1 hr
    exact .inl ⟨c, r, hc, hjoined, (h.reached c r hc v hjoined).1⟩
  · have hnone : ∀ r ∈ roots, ¬ Joined g dir r v := fun r hr hjoined => hex ⟨r, hr, hjoined⟩
    exact .inr ⟨hnone, h.unreached v hv hnone⟩

theorem Labelled.closed (h : Labelled g dir k st roots) (hund : Undirected g dir) (hk : k ≤ u32Max) :
    Flood.Closed (fun u => g.step u dir .any) u32Max st.1 := by
  intro v hv w hw
  have hlt : v < g.ids.length := hund.lt w v (hund.symm v w hw)
  rcases h.cases hlt with ⟨c, r, hc, hjoined, -⟩ | ⟨-, hunseen, -⟩
  · rw [(h.reached c r hc w (hjoined.tail hw)).1]
    exact fun heq => h.ne_u32Max hk hc (Option.some.inj heq)
  · exact absurd hunseen hv

theorem Labelled.labelFrom (h : Labelled g dir k st roots) (hund : Undirected g dir)
    (hk : k < g.ids.length) (hn : g.ids.length ≤ u32Max) :
    ∃ roots', Labelled g dir (k + 1) (g.labelFrom dir st k) roots' := by
  have hkmax : k ≤ u32Max := by omega
  unfold CsrGraph.labelFrom
  rcases h.cases hk with ⟨c, r, hc, hjoined, hlabel⟩ | ⟨hnone, hunseen, -⟩
  · -- the node has a label
    have hseen : st.1[k]? ≠ some u32Max := by
      rw [hlabel]
      exact fun heq => h.ne_u32Max hkmax hc (Option.some.inj heq)
    rw [if_neg hseen]
    refine ⟨roots, { h with
      lt := fun r hr => (h.lt r hr).trans (Nat.lt_succ_self k)
      unreached := fun v hv hnot => ?_ }⟩
    obtain ⟨hv', hle⟩ := h.unreached v hv hnot
    refine ⟨hv', Nat.lt_of_le_of_ne hle ?_⟩
    rintro rfl
    exact hseen hv'
  · -- the node starts a component
    rw [if_pos hunseen, show asU32 k = k from asU32_of_lt (by unfold u32Max at hkmax; omega)]
    have hlen := h.length_roots_le
    have hlabel : st.2 ≠ u32Max := by
      rw [h.next]
      omega
    have hmax : u32Max < 2 ^ 32 := by decide
    obtain ⟨hlength, hnew, hold⟩ := Flood.getElem?_flood hlabel hund.symm (h.closed hund hkmax) hunseen h.length.le
    refine ⟨roots ++ [k], ?_, ?_, ?_, ?_, ?_, ?_⟩
    · exact hlength.trans h.length
    · rw [List.length_append, List.length_singleton, ← h.next]
      exact asU32_of_lt (by rw [h.next]; omega)
    · intro r hr
      rcases List.mem_append.1 hr with hr | hr
      · exact (h.lt r hr).trans (Nat.lt_succ_self k)
      · rw [List.mem_singleton.1 hr]
        exact Nat.lt_succ_self k
    · rw [List.pairwise_append]
      refine ⟨h.sorted, List.pairwise_singleton .., fun r hr r' hr' => ?_⟩
      rw [List.mem_singleton.1 hr']
      exact h.lt r hr
    · intro c r hc v hjoined
      by_cases hlast : c < roots.length
      · rw [List.getElem?_append_left hlast] at hc
        have hmem := List.mem_of_getElem? hc
        have hnot : ¬ Joined g dir k v := fun hkv =>
          hnone r hmem (hjoined.trans (hund.joined_symm hkv))
        obtain ⟨hv, hle⟩ := h.reached c r hc v hjoined
        exact ⟨(hold v hnot).trans hv, hle⟩
      · have hclt := (List.getElem?_eq_some_iff.1 hc).1
        rw [List.length_append, List.length_singleton] at hclt
        obtain rfl : c = roots.length := by omega
        obtain rfl : k = r := by simpa using hc
        refine ⟨(hnew v hjoined).trans (by rw [h.next]), ?_⟩
        refine (h.unreached v (hund.joined_lt hk hjoined) fun r hr hrv => ?_).2
        exact hnone r hr (hrv.trans (hund.joined_symm hjoined))
    · intro v hv hnot
      have hkv : ¬ Joined g dir k v := hnot k (List.mem_append_right _ (List.mem_singleton_self k))
      obtain ⟨hv', hle⟩ := h.unreached v hv fun r hr => hnot r (List.mem_append_left _ hr)
      refine ⟨(hold v hkv).trans hv', Nat.lt_of_le_of_ne hle ?_⟩
      rintro rfl
      exact hkv .refl

theorem exists_labelled (hund : Undirected g dir) (hn : g.ids.length ≤ u32Max) {k : ℕ}
    (hk : k ≤ g.ids.length) : ∃ roots, Labelled g dir k
      ((List.range k).foldl (g.labelFrom dir) (List.replicate g.ids.length u32Max, 0)) roots := by
  induction k with
  | zero => exact ⟨[], labelled_zero⟩
  | succ k ih =>
    obtain ⟨roots, h⟩ := ih (by omega)
    rw [List.range_succ, List.foldl_append]
    exact h.labelFrom hund (by omega) hn

/-! ### The labels -/

theorem Labelled.exists_root (h : Labelled g dir g.ids.length st roots)
    (hv : st.1[v]? = some c) : ∃ r, roots[c]? = some r ∧ Joined g dir r v ∧ r ≤ v := by
  have hlt : v < g.ids.length := by
    rw [← h.length]
    exact (List.getElem?_eq_some_iff.1 hv).1
  rcases h.cases hlt with ⟨c', r, hr, hjoined, hlabel⟩ | ⟨-, -, hle⟩
  · rw [hv] at hlabel
    cases hlabel
    exact ⟨r, hr, hjoined, (h.reached c r hr v hjoined).2⟩
  · omega

theorem Labelled.eq_iff (h : Labelled g dir g.ids.length st roots) (hund : Undirected g dir) {w d : ℕ}
    (hv : st.1[v]? = some c) (hw : st.1[w]? = some d) : c = d ↔ Joined g dir v w := by
  obtain ⟨r, hr, hrv, -⟩ := h.exists_root hv
  constructor
  · rintro rfl
    obtain ⟨r', hr', hrw, -⟩ := h.exists_root hw
    rw [hr] at hr'
    cases hr'
    exact (hund.joined_symm hrv).trans hrw
  · intro hvw
    have hlabel := (h.reached c r hr w (hrv.trans hvw)).1
    rw [hw] at hlabel
    exact (Option.some.inj hlabel).symm

theorem Labelled.mem_iff (h : Labelled g dir g.ids.length st roots) : c ∈ st.1 ↔ c < roots.length := by
  constructor
  · intro hc
    obtain ⟨v, hv⟩ := List.mem_iff_getElem?.1 hc
    obtain ⟨r, hr, -⟩ := h.exists_root hv
    exact (List.getElem?_eq_some_iff.1 hr).1
  · intro hc
    exact List.mem_of_getElem? (h.reached c _ (List.getElem?_eq_getElem hc) _ .refl).1

theorem Labelled.idxOf_eq (h : Labelled g dir g.ids.length st roots) (hc : c < roots.length) :
    st.1.idxOf c = roots[c] := by
  have hroot : st.1[roots[c]]? = some c := (h.reached c _ (List.getElem?_eq_getElem hc) _ .refl).1
  have hmem : c ∈ st.1 := h.mem_iff.2 hc
  have hfirst : st.1[st.1.idxOf c]? = some c := by
    rw [List.getElem?_eq_getElem (List.idxOf_lt_length_of_mem hmem), List.getElem_idxOf]
  obtain ⟨r, hr, -, hle⟩ := h.exists_root hfirst
  rw [List.getElem?_eq_getElem hc] at hr
  cases hr
  refine le_antisymm ?_ hle
  obtain ⟨hlt, hget⟩ := List.getElem?_eq_some_iff.1 hroot
  by_contra hnot
  have hne := @List.not_of_lt_findIdx ℕ (· == c) st.1 roots[c] (by
    change roots[c] < st.1.idxOf c
    omega)
  rw [hget, beq_self_eq_true] at hne
  cases hne

end Loop

section Build

variable {nodes : List String} {edges : List EdgeRow}

/-- The nodes fit below the mark and the edges into a `u32`. -/
def BelowMark (nodes : List String) (edges : List EdgeRow) : Prop :=
  nodes.dedup.length < 2 ^ 32 ∧ edges.countP (fun e => e.1 ∈ nodes ∧ e.2.1 ∈ nodes) < 2 ^ 32

theorem undirected_build (hedges : (keepEdges nodes edges).kept.length < 2 ^ 32) :
    Undirected (CsrGraph.build nodes edges) .both where
  lt := fun _ _ hw => step_build_lt hedges hw
  symm := by
    intro v w hw
    rw [mem_step_build hedges] at hw ⊢
    obtain ⟨t, ht, hf, ⟨-, hv, hw⟩ | ⟨-, hv, hw⟩⟩ := hw
    · exact ⟨t, ht, hf, .inr ⟨by decide, hw, hv⟩⟩
    · exact ⟨t, ht, hf, .inl ⟨by decide, hw, hv⟩⟩

theorem Represents.reach_iff {idx : String → Option ℕ} {name : ℕ → String} {R : ℕ → ℕ → Prop}
    {E : String → String → Prop} (h : Represents idx name R E) {x : String} {i : ℕ}
    (hx : idx x = some i) {y : String} :
    ReflTransGen E x y ↔ ∃ j, idx y = some j ∧ ReflTransGen R i j := by
  constructor
  · intro hreach
    induction hreach with
    | refl => exact ⟨i, hx, .refl⟩
    | @tail v y _ he ih =>
      obtain ⟨a, ha, hreach⟩ := ih
      obtain ⟨a', j, ha', hj, hr⟩ := h.of_edge v y he
      obtain rfl : a = a' := Option.some_inj.1 (ha.symm.trans ha')
      exact ⟨j, hj, hreach.tail hr⟩
  · rintro ⟨j, hj, hreach⟩
    induction hreach generalizing y with
    | refl =>
      rw [h.idx_inj hj hx]
    | @tail a j _ hr ih =>
      obtain ⟨v, w, hv, hw, he⟩ := h.edge_of a j hr
      rw [h.idx_inj hj hw]
      exact (ih hv).tail he

theorem idToIdx_of_getElem? (hnodes : (nodeDict nodes).names.length ≤ 2 ^ 32) {x : String} {i : ℕ}
    (hx : (CsrGraph.build nodes edges).ids[i]? = some x) : (CsrGraph.build nodes edges).idToIdx x = some i := by
  obtain ⟨hlt, hget⟩ := List.getElem?_eq_some_iff.1 hx
  refine ((nodeDict_wf nodes).index_eq_idxOf hnodes).2 ⟨List.mem_of_getElem? hx, ?_⟩
  rw [← hget]
  exact ((nodeDict_wf nodes).nodup.idxOf_getElem i hlt).symm

theorem exists_getElem?_of_mem_zip {α β : Type} {l : List α} {m : List β} {p : α × β}
    (h : p ∈ l.zip m) : ∃ i : ℕ, l[i]? = some p.1 ∧ m[i]? = some p.2 := by
  obtain ⟨i, hi⟩ := List.mem_iff_getElem?.1 h
  exact ⟨i, List.getElem?_zip_eq_some.1 hi⟩

/-- **Connected components are exact**: the nodes are listed in the order of their ordinals; two of them
have the same label exactly when a path of edges joins them, whichever way these point; labels are
`0, …, k - 1`, and a smaller label is met earlier. -/
theorem connectedComponents_exact (nodes : List String) (edges : List EdgeRow) (h : BelowMark nodes edges) :
    (((CsrGraph.build nodes edges).connectedComponents .both).map Prod.fst = (CsrGraph.build nodes edges).ids) ∧
    (∀ p ∈ (CsrGraph.build nodes edges).connectedComponents .both,
      ∀ q ∈ (CsrGraph.build nodes edges).connectedComponents .both,
        (p.2 = q.2 ↔ ReflTransGen (edgeRel nodes edges .both none) p.1 q.1)) ∧
    ∃ k, (∀ c, c ∈ ((CsrGraph.build nodes edges).connectedComponents .both).map Prod.snd ↔ c < k) ∧
      ∀ c d, c < d → d < k → (((CsrGraph.build nodes edges).connectedComponents .both).map Prod.snd).idxOf c <
          (((CsrGraph.build nodes edges).connectedComponents .both).map Prod.snd).idxOf d := by
  have hnodes : (nodeDict nodes).names.length < 2 ^ 32 := names_length_nodeDict nodes ▸ h.1
  have hedges : (keepEdges nodes edges).kept.length < 2 ^ 32 := kept_length nodes edges ▸ h.2
  have hund := undirected_build hedges
  have hmax : (CsrGraph.build nodes edges).ids.length ≤ u32Max := Nat.le_sub_one_of_lt hnodes
  obtain ⟨roots, hlabelled⟩ := exists_labelled hund hmax le_rfl
  have hlength : ((CsrGraph.build nodes edges).labels .both).length =
      (CsrGraph.build nodes edges).ids.length := hlabelled.length
  have hfst : ((CsrGraph.build nodes edges).connectedComponents .both).map Prod.fst =
      (CsrGraph.build nodes edges).ids := List.map_fst_zip hlength.ge
  have hsnd : ((CsrGraph.build nodes edges).connectedComponents .both).map Prod.snd =
      (CsrGraph.build nodes edges).labels .both := List.map_snd_zip hlength.le
  refine ⟨hfst, fun p hp q hq => ?_, roots.length, fun c => ?_, fun c d hcd hd => ?_⟩
  · obtain ⟨i, hi, hc⟩ := exists_getElem?_of_mem_zip hp
    obtain ⟨j, hj, hd⟩ := exists_getElem?_of_mem_zip hq
    have hx : (CsrGraph.build nodes edges).idToIdx p.1 = some i := idToIdx_of_getElem? hnodes.le hi
    have hy : (CsrGraph.build nodes edges).idToIdx q.1 = some j := idToIdx_of_getElem? hnodes.le hj
    rw [hlabelled.eq_iff hund hc hd, (csr_represents hnodes.le hedges .both none).reach_iff hx, hy]
    have hstep : (fun v w => w ∈ (CsrGraph.build nodes edges).step v .both .any) =
        ordinalRel nodes edges .both .any := by
      funext v w
      exact propext (mem_step_build hedges .both .any v w)
    rw [Joined, hstep]
    constructor
    · intro hjoined
      exact ⟨j, rfl, hjoined⟩
    · rintro ⟨j', hj', hjoined⟩
      cases hj'
      exact hjoined
  · rw [hsnd]
    exact hlabelled.mem_iff
  · rw [hsnd]
    have hc : c < roots.length := hcd.trans hd
    have hidx : ((CsrGraph.build nodes edges).labels .both).idxOf c = roots[c] := hlabelled.idxOf_eq hc
    have hidx' : ((CsrGraph.build nodes edges).labels .both).idxOf d = roots[d] := hlabelled.idxOf_eq hd
    rw [hidx, hidx']
    exact List.pairwise_iff_getElem.1 hlabelled.sorted c d hc hd hcd

/-- Two isolated nodes and two that an edge joins. -/
theorem connectedComponents_exact_small : BelowMark ["a", "b", "c", "d"] [("d", "b", "t"), ("a", "z", "t")] ∧
      ∀ p ∈ (CsrGraph.build ["a", "b", "c", "d"] [("d", "b", "t"), ("a", "z", "t")]).connectedComponents .both,
        ∀ q ∈ (CsrGraph.build ["a", "b", "c", "d"] [("d", "b", "t"), ("a", "z", "t")]).connectedComponents .both,
          (p.2 = q.2 ↔ ReflTransGen (edgeRel ["a", "b", "c", "d"]
            [("d", "b", "t"), ("a", "z", "t")] .both none) p.1 q.1) := by
  have h : BelowMark ["a", "b", "c", "d"] [("d", "b", "t"), ("a", "z", "t")] := by
    constructor <;> decide
  exact ⟨h, (connectedComponents_exact _ _ h).2.1⟩

end Build

/-! ### Past the ceiling -/

structure LabelsFit (n : ℕ) (st : List ℕ × ℕ) : Prop where
  length : st.1.length = n
  lt : ∀ c ∈ st.1, c < 2 ^ 32
  next : st.2 < 2 ^ 32

theorem LabelsFit.labelFrom {n : ℕ} {st : List ℕ × ℕ} (h : LabelsFit n st) (g : CsrGraph)
    (dir : Direction) (start : ℕ) : LabelsFit n (g.labelFrom dir st start) := by
  unfold CsrGraph.labelFrom
  split
  · obtain ⟨hlen, hmem⟩ := @Flood.values_flood ℕ _ u32Max st.2
      (fun u => g.step u dir .any) g.ids.length (st.1.set start st.2, [asU32 start])
    refine ⟨hlen.trans (List.length_set.trans h.length), fun c hc => ?_, Nat.mod_lt _ (by norm_num)⟩
    rcases hmem c hc with hc | rfl
    · rcases List.mem_or_eq_of_mem_set hc with hc | rfl
      · exact h.lt c hc
      · exact h.next
    · exact h.next
  · exact h

theorem labelsFit (g : CsrGraph) (dir : Direction) (k : ℕ) : LabelsFit g.ids.length
      ((List.range k).foldl (g.labelFrom dir) (List.replicate g.ids.length u32Max, 0)) := by
  induction k with
  | zero =>
    refine ⟨List.length_replicate, fun c hc => ?_, by norm_num⟩
    rw [List.eq_of_mem_replicate hc]
    decide
  | succ k ih =>
    rw [List.range_succ, List.foldl_append]
    exact ih.labelFrom g dir k

theorem exists_shared_label {g : CsrGraph} (dir : Direction) (hn : 2 ^ 32 < g.ids.length) :
    ∃ i j : ℕ, i < j ∧ j < g.ids.length ∧ (g.labels dir)[i]? = (g.labels dir)[j]? := by
  have hfit := labelsFit g dir g.ids.length
  have hnot : ¬ (g.labels dir).Nodup := by
    intro hnodup
    have hsub : g.labels dir ⊆ List.range (2 ^ 32) := fun c hc => List.mem_range.2 (hfit.lt c hc)
    have hle := (hnodup.subperm hsub).length_le
    have hlen : (g.labels dir).length = g.ids.length := hfit.length
    rw [List.length_range, hlen] at hle
    omega
  rw [List.nodup_iff_getElem?_ne_getElem?] at hnot
  push Not at hnot
  obtain ⟨i, j, hij, hj, heq⟩ := hnot
  exact ⟨i, j, hij, hfit.length ▸ hj, heq⟩

theorem not_exact_of_lt {n : ℕ} (hmany : 2 ^ 32 < n) :
    ¬ ∀ p ∈ (CsrGraph.build (wideNodes n) []).connectedComponents .both,
      ∀ q ∈ (CsrGraph.build (wideNodes n) []).connectedComponents .both,
        (p.2 = q.2 ↔ ReflTransGen (edgeRel (wideNodes n) [] .both none) p.1 q.1) := by
  intro hexact
  have hids : (CsrGraph.build (wideNodes n) []).ids = wideNodes n := names_wideNodes n
  have hnodes : (CsrGraph.build (wideNodes n) []).ids.length = n := by
    rw [hids, wideNodes, List.length_map, List.length_range]
  obtain ⟨i, j, hij, hj, heq⟩ := exists_shared_label .both (hmany.trans_eq hnodes.symm)
  have hlength : ((CsrGraph.build (wideNodes n) []).labels .both).length =
      (CsrGraph.build (wideNodes n) []).ids.length := (labelsFit _ _ _).length
  have hjn : j < n := hj.trans_eq hnodes
  have hmem : ∀ v : ℕ, v < n → ∀ c, ((CsrGraph.build (wideNodes n) []).labels .both)[v]? = some c →
      (wideName v, c) ∈ (CsrGraph.build (wideNodes n) []).connectedComponents .both := by
    intro v hv c hc
    refine List.mem_of_getElem? (i := v) (List.getElem?_zip_eq_some.2 ⟨?_, hc⟩)
    rw [hids]
    exact getElem?_wideNodes hv
  have hget := List.getElem?_eq_getElem (l := (CsrGraph.build (wideNodes n) []).labels .both)
    (i := j) (hj.trans_eq hlength.symm)
  have hreach := (hexact _ (hmem i (hij.trans hjn) _ (heq.trans hget)) _ (hmem j hjn _ hget)).1 rfl
  rcases Relation.ReflTransGen.cases_tail hreach with hsame | ⟨_, -, e, he, -⟩
  · exact hij.ne' (wideName_injective hsame)
  · cases he

/-- **With more nodes than labels two components share one**: no edge joins any of the `2 ^ 32 + 1`
nodes, and two of them have the same label. -/
theorem labels_of_many_components : ¬ ∀ p ∈ (CsrGraph.build (wideNodes (2 ^ 32 + 1)) []).connectedComponents .both,
      ∀ q ∈ (CsrGraph.build (wideNodes (2 ^ 32 + 1)) []).connectedComponents .both,
        (p.2 = q.2 ↔ ReflTransGen (edgeRel (wideNodes (2 ^ 32 + 1)) [] .both none) p.1 q.1) :=
  not_exact_of_lt (by norm_num)

end GraphTopo
