/-
**Local moving.**

The nodes of a weighted graph are swept in order.  Each is taken out of its community and put into
the one that draws it most, among those of its neighbours; communities are scored in ascending
order, and only a strictly better score replaces the best one so far.
-/

import Mathlib.Data.List.GetD
import Pensieve.Modularity

namespace LocalMoving

open Function
open Finset Modularity

variable {F : Type} [Field F]

/-! ### Maps to weights -/

abbrev Weights (F : Type) := List (ℕ × F)

/-- `*m.entry(c).or_insert(0.0) += w` -/
def entryAdd : Weights F → ℕ → F → Weights F
  | [], c, w => [(c, 0 + w)]
  | (k, x) :: m, c, w => if k = c then (k, x + w) :: m else (k, x) :: entryAdd m c w

def weightOf (m : Weights F) (c : ℕ) : F := ((m.find? fun p => p.1 = c).map Prod.snd).getD 0

def keys (m : Weights F) : List ℕ := m.map Prod.fst

def collect (key : ℕ → ℕ) (row : Weights F) (m : Weights F) : Weights F :=
  row.foldl (fun m p => entryAdd m (key p.1) p.2) m

theorem getD_modify {α : Type} (l : List α) (d : α) (i : ℕ) (f : α → α) {j : ℕ} (hj : j < l.length) :
    (l.modify i f).getD j d = if j = i then f (l.getD j d) else l.getD j d := by
  rw [List.getD_eq_getElem?_getD, List.getElem?_modify, List.getD_eq_getElem _ _ hj, List.getElem?_eq_getElem hj]
  by_cases hij : j = i
  · simp [hij]
  · have hne : ¬ i = j := Ne.symm hij
    simp [hij, hne]

section Maps

variable {m : Weights F}

theorem weightOf_cons (k : ℕ) (x : F) (m : Weights F) (c : ℕ) :
    weightOf ((k, x) :: m) c = if k = c then x else weightOf m c := by
  unfold weightOf
  by_cases h : k = c
  · rw [if_pos h, List.find?_cons_of_pos (by simpa using h)]
    rfl
  · rw [if_neg h, List.find?_cons_of_neg (by simpa using h)]

theorem weightOf_of_notMem {c : ℕ} (h : c ∉ keys m) : weightOf m c = 0 := by
  unfold weightOf
  rw [List.find?_eq_none.2]
  · rfl
  · intro p hp hc
    exact h (List.mem_map.2 ⟨p, hp, of_decide_eq_true hc⟩)

theorem weightOf_entryAdd (m : Weights F) (c : ℕ) (w : F) (k : ℕ) :
    weightOf (entryAdd m c w) k = weightOf m k + if c = k then w else 0 := by
  induction m with
  | nil =>
    rw [entryAdd, weightOf_cons]
    change (if c = k then 0 + w else 0) = 0 + _
    split <;> simp
  | cons q m ih =>
    obtain ⟨k', x⟩ := q
    unfold entryAdd
    by_cases hkey : k' = c
    · rw [if_pos hkey, weightOf_cons, weightOf_cons]
      subst hkey
      split <;> simp
    · rw [if_neg hkey, weightOf_cons, weightOf_cons, ih]
      by_cases hk : k' = k
      · have hne : ¬ c = k := fun h => hkey (hk.trans h.symm)
        rw [if_pos hk, if_pos hk, if_neg hne, add_zero]
      · rw [if_neg hk, if_neg hk]

theorem mem_keys_entryAdd {c : ℕ} {w : F} {k : ℕ} : k ∈ keys (entryAdd m c w) ↔ k ∈ keys m ∨ k = c := by
  induction m with
  | nil => simp [entryAdd, keys]
  | cons q m ih =>
    obtain ⟨k', x⟩ := q
    unfold entryAdd
    split
    · rename_i hkey
      subst hkey
      simp only [keys, List.map_cons, List.mem_cons]
      tauto
    · change k ∈ k' :: keys (entryAdd m c w) ↔ k ∈ k' :: keys m ∨ k = c
      rw [List.mem_cons, List.mem_cons, ih, or_assoc]

theorem nodup_keys_entryAdd (h : (keys m).Nodup) (c : ℕ) (w : F) : (keys (entryAdd m c w)).Nodup := by
  induction m with
  | nil => exact List.nodup_singleton c
  | cons q m ih =>
    obtain ⟨k', x⟩ := q
    obtain ⟨hnot, hnodup⟩ := List.nodup_cons.1 h
    unfold entryAdd
    split
    · exact h
    · rename_i hkey
      refine List.nodup_cons.2 ⟨fun hmem => ?_, ih hnodup⟩
      rcases mem_keys_entryAdd.1 hmem with hmem | hc
      · exact hnot hmem
      · exact hkey hc

theorem weightOf_collect (key : ℕ → ℕ) (row m : Weights F) (c : ℕ) : weightOf (collect key row m) c =
      weightOf m c + ((row.filter fun p => key p.1 = c).map Prod.snd).sum := by
  induction row generalizing m with
  | nil => simp [collect]
  | cons p row ih =>
    have hstep := ih (entryAdd m (key p.1) p.2)
    rw [weightOf_entryAdd] at hstep
    change weightOf (collect key row (entryAdd m (key p.1) p.2)) c = _
    rw [hstep, List.filter_cons]
    by_cases hc : key p.1 = c
    · rw [if_pos hc, if_pos (decide_eq_true hc), List.map_cons, List.sum_cons]
      ring
    · rw [if_neg hc, if_neg (by simpa using hc), add_zero]

theorem mem_keys_collect {key : ℕ → ℕ} {row : Weights F} {c : ℕ} :
    c ∈ keys (collect key row m) ↔ c ∈ keys m ∨ ∃ p ∈ row, key p.1 = c := by
  induction row generalizing m with
  | nil => simp [collect]
  | cons p row ih =>
    change c ∈ keys (collect key row (entryAdd m (key p.1) p.2)) ↔ _
    rw [ih, mem_keys_entryAdd, List.exists_mem_cons_iff, or_assoc, eq_comm]

theorem nodup_keys_collect {key : ℕ → ℕ} {row : Weights F} (h : (keys m).Nodup) :
    (keys (collect key row m)).Nodup := by
  induction row generalizing m with
  | nil => exact h
  | cons p row ih => exact ih (nodup_keys_entryAdd h _ _)

theorem sum_values {n : ℕ} (h : (keys m).Nodup) (hlt : ∀ k ∈ keys m, k < n) (P : ℕ → Prop) [DecidablePred P] :
    ((m.filter fun p => P p.1).map Prod.snd).sum = ∑ v ∈ range n with P v, weightOf m v := by
  induction m with
  | nil => simp [weightOf]
  | cons q m ih =>
    obtain ⟨k, x⟩ := q
    obtain ⟨hnot, hnodup⟩ := List.nodup_cons.1 h
    have hrest := ih hnodup fun k' hk' => hlt k' (List.mem_cons_of_mem _ hk')
    have hk : k ∈ range n := mem_range.2 (hlt k (List.mem_cons_self ..))
    have hsplit : ∀ v, weightOf ((k, x) :: m) v = (if k = v then x else 0) + weightOf m v := by
      intro v
      rw [weightOf_cons]
      split
      · rename_i hv
        rw [← hv, weightOf_of_notMem hnot, add_zero]
      · rw [zero_add]
    rw [sum_congr rfl fun v _ => hsplit v, sum_add_distrib, ← hrest, sum_filter, List.filter_cons]
    have hone : ∑ v ∈ range n, (if P v then if k = v then x else 0 else 0) = if P k then x else 0 := by
      rw [sum_eq_single k]
      · rw [if_pos rfl]
      · intro v _ hv
        rw [if_neg (Ne.symm hv), ite_self]
      · exact fun hnot => absurd hk hnot
    rw [hone]
    by_cases hP : P k
    · rw [if_pos (decide_eq_true hP), if_pos hP, List.map_cons, List.sum_cons]
    · rw [if_neg (by simpa using hP), if_neg hP, zero_add]

theorem sum_row {n : ℕ} {row : Weights F} (hlt : ∀ p ∈ row, p.1 < n) (P : ℕ → Prop) [DecidablePred P] :
    ((row.filter fun p => P p.1).map Prod.snd).sum = ∑ v ∈ range n with P v, weightOf (collect id row []) v := by
  have hweight : ∀ v, weightOf (collect id row []) v = ((row.filter fun p => p.1 = v).map Prod.snd).sum := by
    intro v
    rw [weightOf_collect]
    exact zero_add _
  rw [sum_congr rfl fun v _ => hweight v]
  clear hweight
  induction row with
  | nil => simp
  | cons p row ih =>
    have hp := hlt p (List.mem_cons_self ..)
    have hsplit : ∀ v, (((p :: row).filter fun p => p.1 = v).map Prod.snd).sum =
        (if p.1 = v then p.2 else 0) + ((row.filter fun p => p.1 = v).map Prod.snd).sum := by
      intro v
      rw [List.filter_cons]
      by_cases hv : p.1 = v
      · rw [if_pos (decide_eq_true hv), if_pos hv, List.map_cons, List.sum_cons]
      · rw [if_neg (by simpa using hv), if_neg hv, zero_add]
    have hone : ∑ v ∈ range n with P v, (if p.1 = v then p.2 else 0) = if P p.1 then p.2 else 0 := by
      rw [sum_ite_eq]
      simp [hp]
    rw [sum_congr rfl fun v _ => hsplit v, sum_add_distrib, hone,
      ← ih fun q hq => hlt q (List.mem_cons_of_mem _ hq), List.filter_cons]
    by_cases hP : P p.1
    · rw [if_pos (decide_eq_true hP), if_pos hP, List.map_cons, List.sum_cons]
    · rw [if_neg (by simpa using hP), if_neg hP, zero_add]

end Maps

/-! ### The algorithm -/

variable [LinearOrder F]

/-- Communities, the degrees they sum up to, and whether the sweep has moved a node. -/
structure Moving (F : Type) where
  comm : List ℕ
  sigmaTot : List F
  moved : Bool
  deriving DecidableEq

def score (gain : ℕ → F) (best : ℕ × F) (c : ℕ) : ℕ × F := if best.2 < gain c then (c, gain c) else best

/-- The best community for a node of degree `degU`, scored in ascending order. -/
def bestCommunity (kIn : Weights F) (sigmaTot : List F) (degU twoM : F) (cu : ℕ) : ℕ :=
  (((keys kIn).insertionSort (· ≤ ·)).foldl (score fun c => weightOf kIn c - degU * sigmaTot.getD c 0 / twoM) (cu, 0)).1

/-- `u` is taken out of its community and put into the best one. -/
def place (degU twoM : F) (kIn : Weights F) (u : ℕ) (t : Moving F) : Moving F :=
  let cu := t.comm.getD u 0
  let sigmaTot := t.sigmaTot.modify cu (· - degU)
  let best := bestCommunity kIn sigmaTot degU twoM cu
  ⟨t.comm.set u best, sigmaTot.modify best (· + degU), t.moved || best != cu⟩

/-- **A node is moved**, by the row of its neighbours. -/
def move (deg : List F) (twoM : F) (row : ℕ → Weights F) (t : Moving F) (u : ℕ) : Moving F :=
  if deg.getD u 0 = 0 then t
  else place (deg.getD u 0) twoM (collect (fun v => t.comm.getD v 0) (row u) []) u t

/-- **A sweep** over the nodes `0..n`. -/
def sweep (step : Moving F → ℕ → Moving F) (n : ℕ) (t : Moving F) : Moving F :=
  (List.range n).foldl step { t with moved := false }

def passes (step : Moving F → ℕ → Moving F) (n : ℕ) : ℕ → Moving F → Moving F
  | 0, t => t
  | k + 1, t =>
    let t := sweep step n t
    if t.moved then passes step n k t else t

omit [Field F] in
theorem foldl_score (gain : ℕ → F) {cands : List ℕ} (hsorted : cands.Pairwise (· ≤ ·)) (start : ℕ × F) :
    (cands.foldl (score gain) start = start ∧ ∀ c ∈ cands, gain c ≤ start.2) ∨
      ((cands.foldl (score gain) start).1 ∈ cands ∧
        (cands.foldl (score gain) start).2 = gain (cands.foldl (score gain) start).1 ∧
        start.2 < (cands.foldl (score gain) start).2 ∧ ∀ c ∈ cands, gain c ≤ (cands.foldl (score gain) start).2 ∧
          (c < (cands.foldl (score gain) start).1 → gain c < (cands.foldl (score gain) start).2)) := by
  induction cands generalizing start with
  | nil => exact .inl ⟨rfl, nofun⟩
  | cons c cands ih =>
    obtain ⟨hle, hrest⟩ := List.pairwise_cons.1 hsorted
    rw [List.foldl_cons]
    by_cases hbetter : start.2 < gain c
    · have hscore : score gain start c = (c, gain c) := if_pos hbetter
      rw [hscore]
      right
      rcases ih hrest (c, gain c) with ⟨hsame, hall⟩ | ⟨hmem, hgain, hlt, hall⟩
      · rw [hsame]
        refine ⟨List.mem_cons_self .., rfl, hbetter, List.forall_mem_cons.2 ⟨⟨le_rfl, fun h => ?_⟩, ?_⟩⟩
        · exact absurd h (lt_irrefl c)
        · exact fun c' hc' => ⟨hall c' hc', fun h => absurd h (not_lt.2 (hle c' hc'))⟩
      · refine ⟨List.mem_cons_of_mem _ hmem, hgain, hbetter.trans hlt,
          List.forall_mem_cons.2 ⟨⟨hlt.le, fun _ => hlt⟩, hall⟩⟩
    · have hscore : score gain start c = start := if_neg hbetter
      rw [hscore]
      have hc := not_lt.1 hbetter
      rcases ih hrest start with ⟨hsame, hall⟩ | ⟨hmem, hgain, hlt, hall⟩
      · exact .inl ⟨hsame, List.forall_mem_cons.2 ⟨hc, hall⟩⟩
      · exact .inr ⟨List.mem_cons_of_mem _ hmem, hgain, hlt,
          List.forall_mem_cons.2 ⟨⟨hc.trans hlt.le, fun _ => hc.trans_lt hlt⟩, hall⟩⟩

/-! ### The graph of the arrays -/

/-- **The arrays describe a graph** of `n` nodes with symmetric weights: the degrees, their sum, and the row
of a node, which has the weights of its neighbours and may have something for the node itself. -/
structure Weighs (n : ℕ) (w : ℕ → ℕ → F) (deg : List F) (twoM : F) (row : ℕ → Weights F) (loops : ℕ → F) : Prop where
  symm : ∀ u v, w u v = w v u
  nonneg : ∀ u v, 0 ≤ w u v
  loops_nonneg : ∀ u, 0 ≤ loops u
  length_deg : deg.length = n
  deg : ∀ u < n, deg.getD u 0 = degree (range n) w u
  total : twoM = total (range n) w
  total_pos : 0 < twoM
  row_lt : ∀ u < n, ∀ p ∈ row u, p.1 < n
  row : ∀ u < n, ∀ (key : ℕ → ℕ) (C : ℕ), (((row u).filter fun p => key p.1 = C).map Prod.snd).sum =
    (∑ v ∈ (range n).erase u with key v = C, w u v) + if key u = C then loops u else 0

def label (comm : List ℕ) (v : ℕ) : ℕ := comm.getD v 0

def quality (n : ℕ) (w : ℕ → ℕ → F) (comm : List ℕ) : F := modularity (range n) w (label comm)

/-- **The invariant of moving**: communities are numbers of nodes, with the sums of their degrees. -/
structure Inv (n : ℕ) (w : ℕ → ℕ → F) (t : Moving F) : Prop where
  length_comm : t.comm.length = n
  lt : ∀ v < n, label t.comm v < n
  length_sigma : t.sigmaTot.length = n
  sigma : ∀ C < n, t.sigmaTot.getD C 0 = volume (range n) w (label t.comm) C

section Move

variable [IsStrictOrderedRing F] {n : ℕ} {w : ℕ → ℕ → F} {deg : List F} {twoM : F} {row : ℕ → Weights F}
  {loops : ℕ → F} {t : Moving F} {u : ℕ}

omit [Field F] [LinearOrder F] [IsStrictOrderedRing F] in
theorem label_set {comm : List ℕ} (hu : u < comm.length) (C : ℕ) :
    label (comm.set u C) = Function.update (label comm) u C := by
  funext v
  by_cases hv : v = u
  · subst hv
    rw [update_self, label, List.getD_eq_getElem?_getD, List.getElem?_set_self hu]
    rfl
  · rw [update_of_ne hv, label, label, List.getD_eq_getElem?_getD,
      List.getElem?_set_ne (Ne.symm hv), ← List.getD_eq_getElem?_getD]

omit [LinearOrder F] [IsStrictOrderedRing F] in
theorem sum_community (hu : u < n) (c : ℕ → ℕ) (C : ℕ) (f : ℕ → F) : ∑ v ∈ range n with c v = C, f v =
      (if c u = C then f u else 0) + ∑ v ∈ (range n).erase u with c v = C, f v := by
  rw [sum_filter, sum_filter, add_sum_erase _ (fun v => if c v = C then f v else 0) (mem_range.2 hu)]

def others (n : ℕ) (w : ℕ → ℕ → F) (c : ℕ → ℕ) (u C : ℕ) : F :=
  ∑ v ∈ (range n).erase u with c v = C, degree (range n) w v

variable {C : ℕ}

omit [LinearOrder F] [IsStrictOrderedRing F] in
theorem getD_taken (h : Inv n w t) (hu : u < n) (hC : C < n) :
    (t.sigmaTot.modify (label t.comm u) (· - degree (range n) w u)).getD C 0 = others n w (label t.comm) u C := by
  have hlength : C < t.sigmaTot.length := h.length_sigma.symm ▸ hC
  rw [getD_modify _ _ _ _ hlength]
  have hvolume := fun C => sum_community hu (label t.comm) C (degree (range n) w)
  split
  · rename_i heq
    rw [h.sigma C hC, volume, hvolume, if_pos heq.symm, add_sub_cancel_left]
    rfl
  · rename_i hne
    rw [h.sigma C hC, volume, hvolume, if_neg (Ne.symm hne), zero_add]
    rfl

omit [IsStrictOrderedRing F] in
/-- **The score of a community** is what draws the node to it, and for its own community what the row has
for the node itself. -/
theorem gain_eq (hG : Weighs n w deg twoM row loops) (hu : u < n) (c : ℕ → ℕ) (C : ℕ) :
    weightOf (collect c (row u) []) C - degree (range n) w u * others n w c u C / twoM =
      pull (range n) w c u C + if c u = C then loops u else 0 := by
  have hnone : weightOf ([] : Weights F) C = 0 := rfl
  rw [weightOf_collect, hnone, zero_add, hG.row u hu, pull_eq, hG.total]
  unfold others
  ring

theorem degree_nonneg (hG : Weighs n w deg twoM row loops) (u : ℕ) : 0 ≤ degree (range n) w u :=
  sum_nonneg fun v _ => hG.nonneg u v

theorem pull_nonpos (hG : Weighs n w deg twoM row loops) (hu : u < n) {c : ℕ → ℕ}
    (hC : C ∉ keys (collect c (row u) [])) : pull (range n) w c u C ≤ 0 := by
  have hgain := gain_eq hG hu c C
  rw [weightOf_of_notMem hC, zero_sub] at hgain
  have hothers : 0 ≤ others n w c u C := sum_nonneg fun v _ => degree_nonneg hG v
  have hterm : 0 ≤ degree (range n) w u * others n w c u C / twoM :=
    div_nonneg (mul_nonneg (degree_nonneg hG u) hothers) hG.total_pos.le
  have hloops : 0 ≤ if c u = C then loops u else 0 := by
    split
    · exact hG.loops_nonneg u
    · exact le_rfl
  linarith

def Draws (n : ℕ) (w : ℕ → ℕ → F) (c : ℕ → ℕ) (u C : ℕ) : Prop :=
  pull (range n) w c u (c u) < pull (range n) w c u C ∨ (pull (range n) w c u (c u) = pull (range n) w c u C ∧ C < c u)

theorem bestCommunity_spec (hG : Weighs n w deg twoM row loops) (h : Inv n w t) (hu : u < n)
    (hC : C = bestCommunity (collect (label t.comm) (row u) [])
      (t.sigmaTot.modify (label t.comm u) (· - degree (range n) w u)) (degree (range n) w u) twoM (label t.comm u)) :
    C < n ∧ (C ≠ label t.comm u → Draws n w (label t.comm) u C) := by
  have hcands : ∀ c ∈ (keys (collect (label t.comm) (row u) [])).insertionSort (· ≤ ·), c < n := by
    intro c hc
    rw [List.mem_insertionSort] at hc
    rcases mem_keys_collect.1 hc with hnone | ⟨p, hp, rfl⟩
    · cases hnone
    · exact h.lt _ (hG.row_lt u hu p hp)
  have hgain : ∀ c ∈ (keys (collect (label t.comm) (row u) [])).insertionSort (· ≤ ·),
      weightOf (collect (label t.comm) (row u) []) c - degree (range n) w u *
        (t.sigmaTot.modify (label t.comm u) (· - degree (range n) w u)).getD c 0 / twoM =
      pull (range n) w (label t.comm) u c + if label t.comm u = c then loops u else 0 := by
    intro c hc
    rw [getD_taken h hu (hcands c hc)]
    exact gain_eq hG hu (label t.comm) c
  rcases foldl_score (fun c => weightOf (collect (label t.comm) (row u) []) c - degree (range n) w u *
      (t.sigmaTot.modify (label t.comm u) (· - degree (range n) w u)).getD c 0 / twoM)
    (List.pairwise_insertionSort (· ≤ ·) (keys (collect (label t.comm) (row u) []))) (label t.comm u, 0) with
    ⟨hsame, -⟩ | ⟨hmem, hscore, hpos, hall⟩
  · have hown : C = label t.comm u := hC.trans (congrArg Prod.fst hsame)
    exact ⟨hown ▸ h.lt u hu, fun hne => absurd hown hne⟩
  · unfold bestCommunity at hC
    rw [← hC] at hmem hscore hall
    refine ⟨hcands C hmem, fun hne => ?_⟩
    rw [hgain C hmem, if_neg (Ne.symm hne), add_zero] at hscore
    rw [hscore] at hpos hall
    unfold Draws
    by_cases hown : label t.comm u ∈ (keys (collect (label t.comm) (row u) [])).insertionSort (· ≤ ·)
    · -- the own community is a candidate: it scores at least what draws the node to it
      obtain ⟨hle, hfirst⟩ := hall _ hown
      have hloops := hG.loops_nonneg u
      rw [hgain _ hown, if_pos rfl] at hle hfirst
      rcases lt_or_eq_of_le (show pull (range n) w (label t.comm) u (label t.comm u) ≤
        pull (range n) w (label t.comm) u C by linarith) with hlt | heq
      · exact .inl hlt
      · refine .inr ⟨heq, lt_of_le_of_ne (not_lt.1 fun hless => ?_) hne⟩
        have hstrict := hfirst hless
        linarith
    · rw [List.mem_insertionSort] at hown
      exact .inl ((pull_nonpos hG hu hown).trans_lt hpos)

theorem quality_set (hG : Weighs n w deg twoM row loops) (h : Inv n w t) (hu : u < n)
    (hC : Draws n w (label t.comm) u C) : quality n w t.comm < quality n w (t.comm.set u C) ∨
      (quality n w t.comm = quality n w (t.comm.set u C) ∧ C < label t.comm u) := by
  have hpos : 0 < Modularity.total (range n) w := hG.total ▸ hG.total_pos
  have hgain := modularity_update hG.symm (mem_range.2 hu) (label t.comm) C
  unfold quality
  rw [label_set (h.length_comm.symm ▸ hu), hgain]
  rcases hC with hlt | ⟨heq, hless⟩
  · left
    have hterm := div_pos (mul_pos two_pos (sub_pos.2 hlt)) hpos
    linarith
  · right
    rw [heq, sub_self, mul_zero, zero_div, add_zero]
    exact ⟨rfl, hless⟩

omit [LinearOrder F] [IsStrictOrderedRing F] in
theorem inv_place (h : Inv n w t) (hu : u < n) (hC : C < n) (moved : Bool) :
    Inv n w ⟨t.comm.set u C, (t.sigmaTot.modify (label t.comm u) (· - degree (range n) w u)).modify C
      (· + degree (range n) w u), moved⟩ := by
  have hlabel := @label_set u t.comm (h.length_comm.symm ▸ hu) C
  refine
    { length_comm := List.length_set.trans h.length_comm
      lt := fun v hv => ?_
      length_sigma := by rw [List.length_modify, List.length_modify, h.length_sigma]
      sigma := fun D hD => ?_ }
  · dsimp only
    rw [hlabel, update_apply]
    split
    · exact hC
    · exact h.lt v hv
  · dsimp only
    have hothers : ∑ v ∈ (range n).erase u with Function.update (label t.comm) u C v = D,
        degree (range n) w v = others n w (label t.comm) u D := by
      refine sum_congr (filter_congr fun v hv => ?_) fun _ _ => rfl
      rw [update_of_ne (ne_of_mem_erase hv)]
    have hlength : D < (t.sigmaTot.modify (label t.comm u) (· - degree (range n) w u)).length := by
      rw [List.length_modify, h.length_sigma]
      exact hD
    rw [hlabel, volume, sum_community hu, hothers, update_self, getD_modify _ _ _ _ hlength, getD_taken h hu hD]
    by_cases hsame : D = C
    · rw [if_pos hsame, if_pos hsame.symm, add_comm]
    · rw [if_neg hsame, if_neg (Ne.symm hsame), zero_add]

/-- **What a move does**: nothing, or it puts the node into another community, which raises the modularity,
or keeps it and has a smaller number. -/
theorem move_spec (hG : Weighs n w deg twoM row loops) (h : Inv n w t) (hu : u < n) : Inv n w (move deg twoM row t u) ∧
      (((move deg twoM row t u).comm = t.comm ∧ (move deg twoM row t u).moved = t.moved) ∨
        ∃ C, C ≠ label t.comm u ∧ (move deg twoM row t u).comm = t.comm.set u C ∧ (move deg twoM row t u).moved = true ∧
          (quality n w t.comm < quality n w (t.comm.set u C) ∨
            (quality n w t.comm = quality n w (t.comm.set u C) ∧ C < label t.comm u))) := by
  unfold move
  split
  · exact ⟨h, .inl ⟨rfl, rfl⟩⟩
  · obtain ⟨C, hC⟩ : ∃ C, C = bestCommunity (collect (label t.comm) (row u) [])
        (t.sigmaTot.modify (label t.comm u) (· - degree (range n) w u)) (degree (range n) w u) twoM
        (label t.comm u) := ⟨_, rfl⟩
    obtain ⟨hlt, hdraws⟩ := bestCommunity_spec hG h hu hC
    have hplace : place (deg.getD u 0) twoM (collect (fun v => t.comm.getD v 0) (row u) []) u t =
        ⟨t.comm.set u C, (t.sigmaTot.modify (label t.comm u) (· - degree (range n) w u)).modify C
          (· + degree (range n) w u), t.moved || C != label t.comm u⟩ := by
      rw [hC, hG.deg u hu]
      rfl
    rw [hplace]
    refine ⟨inv_place h hu hlt _, ?_⟩
    by_cases hown : C = label t.comm u
    · left
      subst hown
      have hget : u < t.comm.length := h.length_comm.symm ▸ hu
      refine ⟨?_, by simp⟩
      dsimp only
      rw [label, List.getD_eq_getElem _ _ hget, List.set_getElem_self]
    · right
      exact ⟨C, hown, rfl, by simp [hown], quality_set hG h hu (hdraws hown)⟩

end Move

section Sweeps

variable [IsStrictOrderedRing F] {n : ℕ} {w : ℕ → ℕ → F} {deg : List F} {twoM : F} {row : ℕ → Weights F}
  {loops : ℕ → F} {t : Moving F}

def Improves (n : ℕ) (w : ℕ → ℕ → F) (comm comm' : List ℕ) : Prop :=
  quality n w comm < quality n w comm' ∨ (quality n w comm = quality n w comm' ∧ comm'.sum < comm.sum)

omit [IsStrictOrderedRing F] in
theorem Improves.trans {a b c : List ℕ} (hab : Improves n w a b) (hbc : Improves n w b c) : Improves n w a c := by
  rcases hab with hlt | ⟨heq, hsum⟩ <;> rcases hbc with hlt' | ⟨heq', hsum'⟩
  · exact .inl (hlt.trans hlt')
  · exact .inl (heq' ▸ hlt)
  · exact .inl (heq.trans_lt hlt')
  · exact .inr ⟨heq.trans heq', hsum'.trans hsum⟩

omit [IsStrictOrderedRing F] in
theorem Improves.irrefl (a : List ℕ) : ¬ Improves n w a a := by
  rintro (hlt | ⟨-, hsum⟩)
  · exact lt_irrefl _ hlt
  · exact lt_irrefl _ hsum

omit [IsStrictOrderedRing F] in
theorem Improves.le {a b : List ℕ} (h : Improves n w a b) : quality n w a ≤ quality n w b :=
  h.elim le_of_lt fun h => h.1.le

theorem sum_set_add {comm : List ℕ} {u : ℕ} (hu : u < comm.length) (C : ℕ) :
    (comm.set u C).sum + label comm u = comm.sum + C := by
  induction comm generalizing u with
  | nil => cases hu
  | cons c comm ih =>
    cases u with
    | zero =>
      rw [List.set_cons_zero, List.sum_cons, List.sum_cons, label, List.getD_cons_zero]
      omega
    | succ u =>
      have hrest := ih (Nat.lt_of_succ_lt_succ hu)
      rw [label] at hrest ⊢
      rw [List.set_cons_succ, List.sum_cons, List.sum_cons, List.getD_cons_succ]
      omega

theorem foldl_move (hG : Weighs n w deg twoM row loops) {us : List ℕ} (hus : ∀ u ∈ us, u < n)
    (h : Inv n w t) : Inv n w (us.foldl (move deg twoM row) t) ∧
      (((us.foldl (move deg twoM row) t).comm = t.comm ∧ (us.foldl (move deg twoM row) t).moved = t.moved) ∨
        ((us.foldl (move deg twoM row) t).moved = true ∧
          Improves n w t.comm (us.foldl (move deg twoM row) t).comm)) := by
  induction us generalizing t with
  | nil => exact ⟨h, .inl ⟨rfl, rfl⟩⟩
  | cons u us ih =>
    have hu := hus u (List.mem_cons_self ..)
    obtain ⟨hinv, hmove⟩ := move_spec hG h hu
    obtain ⟨hinv', hrest⟩ := ih (fun v hv => hus v (List.mem_cons_of_mem _ hv)) hinv
    refine ⟨hinv', ?_⟩
    rw [List.foldl_cons]
    rcases hmove with ⟨hcomm, hmoved⟩ | ⟨C, -, hcomm, hmoved, hbetter⟩
    · rwa [hcomm, hmoved] at hrest
    · have hstep : Improves n w t.comm (move deg twoM row t u).comm := by
        rw [hcomm]
        rcases hbetter with hlt | ⟨heq, hless⟩
        · exact .inl hlt
        · have hsum := @sum_set_add t.comm u (h.length_comm.symm ▸ hu) C
          exact .inr ⟨heq, by omega⟩
      right
      rcases hrest with ⟨hsame, hflag⟩ | ⟨hflag, himproves⟩
      · exact ⟨hflag.trans hmoved, hsame.symm ▸ hstep⟩
      · exact ⟨hflag, hstep.trans himproves⟩

theorem sweep_spec (hG : Weighs n w deg twoM row loops) (h : Inv n w t) : Inv n w (sweep (move deg twoM row) n t) ∧
      (((sweep (move deg twoM row) n t).comm = t.comm ∧ (sweep (move deg twoM row) n t).moved = false) ∨
        ((sweep (move deg twoM row) n t).moved = true ∧ Improves n w t.comm (sweep (move deg twoM row) n t).comm)) :=
  foldl_move hG (fun _ hu => List.mem_range.1 hu) ⟨h.length_comm, h.lt, h.length_sigma, h.sigma⟩

theorem inv_iterate (hG : Weighs n w deg twoM row loops) (h : Inv n w t) (k : ℕ) :
    Inv n w ((sweep (move deg twoM row) n)^[k] t) := by
  induction k with
  | zero => exact h
  | succ k ih =>
    rw [iterate_succ_apply']
    exact (sweep_spec hG ih).1

theorem exists_still (hG : Weighs n w deg twoM row loops) (h : Inv n w t) :
    ∃ k, ((sweep (move deg twoM row) n)^[k + 1] t).moved = false := by
  by_contra hnone
  have hmoves : ∀ k, ((sweep (move deg twoM row) n)^[k + 1] t).moved = true := fun k =>
    Bool.eq_true_of_not_eq_false fun hfalse => hnone ⟨k, hfalse⟩
  have hstep : ∀ k, Improves n w ((sweep (move deg twoM row) n)^[k] t).comm
      ((sweep (move deg twoM row) n)^[k + 1] t).comm := by
    intro k
    have hflag := hmoves k
    rw [iterate_succ_apply'] at hflag ⊢
    rcases (sweep_spec hG (inv_iterate hG h k)).2 with ⟨-, hfalse⟩ | ⟨-, himproves⟩
    · rw [hfalse] at hflag
      cases hflag
    · exact himproves
  have hchain : ∀ i d, Improves n w ((sweep (move deg twoM row) n)^[i] t).comm
      ((sweep (move deg twoM row) n)^[i + d + 1] t).comm := by
    intro i d
    induction d with
    | zero => exact hstep i
    | succ d ih => exact ih.trans (hstep (i + d + 1))
  -- two sweeps end with the same labels
  have hlt : ∀ k (v : Fin n), label ((sweep (move deg twoM row) n)^[k] t).comm v < n := fun k v =>
    (inv_iterate hG h k).lt v v.2
  obtain ⟨i, j, hne, heq⟩ := Finite.exists_ne_map_eq_of_infinite fun (k : ℕ) (v : Fin n) => (⟨_, hlt k v⟩ : Fin n)
  have hsame : ((sweep (move deg twoM row) n)^[i] t).comm = ((sweep (move deg twoM row) n)^[j] t).comm := by
    have hi := (inv_iterate hG h i).length_comm
    have hj := (inv_iterate hG h j).length_comm
    refine List.ext_getElem (hi.trans hj.symm) fun v hv hv' => ?_
    have hlabel := congrArg Fin.val (congrFun heq ⟨v, hi ▸ hv⟩)
    dsimp only [label] at hlabel
    rwa [List.getD_eq_getElem _ _ hv, List.getD_eq_getElem _ _ hv'] at hlabel
  rcases Nat.lt_or_gt_of_ne hne with hless | hless
  · have himproves := hchain i (j - i - 1)
    rw [show i + (j - i - 1) + 1 = j by omega, ← hsame] at himproves
    exact Improves.irrefl _ himproves
  · have himproves := hchain j (i - j - 1)
    rw [show j + (i - j - 1) + 1 = i by omega, hsame] at himproves
    exact Improves.irrefl _ himproves

omit [Field F] [LinearOrder F] [IsStrictOrderedRing F] in
theorem passes_of_still {step : Moving F → ℕ → Moving F} {k : ℕ}
    (h : ((sweep step n)^[k + 1] t).moved = false) :
    ∃ N, (passes step n N t).moved = false ∧ ∀ j ≥ N, passes step n j t = passes step n N t := by
  induction k generalizing t with
  | zero =>
    have hstill : (sweep step n t).moved = false := h
    have hone : ∀ j, passes step n (j + 1) t = sweep step n t := by
      intro j
      unfold passes
      dsimp only
      rw [hstill]
      rfl
    refine ⟨1, (congrArg Moving.moved (hone 0)).trans hstill, fun j hj => ?_⟩
    obtain ⟨j, rfl⟩ : ∃ i, j = i + 1 := ⟨j - 1, by omega⟩
    exact (hone j).trans (hone 0).symm
  | succ k ih =>
    rw [iterate_succ_apply] at h
    obtain ⟨N, hmoved, hall⟩ := ih h
    by_cases hstill : (sweep step n t).moved = true
    · have hnext : ∀ j, passes step n (j + 1) t = passes step n j (sweep step n t) := by
        intro j
        conv_lhs => unfold passes
        dsimp only
        rw [if_pos hstill]
      refine ⟨N + 1, (congrArg Moving.moved (hnext N)).trans hmoved, fun j hj => ?_⟩
      obtain ⟨j, rfl⟩ : ∃ i, j = i + 1 := ⟨j - 1, by omega⟩
      exact ((hnext j).trans (hall j (by omega))).trans (hnext N).symm
    · have hone : ∀ j, passes step n (j + 1) t = sweep step n t := by
        intro j
        unfold passes
        dsimp only
        rw [if_neg hstill]
      refine ⟨1, (congrArg Moving.moved (hone 0)).trans (Bool.eq_false_of_not_eq_true hstill), fun j hj => ?_⟩
      obtain ⟨j, rfl⟩ : ∃ i, j = i + 1 := ⟨j - 1, by omega⟩
      exact (hone j).trans (hone 0).symm

theorem passes_end (hG : Weighs n w deg twoM row loops) (h : Inv n w t) :
    ∃ N, (passes (move deg twoM row) n N t).moved = false ∧
      ∀ j ≥ N, passes (move deg twoM row) n j t = passes (move deg twoM row) n N t := by
  obtain ⟨k, hk⟩ := exists_still hG h
  exact passes_of_still hk

theorem modularity_passes (hG : Weighs n w deg twoM row loops) (h : Inv n w t) (k : ℕ) :
    Inv n w (passes (move deg twoM row) n k t) ∧
      quality n w t.comm ≤ quality n w (passes (move deg twoM row) n k t).comm := by
  induction k generalizing t with
  | zero => exact ⟨h, le_rfl⟩
  | succ k ih =>
    obtain ⟨hinv, hsweep⟩ := sweep_spec hG h
    have hle : quality n w t.comm ≤ quality n w (sweep (move deg twoM row) n t).comm := by
      rcases hsweep with ⟨hsame, -⟩ | ⟨-, himproves⟩
      · rw [hsame]
      · exact himproves.le
    unfold passes
    dsimp only
    split
    · obtain ⟨hinv', hle'⟩ := ih hinv
      exact ⟨hinv', hle.trans hle'⟩
    · exact ⟨hinv, hle⟩

/-- The state in which the node `u` is visited, in the sweep after `k` passes. -/
def visit (step : Moving F → ℕ → Moving F) (n k : ℕ) (t : Moving F) (u : ℕ) : Moving F :=
  (List.range u).foldl step { passes step n k t with moved := false }

/-- **What local moving achieves**: every node that moves raises the modularity, or keeps it and goes to a
smaller number; the sweeps end without their bound; no bound makes the result worse than the start. -/
structure Progress (n : ℕ) (w : ℕ → ℕ → F) (step : Moving F → ℕ → Moving F) (start : Moving F) : Prop where
  gains : ∀ k, ∀ u < n, (step (visit step n k start u) u).comm ≠ (visit step n k start u).comm →
    quality n w (visit step n k start u).comm < quality n w (step (visit step n k start u) u).comm ∨
      (quality n w (visit step n k start u).comm = quality n w (step (visit step n k start u) u).comm ∧
        label (step (visit step n k start u) u).comm u < label (visit step n k start u).comm u)
  ends : ∃ N, (passes step n N start).moved = false ∧ ∀ k ≥ N, passes step n k start = passes step n N start
  above : ∀ k, quality n w start.comm ≤ quality n w (passes step n k start).comm

theorem progress (hG : Weighs n w deg twoM row loops) (h : Inv n w t) : Progress n w (move deg twoM row) t where
  gains := by
    intro k u hu hne
    obtain ⟨hpasses, -⟩ := modularity_passes hG h k
    have hreset : Inv n w { passes (move deg twoM row) n k t with moved := false } :=
      ⟨hpasses.length_comm, hpasses.lt, hpasses.length_sigma, hpasses.sigma⟩
    have hvisit : Inv n w (visit (move deg twoM row) n k t u) :=
      (foldl_move hG (fun v hv => (List.mem_range.1 hv).trans hu) hreset).1
    rcases (move_spec hG hvisit hu).2 with ⟨hsame, -⟩ | ⟨C, -, hcomm, -, hbetter⟩
    · exact absurd hsame hne
    · have hlabel := congrFun (@label_set u _ (hvisit.length_comm.symm ▸ hu) C) u
      rw [update_self] at hlabel
      rwa [hcomm, hlabel]
  ends := passes_end hG h
  above := fun k => (modularity_passes hG h k).2

end Sweeps

end LocalMoving
