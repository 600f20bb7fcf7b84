/-
**Community detection with every index checked.**

`detect_communities` sweeps over the nodes and moves each to the neighbouring community that raises
modularity most;  `detect_communities_hierarchical` does the same on a weighted adjacency, collapses
every community into one node and goes on with the smaller graph.
-/

import Pensieve.SafeTraverse

namespace GraphTopo.Checked

open List
open Bounds

/-! ### Weights -/

abbrev Weights := List (ℕ × Float)

/-- `*m.entry(c).or_insert(0.0) += w`. -/
def entryAdd : Weights → ℕ → Float → Weights
  | [], c, w => [(c, 0 + w)]
  | (k, x) :: m, c, w => if k = c then (k, x + w) :: m else (k, x) :: entryAdd m c w

/-- `m[&c]`. -/
def weightOf (m : Weights) (c : ℕ) : Option Float := (m.find? fun p => p.1 = c).map Prod.snd

/-! ### One move -/

/-- Communities, the degrees they sum up to, and whether the sweep has moved a node. -/
structure Moving where
  comm : List ℕ
  sigmaTot : List Float
  moved : Bool

/-- The best community for a node of degree `degU`, scored in ascending order. -/
def bestCommunity (kIn : Weights) (sigmaTot : List Float) (degU twoM : Float) (cu : ℕ) : Option (ℕ × Float) :=
  ((kIn.map Prod.fst).mergeSort (· ≤ ·)).foldlM (fun best c => do
      let edgesToC ← weightOf kIn c
      let sigma ← index sigmaTot c
      let gain := edgesToC - degU * sigma / twoM
      pure (if best.2 < gain then (c, gain) else best))
    (cu, 0)

/-- Take `u` out of its community and put it into the best one. -/
def place (deg : List Float) (twoM : Float) (kIn : Weights) (u : ℕ) (t : Moving) : Option Moving := do
  let cu ← index t.comm u
  let degU ← index deg u
  let sigmaTot ← update t.sigmaTot cu (· - degU)
  let best ← bestCommunity kIn sigmaTot degU twoM cu
  let sigmaTot ← update sigmaTot best.1 (· + degU)
  let comm ← store t.comm u best.1
  pure ⟨comm, sigmaTot, t.moved || best.1 != cu⟩

/-- Sweeps over the nodes `0..n` until none is moved, at most `maxPasses` of them. -/
def sweeps (move : Moving → ℕ → Option Moving) (n maxPasses : ℕ) (t : Moving) : Option Moving :=
  loop (fun t => do
      let t ← (List.range n).foldlM move { t with moved := false }
      pure (t, t.moved))
    maxPasses t

/-! ### One level -/

/-- **`degrees`**: of every node, and half of their sum. -/
def degrees (g : CsrGraph) (dir : Direction) : Option (List Float × Float) := do
  let deg ← (List.range g.ids.length).mapM fun u => do
    let nbrs ← step g (asU32 u) dir .any
    pure (Float.ofNat nbrs.length)
  pure (deg, deg.foldl (· + ·) 0 / 2)

/-- `remap.entry(c).or_insert(next)`. -/
def entryId (remap : List (ℕ × ℕ)) (c next : ℕ) : List (ℕ × ℕ) × ℕ :=
  match remap.find? fun p => p.1 = c with
  | some p => (remap, p.2)
  | none => (remap ++ [(c, next)], next)

/-- **`dense_communities`**: labels by first occurrence, each with the id of its node. -/
def denseCommunities (g : CsrGraph) (comm : List ℕ) : Option (List (String × ℕ)) := do
  let s ← comm.zipIdx.foldlM
    (fun (s : List (ℕ × ℕ) × List (String × ℕ)) p => do
      let e := entryId s.1 p.1 (asU32 s.1.length)
      let id ← index g.ids p.2
      pure (e.1, s.2 ++ [(id, e.2)]))
    ([], [])
  pure s.2

def moveNode (g : CsrGraph) (dir : Direction) (deg : List Float) (twoM : Float) (t : Moving)
    (u : ℕ) : Option Moving := do
  let degU ← index deg u
  if degU == 0 then pure t
  else
    let nbrs ← step g (asU32 u) dir .any
    let kIn ← nbrs.foldlM
      (fun kIn v => do
        let c ← index t.comm v
        pure (entryAdd kIn c 1))
      []
    place deg twoM kIn u t

def detectCommunities (g : CsrGraph) (dir : Direction) (maxPasses : ℕ) : Option (List (String × ℕ)) := do
  let n := g.ids.length
  let d ← degrees g dir
  let comm := List.range (asU32 n)
  if d.2 == 0 then denseCommunities g comm
  else
    let t ← sweeps (moveNode g dir d.1 (2 * d.2)) n maxPasses ⟨comm, d.1, false⟩
    denseCommunities g t.comm

section Hierarchy

variable (order : Weights → Weights)

def weightedAdjacency (g : CsrGraph) (dir : Direction) : Option (List Weights) :=
  (List.range g.ids.length).mapM fun u => do
    let nbrs ← step g (asU32 u) dir .any
    pure (nbrs.foldl (fun row v => entryAdd row v 1) [])

def moveWeighted (adj : List Weights) (deg : List Float) (twoM : Float) (t : Moving) (u : ℕ) : Option Moving := do
  let degU ← index deg u
  if degU == 0 then pure t
  else
    let row ← index adj u
    let kIn ← (order row).foldlM
      (fun kIn p =>
        -- a self-loop is internal wherever the node goes
        if p.1 = u then pure kIn
        else do
          let c ← index t.comm p.1
          pure (entryAdd kIn c p.2))
      []
    place deg twoM kIn u t

def louvainLocalMoving (adj : List Weights) (maxPasses : ℕ) : Option (List ℕ) :=
  let n := adj.length
  let deg := adj.map fun row => (order row).foldl (fun x p => x + p.2) 0
  let m := deg.foldl (· + ·) 0 / 2
  let comm := List.range n
  if m == 0 then pure comm
  else do
    let t ← sweeps (moveWeighted order adj deg (2 * m)) n (max maxPasses 1) ⟨comm, deg, false⟩
    pure t.comm

/-- One label of `densify`: the table, and the dense labels so far. -/
def densifyLabel (s : List (ℕ × ℕ) × List ℕ) (c : ℕ) : List (ℕ × ℕ) × List ℕ :=
  let e := entryId s.1 c s.1.length
  (e.1, s.2 ++ [e.2])

/-- **`densify`**: labels by first occurrence, and how many there are. -/
def densify (raw : List ℕ) : List ℕ × ℕ :=
  let s := raw.foldl densifyLabel ([], [])
  (s.2, s.1.length)

/-- **`aggregate`**: one node for each community. -/
def aggregate (adj : List Weights) (comm : List ℕ) (k : ℕ) : Option (List Weights) :=
  adj.zipIdx.foldlM (fun sup q => do
      let cu ← index comm q.2
      (order q.1).foldlM (fun sup p => do
          let cv ← index comm p.1
          update sup cu fun row => entryAdd row cv p.2)
        sup)
    (List.replicate k [])

def level (maxPasses : ℕ) (s : List Weights × List ℕ) : Option ((List Weights × List ℕ) × Bool) := do
  let raw ← louvainLocalMoving order s.1 maxPasses
  let d := densify raw
  let nodeComm ← s.2.mapM fun c => index d.1 c
  if d.2 = s.1.length then pure ((s.1, nodeComm), false)
  else
    let adj ← aggregate order s.1 d.1 d.2
    pure ((adj, nodeComm), true)

def detectCommunitiesHierarchical (g : CsrGraph) (dir : Direction)
    (maxPassesPerLevel maxLevels : ℕ) : Option (List (String × ℕ)) := do
  let adj ← weightedAdjacency g dir
  let s ← loop (level order maxPassesPerLevel) (max maxLevels 1) (adj, List.range g.ids.length)
  denseCommunities g (s.2.map asU32)

end Hierarchy

/-! ### Keys -/

/-- Every key is below `n`. -/
def KeysLt (n : ℕ) (m : Weights) : Prop := ∀ p ∈ m, p.1 < n

theorem KeysLt.entryAdd {n c : ℕ} {m : Weights} (h : KeysLt n m) (hc : c < n) (w : Float) :
    KeysLt n (entryAdd m c w) := by
  induction m with
  | nil =>
    intro p hp
    rw [mem_singleton.mp hp]
    exact hc
  | cons q m ih =>
    have htail := ih fun p hp => h p (.tail _ hp)
    have hhead : q.1 < n := h q (.head _)
    unfold Checked.entryAdd
    split
    · intro p hp
      rcases mem_cons.mp hp with rfl | hp
      · exact hhead
      · exact h p (.tail _ hp)
    · intro p hp
      rcases mem_cons.mp hp with rfl | hp
      · exact hhead
      · exact htail p hp

theorem keysLt_foldl {n : ℕ} {nbrs : List ℕ} (hnbrs : ∀ v ∈ nbrs, v < n) {row : Weights}
    (h : KeysLt n row) : KeysLt n (nbrs.foldl (fun row v => entryAdd row v 1) row) := by
  induction nbrs generalizing row with
  | nil => exact h
  | cons v nbrs ih =>
    rw [foldl_cons]
    exact ih (fun w hw => hnbrs w (.tail _ hw)) (h.entryAdd (hnbrs v (.head _)) 1)

theorem safe_weightOf {m : Weights} {c : ℕ} (hc : c ∈ m.map Prod.fst) : Safe (weightOf m c) fun _ => True := by
  obtain ⟨p, hp, rfl⟩ := mem_map.mp hc
  have hsome : (m.find? fun q => q.1 = p.1).isSome := by
    rw [find?_isSome]
    exact ⟨p, hp, by simp⟩
  obtain ⟨q, hq⟩ := Option.isSome_iff_exists.mp hsome
  exact ⟨q.2, by rw [weightOf, hq]; rfl, trivial⟩

/-! ### A move keeps community numbers in range -/

/-- One community for each node, itself the number of a node, and one sum for each community. -/
structure Moving.Inv (n : ℕ) (t : Moving) : Prop where
  comm_length : t.comm.length = n
  comm_lt : ∀ c ∈ t.comm, c < n
  sigmaTot_length : t.sigmaTot.length = n

variable {g : CsrGraph} {n : ℕ}

theorem safe_bestCommunity {kIn : Weights} {sigmaTot : List Float} {degU twoM : Float} {cu : ℕ}
    (hkeys : KeysLt n kIn) (hlen : sigmaTot.length = n) (hcu : cu < n) :
    Safe (bestCommunity kIn sigmaTot degU twoM cu) fun best => best.1 < n := by
  refine Safe.foldlM (I := fun best : ℕ × Float => best.1 < n) hcu fun best c hc hbest => ?_
  rw [mem_mergeSort] at hc
  have hcn : c < n := by
    obtain ⟨p, hp, rfl⟩ := mem_map.mp hc
    exact hkeys p hp
  refine (safe_weightOf hc).bind fun edgesToC _ => ?_
  refine (Safe.index (by omega)).bind fun sigma _ => Safe.pure ?_
  split
  · exact hcn
  · exact hbest

variable {deg : List Float}

theorem safe_place {twoM : Float} {kIn : Weights} {u : ℕ} {t : Moving} (h : t.Inv n)
    (hdeg : deg.length = n) (hkeys : KeysLt n kIn) (hu : u < n) : Safe (place deg twoM kIn u t) (Moving.Inv n) := by
  have hcomm := h.comm_length
  have hsigma := h.sigmaTot_length
  refine (Safe.index (by omega)).bind fun cu hcu => ?_
  have hcun : cu < n := h.comm_lt cu hcu
  refine (Safe.index (by omega)).bind fun degU _ => ?_
  refine (Safe.update (by omega)).bind fun sigmaTot hs => ?_
  refine (safe_bestCommunity hkeys (hs.1.trans hsigma) hcun).bind fun best hbest => ?_
  refine (Safe.update (by omega)).bind fun sigmaTot' hs' => ?_
  have hlen : sigmaTot'.length = n := by omega
  refine (Safe.store (by omega)).bind fun comm hc => Safe.pure ⟨hc.1.trans hcomm, ?_, hlen⟩
  intro c hmem
  rcases hc.2 c hmem with hmem | rfl
  · exact h.comm_lt c hmem
  · exact hbest

theorem safe_sweeps {move : Moving → ℕ → Option Moving}
    (hmove : ∀ t u, u < n → Moving.Inv n t → Safe (move t u) (Moving.Inv n)) (maxPasses : ℕ)
    {t : Moving} (h : t.Inv n) : Safe (sweeps move n maxPasses t) (Moving.Inv n) := by
  refine Safe.loop (fun t ht => ?_) maxPasses h
  have hstart : ({ t with moved := false } : Moving).Inv n := ⟨ht.comm_length, ht.comm_lt, ht.sigmaTot_length⟩
  refine (Safe.foldlM hstart fun t u hu ht => hmove t u (mem_range.mp hu) ht).bind ?_
  exact fun t ht => Safe.pure ht

/-! ### One level is safe -/

theorem safe_degrees (hwf : WellFormed g) (dir : Direction) :
    Safe (degrees g dir) fun d => d.1.length = g.ids.length := by
  refine (Safe.mapM (Q := fun _ => True) fun u hu => ?_).bind fun deg hdeg => Safe.pure ?_
  · have hlt : asU32 u < g.ids.length := (asU32_le u).trans_lt (mem_range.mp hu)
    exact (safe_step hwf hlt dir .any).bind fun nbrs _ => Safe.pure trivial
  · exact hdeg.1.trans length_range

theorem safe_denseCommunities {comm : List ℕ} (h : comm.length ≤ g.ids.length) :
    Safe (denseCommunities g comm) fun _ => True := by
  refine (Safe.foldlM (I := fun _ => True) trivial fun s p hp _ => ?_).bind fun s _ => Safe.pure trivial
  have hlt : p.2 < g.ids.length := (lt_of_mem_zipIdx hp).trans_le h
  exact (Safe.index hlt).bind fun id _ => Safe.pure trivial

theorem safe_moveNode (hwf : WellFormed g) {dir : Direction} {twoM : Float}
    (hdeg : deg.length = g.ids.length) (t : Moving) (u : ℕ) (hu : u < g.ids.length)
    (h : t.Inv g.ids.length) : Safe (moveNode g dir deg twoM t u) (Moving.Inv g.ids.length) := by
  have hcomm := h.comm_length
  refine (Safe.index (by omega)).bind fun degU _ => ?_
  split
  · exact Safe.pure h
  · have hlt : asU32 u < g.ids.length := (asU32_le u).trans_lt hu
    refine (safe_step hwf hlt dir .any).bind fun nbrs hnbrs => ?_
    have hnil : KeysLt g.ids.length [] := fun p hp => absurd hp not_mem_nil
    refine (Safe.foldlM hnil fun kIn v hv hkeys => ?_).bind fun kIn hkeys => ?_
    · have hv' := hnbrs v hv
      refine (Safe.index (by omega)).bind fun c hc => Safe.pure ?_
      exact hkeys.entryAdd (h.comm_lt c hc) 1
    · exact safe_place h hdeg hkeys hu

theorem inv_start (hdeg : deg.length = n) : (⟨List.range n, deg, false⟩ : Moving).Inv n :=
  ⟨length_range, fun _ hc => mem_range.mp hc, hdeg⟩

/-- **`detect_communities` is safe** on every well-formed graph whose nodes a `u32` can number. -/
theorem safe_detectCommunities (hwf : WellFormed g) (hlt : g.ids.length < 2 ^ 32) (dir : Direction)
    (maxPasses : ℕ) : Safe (detectCommunities g dir maxPasses) fun _ => True := by
  refine (safe_degrees hwf dir).bind fun d hd => ?_
  rw [asU32_of_lt hlt]
  split
  · exact safe_denseCommunities (by rw [length_range])
  · refine (safe_sweeps (safe_moveNode hwf hd) maxPasses (inv_start hd)).bind fun t ht => ?_
    exact safe_denseCommunities ht.comm_length.le

/-! ### All levels are safe -/

def AdjInv (adj : List Weights) : Prop := ∀ row ∈ adj, KeysLt adj.length row

theorem safe_weightedAdjacency (hwf : WellFormed g) (dir : Direction) :
    Safe (weightedAdjacency g dir) fun adj => adj.length = g.ids.length ∧ AdjInv adj := by
  refine (Safe.mapM (Q := KeysLt g.ids.length) fun u hu => ?_).mono fun adj hadj => ?_
  · have hlt : asU32 u < g.ids.length := (asU32_le u).trans_lt (mem_range.mp hu)
    refine (safe_step hwf hlt dir .any).bind fun nbrs hnbrs => Safe.pure ?_
    exact keysLt_foldl hnbrs fun p hp => absurd hp not_mem_nil
  · have hlen := hadj.1.trans length_range
    exact ⟨hlen, fun row hrow => hlen ▸ hadj.2 row hrow⟩

section Hierarchy

variable {order : Weights → Weights} (horder : ∀ m, (order m).Perm m)
include horder

variable {adj : List Weights}

theorem safe_moveWeighted {deg : List Float} {twoM : Float} (hadj : AdjInv adj)
    (hdeg : deg.length = adj.length) (t : Moving) (u : ℕ) (hu : u < adj.length) (h : t.Inv adj.length) :
    Safe (moveWeighted order adj deg twoM t u) (Moving.Inv adj.length) := by
  have hcomm := h.comm_length
  refine (Safe.index (by omega)).bind fun degU _ => ?_
  split
  · exact Safe.pure h
  · refine (Safe.index hu).bind fun row hrow => ?_
    have hnil : KeysLt adj.length [] := fun p hp => absurd hp not_mem_nil
    refine (Safe.foldlM hnil fun kIn p hp hkeys => ?_).bind fun kIn hkeys => ?_
    · split
      · exact Safe.pure hkeys
      · have hp' : p.1 < adj.length := hadj row hrow p ((horder row).mem_iff.mp hp)
        refine (Safe.index (by omega)).bind fun c hc => Safe.pure ?_
        exact hkeys.entryAdd (h.comm_lt c hc) p.2
    · exact safe_place h hdeg hkeys hu

theorem safe_louvainLocalMoving (hadj : AdjInv adj) (maxPasses : ℕ) :
    Safe (louvainLocalMoving order adj maxPasses) fun comm => comm.length = adj.length := by
  unfold louvainLocalMoving
  simp only
  split
  · exact Safe.pure length_range
  · have hdeg : (adj.map fun row => (order row).foldl (fun x p => x + p.2) 0).length = adj.length := length_map _
    refine (safe_sweeps (safe_moveWeighted horder hadj hdeg) _ (inv_start hdeg)).bind ?_
    exact fun t ht => Safe.pure ht.comm_length

omit horder in
theorem entryId_lt {remap : List (ℕ × ℕ)} (h : ∀ p ∈ remap, p.2 < remap.length) (c : ℕ) :
    (∀ p ∈ (entryId remap c remap.length).1, p.2 < (entryId remap c remap.length).1.length) ∧
      (entryId remap c remap.length).2 < (entryId remap c remap.length).1.length ∧
      remap.length ≤ (entryId remap c remap.length).1.length := by
  unfold entryId
  split
  · rename_i p hp
    exact ⟨h, h p (mem_of_find?_eq_some hp), le_rfl⟩
  · simp only [length_append, length_singleton]
    refine ⟨fun p hp => ?_, by omega, by omega⟩
    rcases mem_append.mp hp with hp | hp
    · have := h p hp
      omega
    · rw [mem_singleton.mp hp]
      simp

omit horder in
theorem densify_spec (raw : List ℕ) :
    (densify raw).1.length = raw.length ∧ ∀ c ∈ (densify raw).1, c < (densify raw).2 := by
  -- the labels so far are below the size of the table so far
  have key : ∀ (rest : List ℕ) (s : List (ℕ × ℕ) × List ℕ),
      (∀ p ∈ s.1, p.2 < s.1.length) → (∀ c ∈ s.2, c < s.1.length) →
        (rest.foldl densifyLabel s).2.length = s.2.length + rest.length ∧
        ∀ c ∈ (rest.foldl densifyLabel s).2, c < (rest.foldl densifyLabel s).1.length := by
    intro rest
    induction rest with
    | nil => exact fun s _ hs => ⟨rfl, hs⟩
    | cons r rest ih =>
      intro s hremap hs
      obtain ⟨hnew, hid, hle⟩ := entryId_lt hremap r
      have hlabels : ∀ c ∈ (densifyLabel s r).2, c < (densifyLabel s r).1.length := by
        intro c hc
        rcases mem_append.mp hc with hc | hc
        · exact (hs c hc).trans_le hle
        · rwa [mem_singleton.mp hc]
      obtain ⟨hlen, hlt⟩ := ih (densifyLabel s r) hnew hlabels
      have hone : (densifyLabel s r).2.length = s.2.length + 1 := by simp [densifyLabel]
      refine ⟨?_, hlt⟩
      rw [foldl_cons, hlen, hone, length_cons]
      omega
  obtain ⟨hlen, hlt⟩ := key raw ([], []) (by simp) (by simp)
  refine ⟨hlen.trans ?_, hlt⟩
  rw [length_nil, Nat.zero_add]

theorem safe_aggregate {comm : List ℕ} {k : ℕ} (hadj : AdjInv adj) (hlen : comm.length = adj.length)
    (hcomm : ∀ c ∈ comm, c < k) : Safe (aggregate order adj comm k) fun sup => sup.length = k ∧ AdjInv sup := by
  have hinit : (List.replicate k ([] : Weights)).length = k ∧
      ∀ row ∈ List.replicate k ([] : Weights), KeysLt k row := by
    refine ⟨length_replicate, fun row hrow p hp => ?_⟩
    rw [eq_of_mem_replicate hrow] at hp
    exact absurd hp not_mem_nil
  have hfold : Safe (aggregate order adj comm k) fun sup =>
      sup.length = k ∧ ∀ row ∈ sup, KeysLt k row := by
    refine Safe.foldlM hinit fun sup q hq hsup => ?_
    have hq₂ : q.2 < adj.length := lt_of_mem_zipIdx hq
    have hq₁ : q.1 ∈ adj := fst_mem_of_mem_zipIdx hq
    refine (Safe.index (by omega)).bind fun cu hcu => ?_
    refine Safe.foldlM hsup fun sup p hp hsup => ?_
    have hp' : p.1 < adj.length := hadj q.1 hq₁ p ((horder q.1).mem_iff.mp hp)
    refine (Safe.index (by omega)).bind fun cv hcv => ?_
    refine (Safe.update (by rw [hsup.1]; exact hcomm cu hcu)).mono fun sup' hsup' => ?_
    refine ⟨hsup'.1.trans hsup.1, fun row hrow => ?_⟩
    rcases hsup'.2 row hrow with hrow | ⟨row', hrow', rfl⟩
    · exact hsup.2 row hrow
    · exact (hsup.2 row' hrow').entryAdd (hcomm cv hcv) p.2
  exact hfold.mono fun sup hsup => ⟨hsup.1, fun row hrow => hsup.1.symm ▸ hsup.2 row hrow⟩

def LevelInv (n : ℕ) (s : List Weights × List ℕ) : Prop := AdjInv s.1 ∧ s.2.length = n ∧ ∀ c ∈ s.2, c < s.1.length

theorem safe_level {maxPasses : ℕ} {s : List Weights × List ℕ} (h : LevelInv n s) :
    Safe (level order maxPasses s) fun r => LevelInv n r.1 := by
  obtain ⟨hadj, hlen, hlt⟩ := h
  refine (safe_louvainLocalMoving horder hadj maxPasses).bind fun raw hraw => ?_
  obtain ⟨hdlen, hdlt⟩ := densify_spec raw
  have hmap : ∀ c ∈ s.2, Safe (index (densify raw).1 c) fun d => d < (densify raw).2 := by
    intro c hc
    have := hlt c hc
    exact (Safe.index (by omega)).mono hdlt
  refine (Safe.mapM hmap).bind fun nodeComm hnode => ?_
  split
  · rename_i hk
    exact Safe.pure ⟨hadj, hnode.1.trans hlen, fun c hc => hk ▸ hnode.2 c hc⟩
  · refine (safe_aggregate horder hadj (hdlen.trans hraw) hdlt).bind fun adj hagg => Safe.pure ?_
    exact ⟨hagg.2, hnode.1.trans hlen, fun c hc => hagg.1.symm ▸ hnode.2 c hc⟩

/-- **`detect_communities_hierarchical` is safe** on every well-formed graph. -/
theorem safe_detectCommunitiesHierarchical (hwf : WellFormed g) (dir : Direction) (maxPassesPerLevel maxLevels : ℕ) :
    Safe (detectCommunitiesHierarchical order g dir maxPassesPerLevel maxLevels) fun _ => True := by
  refine (safe_weightedAdjacency hwf dir).bind fun adj hadj => ?_
  have hinit : LevelInv g.ids.length (adj, List.range g.ids.length) := by
    refine ⟨hadj.2, length_range, fun c hc => ?_⟩
    rw [hadj.1]
    exact mem_range.mp hc
  refine (Safe.loop (fun s hs => safe_level horder hs) _ hinit).bind fun s hs => ?_
  refine safe_denseCommunities ?_
  rw [length_map, hs.2.1]

end Hierarchy

end GraphTopo.Checked
