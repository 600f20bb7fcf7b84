/-
**The global tree of centroids.**

The sidecar of an extent has the centroids of its partitions.  The tree of a column clusters the
centroids of all sidecars, and has for each of its own centroids a posting list of the partitions
that went to it; a query takes the lists of the nearest ones.
-/

import Mathlib.Algebra.GroupWithZero.Nat
import Mathlib.Data.Fin.Basic
import Mathlib.Data.List.Dedup
import Mathlib.Data.List.Lex
import Mathlib.Data.List.Sort
import Mathlib.Data.Nat.Sqrt

namespace AnnTree

open List

/-! ### Fingerprints -/

structure Uuid where
  bytes : List (Fin 256)
  length_eq : bytes.length = 16
  deriving DecidableEq

theorem Uuid.bytes_injective : Function.Injective Uuid.bytes := by
  rintro ⟨a, ha⟩ ⟨b, hb⟩ h
  cases h
  rfl

def Uuid.Le (a b : Uuid) : Prop := a.bytes ≤ b.bytes

instance : DecidableRel Uuid.Le := fun a b => inferInstanceAs (Decidable (a.bytes ≤ b.bytes))

instance : Std.Total Uuid.Le := ⟨fun a b => le_total a.bytes b.bytes⟩

instance : IsTrans Uuid Uuid.Le := ⟨fun _ _ _ => le_trans⟩

def sortIds (ids : List Uuid) : List Uuid := ids.insertionSort Uuid.Le

variable {ids : List Uuid}

theorem mem_sortIds {id : Uuid} : id ∈ sortIds ids ↔ id ∈ ids := mem_insertionSort Uuid.Le

variable {ids' : List Uuid}

theorem sortIds_eq_iff : sortIds ids = sortIds ids' ↔ ids.Perm ids' := by
  constructor
  · intro h
    have hsorted : (sortIds ids).Perm ids' := h ▸ perm_insertionSort Uuid.Le ids'
    exact (perm_insertionSort Uuid.Le ids).symm.trans hsorted
  · intro h
    refine List.Perm.eq_of_pairwise (fun a b _ _ hab hba => Uuid.bytes_injective (le_antisymm hab hba))
      (pairwise_insertionSort Uuid.Le ids) (pairwise_insertionSort Uuid.Le ids') ?_
    exact (perm_insertionSort Uuid.Le ids).trans (h.trans (perm_insertionSort Uuid.Le ids').symm)

theorem flatMap_bytes_injective : ∀ {ids ids' : List Uuid}, ids.flatMap Uuid.bytes = ids'.flatMap Uuid.bytes → ids = ids' := by
  intro ids
  induction ids with
  | nil =>
    intro ids' h
    cases ids' with
    | nil => rfl
    | cons b ids' =>
      have hlength := congrArg List.length h
      rw [flatMap_cons, length_append, b.length_eq, flatMap_nil, length_nil] at hlength
      omega
  | cons a ids ih =>
    intro ids' h
    cases ids' with
    | nil =>
      have hlength := congrArg List.length h
      rw [flatMap_cons, length_append, a.length_eq, flatMap_nil, length_nil] at hlength
      omega
    | cons b ids' =>
      rw [flatMap_cons, flatMap_cons] at h
      obtain ⟨hhead, htail⟩ := append_inj h (a.length_eq.trans b.length_eq.symm)
      rw [Uuid.bytes_injective hhead, ih htail]

/-- `extent_fingerprint`, for a hash of bytes. -/
def extentFingerprint {D : Type} (contentHash : List (Fin 256) → D) (ids : List Uuid) : D :=
  contentHash ((sortIds ids).flatMap Uuid.bytes)

theorem perm_of_fingerprint {D : Type} {contentHash : List (Fin 256) → D}
    (hinj : Function.Injective contentHash)
    (h : extentFingerprint contentHash ids = extentFingerprint contentHash ids') : ids.Perm ids' :=
  sortIds_eq_iff.1 (flatMap_bytes_injective (hinj h))

/-! ### Clustering -/

variable {F : Type}

/-- The arithmetic of `f32`. -/
structure Arith (F : Type) where
  zero : F
  infinity : F
  add : F → F → F
  sub : F → F → F
  mul : F → F → F
  lt : F → F → Bool

/-- The seeding and the mini-batches of `cluster`: from rows, a dimension and a number, as many centroids. -/
structure Trainer (F : Type) where
  train : List (List F) → ℕ → ℕ → List (List F)
  length_train : ∀ rows dim nlist, (train rows dim nlist).length = nlist

variable (ops : Arith F)

def sqL2 (a b : List F) : F :=
  (a.zip b).foldl (fun acc p => ops.add acc (ops.mul (ops.sub p.1 p.2) (ops.sub p.1 p.2))) ops.zero

/-- The loop of `nearest_centroid`, from the index `i` on. -/
def nearestFrom (v : List F) : ℕ → ℕ × F → List (List F) → ℕ
  | _, best, [] => best.1
  | i, best, c :: cs =>
    let d := sqL2 ops v c
    nearestFrom v (i + 1) (if ops.lt d best.2 then (i, d) else best) cs

def nearestCentroid (v : List F) (centroids : List (List F)) : ℕ := nearestFrom ops v 0 (0, ops.infinity) centroids

theorem nearestFrom_lt (v : List F) : ∀ (cs : List (List F)) (i : ℕ) (best : ℕ × F), best.1 < i + cs.length →
    nearestFrom ops v i best cs < i + cs.length := by
  intro cs
  induction cs with
  | nil =>
    intro i best h
    exact h
  | cons c cs ih =>
    intro i best h
    rw [length_cons] at h ⊢
    unfold nearestFrom
    dsimp only
    have hnext := ih (i + 1) (if ops.lt (sqL2 ops v c) best.2 then (i, sqL2 ops v c) else best) (by
      split
      · dsimp only
        omega
      · omega)
    omega

theorem nearestCentroid_lt (v : List F) {centroids : List (List F)} (h : centroids ≠ []) :
    nearestCentroid ops v centroids < centroids.length := by
  have hpos := length_pos_iff.2 h
  have hlt := nearestFrom_lt ops v centroids 0 (0, ops.infinity) (by simpa using hpos)
  simpa [nearestCentroid] using hlt

structure Clustering (F : Type) where
  centroids : List (List F)
  assignments : List ℕ
  deriving DecidableEq

def clamp (n lo hi : ℕ) : ℕ := max lo (min n hi)

/-- `cluster`, which asserts that there are rows. -/
def cluster (trainer : Trainer F) (rows : List (List F)) (dim nlist : ℕ) : Clustering F :=
  let centroids := trainer.train rows dim (clamp nlist 1 rows.length)
  ⟨centroids, rows.map fun v => nearestCentroid ops v centroids⟩

/-! ### Trees -/

structure PartitionRef where
  extent : Uuid
  partition : ℕ
  deriving DecidableEq

structure GlobalTree (F : Type) where
  dim : ℕ
  metric : ℕ
  modelId : Option (List Char)
  centroids : List (List F)
  postings : List (List PartitionRef)
  deriving DecidableEq

/-- `round(sqrt(n))` -/
def roundSqrt (n : ℕ) : ℕ := if n - n.sqrt * n.sqrt ≤ n.sqrt then n.sqrt else n.sqrt + 1

def chooseGlobalNlist (totalPartitions : ℕ) : ℕ :=
  if totalPartitions = 0 then 1 else min (clamp (roundSqrt totalPartitions) 16 4096) totalPartitions

def routedPoints (dim : ℕ) (extentCentroids : List (Uuid × List (List F))) : List (PartitionRef × List F) :=
  extentCentroids.flatMap fun (extent, centroids) =>
    (centroids.mapIdx fun i c => (⟨extent, i⟩, c)).filter fun p => p.2.length = dim

def build (trainer : Trainer F) (dim metric : ℕ) (modelId : Option (List Char))
    (extentCentroids : List (Uuid × List (List F))) (globalNlist : ℕ) : Option (GlobalTree F) :=
  let points := routedPoints dim extentCentroids
  if points = [] then none
  else
    let clustering := cluster ops trainer (points.map Prod.snd) dim (clamp globalNlist 1 points.length)
    let assigned := (points.map Prod.fst).zip clustering.assignments
    some
      { dim := dim
        metric := metric
        modelId := modelId
        centroids := clustering.centroids
        -- each reference is pushed to the list of its centroid
        postings := (List.range clustering.centroids.length).map fun g =>
          (assigned.filter fun a => a.2 = g).map Prod.fst }

/-- A sidecar file, as far as `read_header` and `read_centroids` read it. -/
structure SidecarFile (F : Type) where
  dim : ℕ
  centroids : List (List F)
  dim_eq : ∀ c ∈ centroids, c.length = dim

def metricCosine : ℕ := 0

/-- **The tree of a column** that `ann_maintain` builds from the sidecars of the extents, in the order of their ids;
`none` where it ends with an error or without a tree. -/
def buildTree (trainer : Trainer F) (modelId : Option (List Char)) (content : Uuid → SidecarFile F) (ids : List Uuid) :
    Option (GlobalTree F) :=
  match sortIds ids with
  | [] => none
  | first :: rest =>
    if (rest.all fun id => (content id).dim = (content first).dim) = true then
      let extentCentroids := (first :: rest).map fun id => (id, (content id).centroids)
      let total := (extentCentroids.map fun p => p.2.length).sum
      build ops trainer (content first).dim metricCosine modelId extentCentroids (chooseGlobalNlist total)
    else none

variable {trainer : Trainer F} {modelId : Option (List Char)}

theorem buildTree_perm {content : Uuid → SidecarFile F} (h : ids.Perm ids') :
    buildTree ops trainer modelId content ids = buildTree ops trainer modelId content ids' := by
  unfold buildTree
  rw [sortIds_eq_iff.2 h]

/-! ### Selection -/

def scoreLe (a b : ℕ × F) : Bool :=
  if ops.lt a.2 b.2 then true else if ops.lt b.2 a.2 then false else decide (a.1 ≤ b.1)

def pushNew (out : List PartitionRef) (r : PartitionRef) : List PartitionRef := if r ∈ out then out else out ++ [r]

def selectPartitions (tree : GlobalTree F) (q : List F) (topP : ℕ) : List PartitionRef :=
  if tree.centroids = [] ∨ q.length ≠ tree.dim then []
  else
    let scored := (tree.centroids.mapIdx fun i c => (i, sqL2 ops q c)).insertionSort fun a b => scoreLe ops a b = true
    ((scored.take (min topP scored.length)).flatMap fun e => (tree.postings[e.1]?).getD []).foldl pushNew []

def groupRefs (refs : List PartitionRef) : List (Uuid × List ℕ) :=
  ((refs.map PartitionRef.extent).dedup).map fun id => (id, (refs.filter fun r => r.extent = id).map PartitionRef.partition)

/-! ### What is selected -/

variable {r : PartitionRef}

theorem mem_foldl_pushNew : ∀ {refs out : List PartitionRef}, r ∈ refs.foldl pushNew out ↔ r ∈ out ∨ r ∈ refs := by
  intro refs
  induction refs with
  | nil =>
    intro out
    simp
  | cons q refs ih =>
    intro out
    rw [foldl_cons, ih, pushNew]
    split
    · rename_i hq
      rw [mem_cons]
      constructor
      · rintro (hr | hr)
        · exact .inl hr
        · exact .inr (.inr hr)
      · rintro (hr | rfl | hr)
        · exact .inl hr
        · exact .inl hq
        · exact .inr hr
    · rw [mem_append, mem_singleton, mem_cons, or_assoc]

theorem exists_group {refs : List PartitionRef} (h : r ∈ refs) :
    ∃ e ∈ groupRefs refs, e.1 = r.extent ∧ r.partition ∈ e.2 := by
  refine ⟨_, mem_map.2 ⟨r.extent, mem_dedup.2 (mem_map_of_mem h), rfl⟩, rfl, ?_⟩
  exact mem_map_of_mem (mem_filter.2 ⟨h, decide_eq_true rfl⟩)

theorem mem_routedPoints {dim : ℕ} {extentCentroids : List (Uuid × List (List F))} {id : Uuid}
    {centroids : List (List F)} (hmem : (id, centroids) ∈ extentCentroids) {i : ℕ} (hi : i < centroids.length)
    (hdim : (centroids[i]).length = dim) : (⟨id, i⟩, centroids[i]) ∈ routedPoints dim extentCentroids := by
  refine mem_flatMap.2 ⟨_, hmem, mem_filter.2 ⟨?_, decide_eq_true hdim⟩⟩
  exact mem_mapIdx.2 ⟨i, hi, rfl⟩

variable {ops}

variable {tree : GlobalTree F}

theorem build_postings {dim metric globalNlist : ℕ} {extentCentroids : List (Uuid × List (List F))}
    (h : build ops trainer dim metric modelId extentCentroids globalNlist = some tree) :
    tree.postings.length = tree.centroids.length ∧ tree.dim = dim ∧
      ∀ p ∈ routedPoints dim extentCentroids, ∃ refs ∈ tree.postings, p.1 ∈ refs := by
  unfold build at h
  dsimp only at h
  split at h
  · cases h
  · rename_i hne
    cases h
    refine ⟨by rw [length_map, length_range], rfl, fun p hp => ?_⟩
    dsimp only [cluster]
    -- some centroid is there, and the nearest one to the point is one of them
    have hpos := length_pos_iff.2 hne
    have hcentroids : trainer.train ((routedPoints dim extentCentroids).map Prod.snd) dim
        (clamp (clamp globalNlist 1 (routedPoints dim extentCentroids).length) 1
          ((routedPoints dim extentCentroids).map Prod.snd).length) ≠ [] := by
      intro hnil
      have hlength := trainer.length_train ((routedPoints dim extentCentroids).map Prod.snd) dim
        (clamp (clamp globalNlist 1 (routedPoints dim extentCentroids).length) 1
          ((routedPoints dim extentCentroids).map Prod.snd).length)
      rw [hnil, length_nil] at hlength
      unfold clamp at hlength
      omega
    have hlt := nearestCentroid_lt ops p.2 hcentroids
    refine ⟨_, mem_map_of_mem (mem_range.2 hlt), mem_map.2 ⟨(p.1, _), mem_filter.2 ⟨?_, decide_eq_true rfl⟩, rfl⟩⟩
    rw [map_map, zip_map', mem_map]
    exact ⟨p, hp, rfl⟩

theorem mem_selectPartitions {q : List F} {topP : ℕ} {refs : List PartitionRef}
    (hlength : tree.postings.length = tree.centroids.length) (hq : q.length = tree.dim)
    (hbudget : tree.centroids.length ≤ topP) (hrefs : refs ∈ tree.postings) (hr : r ∈ refs) :
    r ∈ selectPartitions ops tree q topP := by
  obtain ⟨g, hg, rfl⟩ := mem_iff_getElem.1 hrefs
  have hg' : g < tree.centroids.length := hlength ▸ hg
  have hne : ¬ (tree.centroids = [] ∨ q.length ≠ tree.dim) := by
    rintro (hnil | hdim)
    · rw [hnil, length_nil] at hg'
      omega
    · exact hdim hq
  unfold selectPartitions
  rw [if_neg hne]
  dsimp only
  -- the budget takes the centroids in any order
  have hall : ((tree.centroids.mapIdx fun i c => (i, sqL2 ops q c)).insertionSort
      fun a b => scoreLe ops a b = true).length = tree.centroids.length := by
    rw [length_insertionSort, length_mapIdx]
  rw [hall, Nat.min_eq_right hbudget, take_of_length_le hall.le]
  refine mem_foldl_pushNew.2 (.inr (mem_flatMap.2 ⟨(g, sqL2 ops q tree.centroids[g]), ?_, ?_⟩))
  · exact (mem_insertionSort _).2 (mem_mapIdx.2 ⟨g, hg', rfl⟩)
  · rw [getElem?_eq_getElem hg, Option.getD_some]
    exact hr

theorem selects_all {content : Uuid → SidecarFile F} {q : List F} {topP : ℕ}
    (h : buildTree ops trainer modelId content ids = some tree) (hq : q.length = tree.dim)
    (hbudget : tree.centroids.length ≤ topP) {id : Uuid} (hid : id ∈ ids) {i : ℕ}
    (hi : i < (content id).centroids.length) : ⟨id, i⟩ ∈ selectPartitions ops tree q topP := by
  have hmem := mem_sortIds.2 hid
  unfold buildTree at h
  split at h
  · cases h
  · rename_i first rest hsorted
    split at h
    · rename_i hdims
      obtain ⟨hlength, -, hpostings⟩ := build_postings h
      rw [hsorted] at hmem
      have hdim : (content id).dim = (content first).dim := by
        rcases mem_cons.1 hmem with rfl | hrest
        · rfl
        · exact of_decide_eq_true (all_eq_true.1 hdims id hrest)
      have hentry : (id, (content id).centroids) ∈ (first :: rest).map fun id => (id, (content id).centroids) :=
        mem_map_of_mem hmem
      have hrouted := mem_routedPoints hentry hi
        (((content id).dim_eq _ (getElem_mem hi)).trans hdim)
      obtain ⟨refs, hrefs, hr⟩ := hpostings _ hrouted
      exact mem_selectPartitions hlength hq hbudget hrefs hr
    · cases h

end AnnTree
