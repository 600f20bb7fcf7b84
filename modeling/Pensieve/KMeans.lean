/-
**The coarse quantizer.**

Centroids begin as rows that a generator of fixed seed picks, each at most once; where it does not
pick enough, rows are taken in order, and then copies.
-/

import Pensieve.CentroidTree
import Mathlib.Data.List.GetD
import Mathlib.Tactic

namespace Kmeans

open List
open AnnTree (Arith Trainer clamp cluster nearestCentroid nearestCentroid_lt roundSqrt)

/-! ### Generators -/

structure SplitMix64 where
  state : UInt64

def SplitMix64.nextU64 (rng : SplitMix64) : UInt64 × SplitMix64 :=
  let state := rng.state + 0x9E3779B97F4A7C15
  let z := (state ^^^ (state >>> 30)) * 0xBF58476D1CE4E5B9
  let z := (z ^^^ (z >>> 27)) * 0x94D049BB133111EB
  (z ^^^ (z >>> 31), ⟨state⟩)

structure Xorshift128 where
  s0 : UInt64
  s1 : UInt64

def Xorshift128.new (seed : UInt64) : Xorshift128 :=
  let a := SplitMix64.nextU64 ⟨seed⟩
  let b := a.2.nextU64
  ⟨a.1 ||| 1, b.1 ||| 1⟩

def Xorshift128.nextU64 (rng : Xorshift128) : UInt64 × Xorshift128 :=
  let x := rng.s0
  let y := rng.s1
  let x := x ^^^ (x <<< 23)
  let x := x ^^^ (x >>> 17)
  let x := x ^^^ (y ^^^ (y >>> 26))
  (x + y, ⟨y, x⟩)

def Xorshift128.nextBelow (rng : Xorshift128) (n : ℕ) : ℕ × Xorshift128 := (rng.nextU64.1.toNat % n, rng.nextU64.2)

/-! ### Centroids -/

variable {F : Type}

structure Ops (F : Type) extends Arith F where
  one : F
  div : F → F → F
  ofNat : ℕ → F

def kmeansSeed : UInt64 := 0x1F1F2E2E3D3D4C4C

def kmeansIters : ℕ := 10

def batchPerCluster : ℕ := 64

def chooseNlist (nRows : ℕ) : ℕ := if nRows = 0 then 1 else min (clamp (roundSqrt nRows) 16 256) nRows

structure Seeds (F : Type) where
  used : List Bool
  centroids : List (List F)

/-- Row `i` becomes a centroid, unless it is one. -/
def Seeds.take (rows : List (List F)) (s : Seeds F) (i : ℕ) : Seeds F :=
  if s.used.getD i false then s else ⟨s.used.set i true, s.centroids ++ [rows.getD i []]⟩

/-- Rows picked by the generator, in at most `attempts` attempts. -/
def sampleSeeds (rows : List (List F)) (nlist : ℕ) : ℕ → SplitMix64 → Seeds F → Seeds F
  | 0, _, s => s
  | attempts + 1, rng, s =>
    if s.centroids.length < nlist then
      sampleSeeds rows nlist attempts rng.nextU64.2 (s.take rows (rng.nextU64.1.toNat % rows.length))
    else s

def scanSeeds (rows : List (List F)) (nlist : ℕ) (s : Seeds F) : Seeds F :=
  (List.range rows.length).foldl (fun s i => if s.centroids.length < nlist then s.take rows i else s) s

def padSeeds (rows : List (List F)) (nlist : ℕ) : ℕ → List (List F) → List (List F)
  | 0, centroids => centroids
  | fuel + 1, centroids =>
    if centroids.length < nlist then
      padSeeds rows nlist fuel (centroids ++ [rows.getD (centroids.length % rows.length) []])
    else centroids

def seedCentroids (rows : List (List F)) (nlist : ℕ) : List (List F) :=
  let sampled := sampleSeeds rows nlist (rows.length * 4) ⟨kmeansSeed⟩
    ⟨List.replicate rows.length false, []⟩
  padSeeds rows nlist nlist (scanSeeds rows nlist sampled).centroids

structure Batch (F : Type) where
  centroids : List (List F)
  counts : List ℕ
  sampler : Xorshift128

section Training

variable (ops : Ops F)

/-- `cen[j] += eta * (v[j] - cen[j])`, for every `j`. -/
def moveTowards (eta : F) (v : List F) (dim : ℕ) (centroid : List F) : List F :=
  (List.range dim).foldl
    (fun cen j => cen.modify j fun x => ops.add x (ops.mul eta (ops.sub (v.getD j ops.zero) x))) centroid

def Batch.step (rows : List (List F)) (dim : ℕ) (b : Batch F) : Batch F :=
  let next := b.sampler.nextBelow rows.length
  let v := rows.getD next.1 []
  let c := nearestCentroid ops.toArith v b.centroids
  let counts := b.counts.modify c (· + 1)
  let eta := ops.div ops.one (ops.ofNat (counts.getD c 0))
  ⟨b.centroids.modify c (moveTowards ops eta v dim), counts, next.2⟩

/-- **The centroids that `cluster` ends with.** -/
def train (rows : List (List F)) (dim nlist : ℕ) : List (List F) :=
  let batch := min (nlist * batchPerCluster) rows.length
  let start : Batch F := ⟨seedCentroids rows nlist, List.replicate nlist 0,
    Xorshift128.new (kmeansSeed ^^^ 0xA5A5A5A5A5A5A5A5)⟩
  ((List.range kmeansIters).foldl
    (fun b _ => (List.range batch).foldl (fun b _ => b.step ops rows dim) b) start).centroids

end Training

/-! ### How many, and of which dimension -/

theorem length_take (rows : List (List F)) (s : Seeds F) (i : ℕ) :
    (s.take rows i).centroids.length ≤ s.centroids.length + 1 := by
  unfold Seeds.take
  split
  · omega
  · rw [length_append, length_singleton]

theorem length_sampleSeeds (rows : List (List F)) (nlist : ℕ) {attempts : ℕ} {rng : SplitMix64}
    {s : Seeds F} (h : s.centroids.length ≤ nlist) :
    (sampleSeeds rows nlist attempts rng s).centroids.length ≤ nlist := by
  induction attempts generalizing rng s with
  | zero => exact h
  | succ attempts ih =>
    unfold sampleSeeds
    split
    · have hstep := length_take rows s (rng.nextU64.1.toNat % rows.length)
      exact ih (by omega)
    · exact h

theorem length_scanSeeds (rows : List (List F)) {nlist : ℕ} {s : Seeds F}
    (h : s.centroids.length ≤ nlist) : (scanSeeds rows nlist s).centroids.length ≤ nlist := by
  unfold scanSeeds
  generalize List.range rows.length = order
  induction order generalizing s with
  | nil => exact h
  | cons i order ih =>
    refine ih ?_
    dsimp only
    split
    · have hstep := length_take rows s i
      omega
    · exact h

theorem length_padSeeds (rows : List (List F)) {nlist fuel : ℕ} {centroids : List (List F)}
    (h : centroids.length ≤ nlist) (hfuel : nlist ≤ centroids.length + fuel) :
    (padSeeds rows nlist fuel centroids).length = nlist := by
  induction fuel generalizing centroids with
  | zero =>
    unfold padSeeds
    omega
  | succ fuel ih =>
    unfold padSeeds
    split
    · refine ih ?_ ?_
      · rw [length_append, length_singleton]
        omega
      · rw [length_append, length_singleton]
        omega
    · omega

theorem length_seedCentroids (rows : List (List F)) (nlist : ℕ) : (seedCentroids rows nlist).length = nlist := by
  refine length_padSeeds rows (length_scanSeeds rows (length_sampleSeeds rows nlist ?_)) (by omega)
  exact Nat.zero_le _

section Training

variable (ops : Ops F)

theorem train_induction (rows : List (List F)) (dim nlist : ℕ) {P : List (List F) → Prop}
    (hseed : P (seedCentroids rows nlist)) (hstep : ∀ b : Batch F, P b.centroids → P (b.step ops rows dim).centroids) :
    P (train ops rows dim nlist) := by
  have hbatch : ∀ (n : ℕ) (b : Batch F), P b.centroids →
      P ((List.range n).foldl (fun b _ => b.step ops rows dim) b).centroids := by
    intro n b hb
    induction n with
    | zero => exact hb
    | succ n ih =>
      rw [range_succ, foldl_append]
      exact hstep _ ih
  have hiters : ∀ (n m : ℕ) (b : Batch F), P b.centroids →
      P ((List.range n).foldl (fun b _ => (List.range m).foldl (fun b _ => b.step ops rows dim) b) b).centroids := by
    intro n m b hb
    induction n with
    | zero => exact hb
    | succ n ih =>
      rw [range_succ, foldl_append]
      exact hbatch m _ ih
  exact hiters _ _ _ hseed

theorem length_train (rows : List (List F)) (dim nlist : ℕ) : (train ops rows dim nlist).length = nlist := by
  refine train_induction ops rows dim nlist (P := fun centroids => centroids.length = nlist)
    (length_seedCentroids rows nlist) fun b hb => ?_
  rw [← hb]
  exact length_modify ..

/-- The trainer of `cluster`. -/
def trainer : Trainer F := ⟨train ops, length_train ops⟩

theorem length_moveTowards (eta : F) (v : List F) (dim : ℕ) (centroid : List F) :
    (moveTowards ops eta v dim centroid).length = centroid.length := by
  unfold moveTowards
  induction dim with
  | zero => rfl
  | succ dim ih =>
    rw [range_succ, foldl_append]
    exact (length_modify ..).trans ih

end Training

def OfDim (dim : ℕ) (vectors : List (List F)) : Prop := ∀ v ∈ vectors, v.length = dim

theorem OfDim.append {dim : ℕ} {vectors : List (List F)} (h : OfDim dim vectors) {v : List F}
    (hv : v.length = dim) : OfDim dim (vectors ++ [v]) := by
  intro w hw
  rcases mem_append.1 hw with hw | hw
  · exact h w hw
  · rw [mem_singleton.1 hw]
    exact hv

section Dimension

variable {rows : List (List F)} {dim nlist : ℕ}

theorem OfDim.getD (hrows : OfDim dim rows) {i : ℕ} (hi : i < rows.length) : (rows.getD i []).length = dim := by
  rw [getD_eq_getElem _ _ hi]
  exact hrows _ (getElem_mem hi)

theorem OfDim.take (hrows : OfDim dim rows) {s : Seeds F} (h : OfDim dim s.centroids) {i : ℕ}
    (hi : i < rows.length) : OfDim dim (s.take rows i).centroids := by
  unfold Seeds.take
  split
  · exact h
  · exact h.append (hrows.getD hi)

theorem OfDim.sampleSeeds (hrows : OfDim dim rows) (hpos : 0 < rows.length) {attempts : ℕ}
    {rng : SplitMix64} {s : Seeds F} (h : OfDim dim s.centroids) :
    OfDim dim (sampleSeeds rows nlist attempts rng s).centroids := by
  induction attempts generalizing rng s with
  | zero => exact h
  | succ attempts ih =>
    unfold Kmeans.sampleSeeds
    split
    · exact ih (hrows.take h (Nat.mod_lt _ hpos))
    · exact h

theorem OfDim.scanSeeds (hrows : OfDim dim rows) {s : Seeds F} (h : OfDim dim s.centroids) :
    OfDim dim (scanSeeds rows nlist s).centroids := by
  unfold Kmeans.scanSeeds
  have hlt : ∀ i ∈ List.range rows.length, i < rows.length := fun i hi => mem_range.1 hi
  revert hlt
  generalize List.range rows.length = order
  intro hlt
  induction order generalizing s with
  | nil => exact h
  | cons i order ih =>
    refine ih ?_ fun j hj => hlt j (mem_cons_of_mem _ hj)
    dsimp only
    split
    · exact hrows.take h (hlt i (mem_cons_self ..))
    · exact h

theorem OfDim.padSeeds (hrows : OfDim dim rows) (hpos : 0 < rows.length) {fuel : ℕ}
    {centroids : List (List F)} (h : OfDim dim centroids) :
    OfDim dim (padSeeds rows nlist fuel centroids) := by
  induction fuel generalizing centroids with
  | zero => exact h
  | succ fuel ih =>
    unfold Kmeans.padSeeds
    split
    · exact ih (h.append (hrows.getD (Nat.mod_lt _ hpos)))
    · exact h

theorem OfDim.seedCentroids (hrows : OfDim dim rows) (hpos : 0 < rows.length) : OfDim dim (seedCentroids rows nlist) :=
  hrows.padSeeds hpos (hrows.scanSeeds (hrows.sampleSeeds hpos fun v hv => by cases hv))

theorem OfDim.modify {vectors : List (List F)} (h : OfDim dim vectors) {f : List F → List F}
    (hf : ∀ v, (f v).length = v.length) (i : ℕ) : OfDim dim (vectors.modify i f) := by
  intro w hw
  obtain ⟨j, hj, rfl⟩ := mem_iff_getElem.1 hw
  rw [getElem_modify]
  split
  · rw [hf]
    exact h _ (getElem_mem _)
  · exact h _ (getElem_mem _)

theorem length_of_mem_train (ops : Ops F) {rows : List (List F)} {dim : ℕ} (nlist : ℕ)
    (hrows : OfDim dim rows) (hpos : 0 < rows.length) : OfDim dim (train ops rows dim nlist) := by
  refine train_induction ops rows dim nlist (hrows.seedCentroids hpos) fun b hb => ?_
  exact hb.modify (fun v => length_moveTowards ops _ _ dim v) _

theorem assignments_lt (ops : Ops F) (rows : List (List F)) (dim nlist : ℕ) {a : ℕ}
    (ha : a ∈ (cluster ops.toArith (trainer ops) rows dim nlist).assignments) :
    a < (cluster ops.toArith (trainer ops) rows dim nlist).centroids.length := by
  obtain ⟨v, -, rfl⟩ := mem_map.1 ha
  refine nearestCentroid_lt ops.toArith v fun hnil => ?_
  have hlen := length_train ops rows dim (clamp nlist 1 rows.length)
  rw [show train ops rows dim (clamp nlist 1 rows.length) = [] from hnil, length_nil] at hlen
  unfold clamp at hlen
  omega

end Dimension

end Kmeans
