/-
**Balls on the unit sphere.**

Lists of reals as vectors of a Euclidean space, and the bound that a ball around a centre puts on
the angle between a unit vector and the unit vectors in the ball: half the squared chord is one
minus the cosine, and the chord is no shorter than the way to the centre less the radius.
-/

import Mathlib.Analysis.InnerProductSpace.PiL2

namespace UnitSphere

open List

scoped instance two : Nat.AtLeastTwo 2 := ⟨le_rfl⟩

section Ball

variable {E : Type} [NormedAddCommGroup E] [InnerProductSpace ℝ E]

theorem half_sq_dist {u r : E} (hu : ‖u‖ = 1) (hr : ‖r‖ = 1) : 1 / 2 * dist u r * dist u r = 1 - inner ℝ u r := by
  have h := norm_sub_sq_real u r
  rw [hu, hr] at h
  rw [dist_eq_norm]
  linarith [h, sq ‖u - r‖]

/-- The bound on the cosine distance from `u` to the vectors of a ball. -/
noncomputable def ballBound (u c : E) (radius : ℝ) : ℝ :=
  1 / 2 * max (dist u c - radius) 0 * max (dist u c - radius) 0

theorem ballBound_le {u r c : E} {radius : ℝ} (hu : ‖u‖ = 1) (hr : ‖r‖ = 1)
    (hball : dist r c ≤ radius) : ballBound u c radius ≤ 1 - inner ℝ u r := by
  have htriangle : dist u c ≤ dist u r + dist r c := dist_triangle u r c
  have hchord : max (dist u c - radius) 0 ≤ dist u r := by
    refine max_le ?_ dist_nonneg
    linarith
  have hpos : 0 ≤ max (dist u c - radius) 0 := le_max_right _ _
  rw [← half_sq_dist hu hr, ballBound]
  nlinarith

theorem one_sub_inner_le_two {u r : E} (hu : ‖u‖ = 1) (hr : ‖r‖ = 1) : 1 - inner ℝ u r ≤ 2 := by
  have h := neg_le_of_abs_le (abs_real_inner_le_norm u r)
  rw [hu, hr] at h
  linarith

theorem ballBound_zero {u r : E} (hu : ‖u‖ = 1) (hr : ‖r‖ = 1) : ballBound u r 0 = 1 - inner ℝ u r := by
  rw [ballBound, sub_zero, max_eq_left dist_nonneg, half_sq_dist hu hr]

end Ball

/-! ### Lists as vectors -/

noncomputable def vec (n : ℕ) (l : List ℝ) : EuclideanSpace ℝ (Fin n) := WithLp.toLp 2 fun i => l.getD i 0

theorem vec_apply (n : ℕ) (l : List ℝ) (i : Fin n) : vec n l i = l.getD i 0 := rfl

variable {n : ℕ} {a : List ℝ}

theorem sum_zipWith (f : ℝ → ℝ → ℝ) {b : List ℝ} (ha : a.length = n) (hb : b.length = n) :
    (List.zipWith f a b).sum = ∑ i : Fin n, f (a.getD i 0) (b.getD i 0) := by
  rw [← sum_ofFn]
  congr 1
  refine ext_getElem (by simp [ha, hb]) ?_
  intro i h₁ h₂
  have hi : i < n := by simpa using h₂
  simp [getD_eq_getElem?_getD, getElem?_eq_getElem (ha ▸ hi), getElem?_eq_getElem (hb ▸ hi)]

theorem sum_map (f : ℝ → ℝ) (ha : a.length = n) : (a.map f).sum = ∑ i : Fin n, f (a.getD i 0) := by
  rw [← sum_zipWith (fun x _ => f x) ha ha]
  congr 1
  rw [zipWith_self]

theorem dist_vec {b : List ℝ} (ha : a.length = n) (hb : b.length = n) :
    dist (vec n a) (vec n b) = √(List.zipWith (fun x c => (x - c) * (x - c)) a b).sum := by
  rw [EuclideanSpace.dist_eq, sum_zipWith _ ha hb]
  congr 1
  refine Finset.sum_congr rfl fun i _ => ?_
  rw [vec_apply, vec_apply, Real.dist_eq, sq_abs, sq]

theorem inner_vec {b : List ℝ} (ha : a.length = n) (hb : b.length = n) :
    inner ℝ (vec n a) (vec n b) = (List.zipWith (· * ·) a b).sum := by
  rw [sum_zipWith _ ha hb, PiLp.inner_apply]
  refine Finset.sum_congr rfl fun i _ => ?_
  rw [vec_apply, vec_apply, RCLike.inner_apply, conj_trivial, mul_comm]

theorem norm_vec (ha : a.length = n) : ‖vec n a‖ = √(a.map fun x => x * x).sum := by
  rw [EuclideanSpace.norm_eq, sum_map _ ha]
  congr 1
  refine Finset.sum_congr rfl fun i _ => ?_
  rw [vec_apply, Real.norm_eq_abs, sq_abs, sq]

theorem vec_div (n : ℕ) (a : List ℝ) (x : ℝ) : vec n (a.map (· / x)) = x⁻¹ • vec n a := by
  ext i
  rw [PiLp.smul_apply, vec_apply, vec_apply, smul_eq_mul, getD_eq_getElem?_getD, getD_eq_getElem?_getD, getElem?_map]
  cases a[(i : ℕ)]? with
  | none => simp
  | some y => simp [div_eq_inv_mul]

end UnitSphere
