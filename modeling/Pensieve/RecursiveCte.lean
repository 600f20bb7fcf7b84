/-
**Recursive common table expressions.**

`WITH RECURSIVE r AS (anchor UNION ALL step)` evaluates its step on the rows of the last round
alone, until a round yields no row; the table is what all the rounds yielded, with multiplicity.
-/

import Pensieve.Bfs

namespace RecursiveCte

open List
open Bfs

section Rounds

variable {α : Type} {succ : α → List α}

/-- **`UNION ALL`**: the rows of the last round, then what the rounds after it yield. -/
def unionAll (succ : α → List α) : ℕ → List α → Option (List α)
  | _, [] => some []
  | 0, _ :: _ => none
  | fuel + 1, a :: work =>
    (unionAll succ fuel ((a :: work).flatMap succ)).map fun rows => (a :: work) ++ rows

@[simp] theorem unionAll_nil (fuel : ℕ) : unionAll succ fuel [] = some [] := by
  cases fuel <;> rfl

theorem unionAll_ends (rank : α → ℕ) (hrank : ∀ x, ∀ y ∈ succ x, rank y < rank x) (fuel : ℕ)
    (work : List α) (h : ∀ x ∈ work, rank x < fuel) : ∃ rows, unionAll succ fuel work = some rows := by
  induction fuel generalizing work with
  | zero =>
    cases work with
    | nil => exact ⟨[], rfl⟩
    | cons a work => exact absurd (h a (by simp)) (by omega)
  | succ fuel ih =>
    cases work with
    | nil => exact ⟨[], rfl⟩
    | cons a work =>
      obtain ⟨rows, hrows⟩ := ih ((a :: work).flatMap succ) fun y hy => by
        obtain ⟨x, hx, hy⟩ := mem_flatMap.1 hy
        have := hrank x y hy
        have := h x hx
        omega
      exact ⟨(a :: work) ++ rows, by simp only [unionAll, hrows, Option.map_some]⟩

theorem walk_from_flatMap {work : List α} {x : α} : (∃ a ∈ work, ∃ n, Walk (fun x y => y ∈ succ x) a n x) ↔
      x ∈ work ∨ ∃ a ∈ work.flatMap succ, ∃ n, Walk (fun x y => y ∈ succ x) a n x := by
  constructor
  · rintro ⟨a, ha, n, hw⟩
    induction hw with
    | nil => exact Or.inl ha
    | snoc _ hr ih =>
      rcases ih with hv | ⟨b, hb, m, hm⟩
      · exact Or.inr ⟨_, mem_flatMap.2 ⟨_, hv, hr⟩, 0, Walk.nil⟩
      · exact Or.inr ⟨b, hb, m + 1, hm.snoc hr⟩
  · rintro (hx | ⟨b, hb, n, hw⟩)
    · exact ⟨x, hx, 0, Walk.nil⟩
    · obtain ⟨a, ha, hab⟩ := mem_flatMap.1 hb
      refine ⟨a, ha, n + 1, ?_⟩
      induction hw with
      | nil => exact Walk.nil.snoc hab
      | snoc _ hr ih => exact ih.snoc hr

theorem mem_unionAll_iff {fuel : ℕ} {work rows : List α} (h : unionAll succ fuel work = some rows)
    (x : α) : x ∈ rows ↔ ∃ a ∈ work, ∃ n, Walk (fun x y => y ∈ succ x) a n x := by
  induction fuel generalizing work rows with
  | zero =>
    cases work with
    | nil =>
      obtain rfl : [] = rows := by simpa using h
      simp
    | cons a work => simp [unionAll] at h
  | succ fuel ih =>
    cases work with
    | nil =>
      obtain rfl : [] = rows := by simpa using h
      simp
    | cons a work =>
      obtain ⟨rest, hrest, rfl⟩ := Option.map_eq_some_iff.1 h
      rw [walk_from_flatMap, mem_append, ih hrest]

end Rounds

section Hops

variable {V τ : Type} (hops : V → List V) (carry : τ → V → τ) (max : ℕ)

/-- The rows that a row at the vertex `v` and the depth `d` yields, while the depth is below the
bound: the value `t` it carries may change with the vertex that is left. -/
def hopRows : τ × V × ℕ → List (τ × V × ℕ)
  | (t, v, d) => if d < max then (hops v).map fun w => (carry t v, w, d + 1) else []

theorem mem_hopRows_iff {t t' : τ} {v w : V} {d e : ℕ} :
    (t', w, e) ∈ hopRows hops carry max (t, v, d) ↔ d < max ∧ w ∈ hops v ∧ t' = carry t v ∧ e = d + 1 := by
  rw [hopRows]
  split_ifs with hd
  · simp only [mem_map, Prod.mk.injEq, hd, true_and]
    constructor
    · rintro ⟨u, hu, rfl, rfl, rfl⟩
      exact ⟨hu, rfl, rfl⟩
    · rintro ⟨hw, rfl, rfl⟩
      exact ⟨w, hw, rfl, rfl, rfl⟩
  · simp [hd]

variable {hops carry max}

theorem walk_hopRows_iff {t₀ t : τ} {v₀ v : V} {n d : ℕ} :
    Walk (fun x y => y ∈ hopRows hops carry max x) (t₀, v₀, 0) n (t, v, d) ↔
      n = d ∧ d ≤ max ∧ Walk (fun x y : τ × V => y.2 ∈ hops x.2 ∧ y.1 = carry x.1 x.2) (t₀, v₀) d (t, v) := by
  constructor
  · intro h
    generalize hx : ((t, v, d) : τ × V × ℕ) = x at h
    induction h generalizing t v d with
    | nil =>
      simp only [Prod.mk.injEq] at hx
      obtain ⟨rfl, rfl, rfl⟩ := hx
      exact ⟨rfl, Nat.zero_le _, Walk.nil⟩
    | @snoc n y z _ hr ih =>
      obtain ⟨t', v', e⟩ := y
      subst hx
      obtain ⟨he, hw, ht, rfl⟩ := (mem_hopRows_iff hops carry max).1 hr
      obtain ⟨rfl, -, hwalk⟩ := ih rfl
      exact ⟨rfl, he, hwalk.snoc ⟨hw, ht⟩⟩
  · rintro ⟨rfl, hd, h⟩
    generalize hx : ((t, v) : τ × V) = x at h
    induction h generalizing t v with
    | nil =>
      simp only [Prod.mk.injEq] at hx
      obtain ⟨rfl, rfl⟩ := hx
      exact Walk.nil
    | @snoc n y z _ hr ih =>
      subst hx
      exact (ih (by omega) rfl).snoc ((mem_hopRows_iff hops carry max).2 ⟨hd, hr.1, hr.2, rfl⟩)

variable (hops carry) in
theorem exists_walks {fuel : ℕ} (hfuel : max < fuel) (anchor : List (τ × V)) :
    ∃ rows, unionAll (hopRows hops carry max) fuel (anchor.map fun a => (a.1, a.2, 0)) = some rows ∧
      ∀ t v d, (t, v, d) ∈ rows ↔ d ≤ max ∧ ∃ a ∈ anchor,
        Walk (fun x y : τ × V => y.2 ∈ hops x.2 ∧ y.1 = carry x.1 x.2) a d (t, v) := by
  obtain ⟨rows, hrows⟩ := unionAll_ends (fun r : τ × V × ℕ => max - r.2.2) (by
      rintro ⟨t, v, d⟩ ⟨t', w, e⟩ hy
      obtain ⟨hd, -, -, rfl⟩ := (mem_hopRows_iff hops carry max).1 hy
      show max - (d + 1) < max - d
      omega)
    fuel (anchor.map fun a => (a.1, a.2, 0)) (fun x _ => by omega)
  refine ⟨rows, hrows, fun t v d => ?_⟩
  rw [mem_unionAll_iff hrows]
  simp only [mem_map]
  constructor
  · rintro ⟨_, ⟨a, ha, rfl⟩, n, hw⟩
    obtain ⟨rfl, hd, h⟩ := walk_hopRows_iff.1 hw
    exact ⟨hd, a, ha, h⟩
  · rintro ⟨hd, a, ha, h⟩
    exact ⟨_, ⟨a, ha, rfl⟩, d, walk_hopRows_iff.2 ⟨rfl, hd, h⟩⟩

theorem walk_fst_iff {t₀ t : τ} {v₀ v : V} {n : ℕ} :
    Walk (fun x y : τ × V => y.2 ∈ hops x.2 ∧ y.1 = x.1) (t₀, v₀) n (t, v) ↔
      t = t₀ ∧ Walk (fun v w => w ∈ hops v) v₀ n v := by
  constructor
  · intro h
    generalize hx : ((t, v) : τ × V) = x at h
    induction h generalizing t v with
    | nil =>
      simp only [Prod.mk.injEq] at hx
      obtain ⟨rfl, rfl⟩ := hx
      exact ⟨rfl, Walk.nil⟩
    | snoc _ hr ih =>
      subst hx
      obtain ⟨rfl, hw⟩ := ih rfl
      exact ⟨hr.2, hw.snoc hr.1⟩
  · rintro ⟨rfl, h⟩
    induction h with
    | nil => exact Walk.nil
    | snoc _ hr ih => exact ih.snoc ⟨hr, rfl⟩

theorem walk_snd_iff {s p v : V} {n : ℕ} : Walk (fun x y : V × V => y.2 ∈ hops x.2 ∧ y.1 = x.2) (s, s) n (p, v) ↔
      n = 0 ∧ p = s ∧ v = s ∨ ∃ m, n = m + 1 ∧ Walk (fun v w => w ∈ hops v) s m p ∧ v ∈ hops p := by
  have hproj : ∀ {n : ℕ} {x : V × V}, Walk (fun x y : V × V => y.2 ∈ hops x.2 ∧ y.1 = x.2) (s, s) n x →
      Walk (fun v w => w ∈ hops v) s n x.2 := by
    intro n x h
    induction h with
    | nil => exact Walk.nil
    | snoc _ hr ih => exact ih.snoc hr.1
  have hlift : ∀ {n : ℕ} {w : V}, Walk (fun v w => w ∈ hops v) s n w →
      ∃ u, Walk (fun x y : V × V => y.2 ∈ hops x.2 ∧ y.1 = x.2) (s, s) n (u, w) := by
    intro n w h
    induction h with
    | nil => exact ⟨s, Walk.nil⟩
    | snoc _ hr ih =>
      obtain ⟨u, hu⟩ := ih
      exact ⟨_, hu.snoc ⟨hr, rfl⟩⟩
  constructor
  · intro h
    cases h with
    | nil => exact Or.inl ⟨rfl, rfl, rfl⟩
    | @snoc m x _ hw hr =>
      obtain ⟨t, u⟩ := x
      obtain ⟨hv, rfl⟩ := hr
      exact Or.inr ⟨m, rfl, hproj hw, hv⟩
  · rintro (⟨rfl, rfl, rfl⟩ | ⟨m, rfl, hw, hv⟩)
    · exact Walk.nil
    · obtain ⟨u, hu⟩ := hlift hw
      exact hu.snoc ⟨hv, rfl⟩

end Hops

section MinPer

variable {α κ : Type} [DecidableEq κ]

/-- `SELECT key, MIN(val) … GROUP BY key`. -/
def minPer (key : α → κ) (val : α → ℕ) (rows : List α) : List (κ × ℕ) :=
  (rows.map key).dedup.map fun k => (k, (((rows.filter fun r => key r = k).map val).min?).getD 0)

theorem nodup_keys_minPer (key : α → κ) (val : α → ℕ) (rows : List α) : ((minPer key val rows).map Prod.fst).Nodup := by
  have h : (minPer key val rows).map Prod.fst = (rows.map key).dedup := by
    rw [minPer, map_map]
    exact map_id _
  rw [h]
  exact nodup_dedup _

theorem mem_minPer_iff (key : α → κ) (val : α → ℕ) (rows : List α) (k : κ) (d : ℕ) : (k, d) ∈ minPer key val rows ↔
      (∃ r ∈ rows, key r = k ∧ val r = d) ∧ ∀ r ∈ rows, key r = k → d ≤ val r := by
  have hmin : ∀ d, ((rows.filter fun r => key r = k).map val).min? = some d ↔
      (∃ r ∈ rows, key r = k ∧ val r = d) ∧ ∀ r ∈ rows, key r = k → d ≤ val r := by
    intro d
    rw [min?_eq_some_iff]
    simp only [mem_map, mem_filter, decide_eq_true_eq, and_assoc]
    refine and_congr Iff.rfl ⟨fun h r hr hk => h _ ⟨r, hr, hk, rfl⟩, ?_⟩
    rintro h _ ⟨r, hr, hk, rfl⟩
    exact h r hr hk
  rw [← hmin, minPer]
  simp only [mem_map, mem_dedup, Prod.mk.injEq]
  constructor
  · rintro ⟨_, ⟨r, hr, rfl⟩, rfl, rfl⟩
    cases hm : ((rows.filter fun r' => key r' = key r).map val).min? with
    | some m => rfl
    | none =>
      rw [min?_eq_none_iff, map_eq_nil_iff, filter_eq_nil_iff] at hm
      exact absurd (decide_eq_true rfl) (hm r hr)
  · intro h
    obtain ⟨⟨r, hr, hk, -⟩, -⟩ := (hmin d).1 h
    exact ⟨k, ⟨r, hr, hk⟩, rfl, by rw [h]; rfl⟩

theorem filter_key_eq {l : List (κ × ℕ)} (hnd : (l.map Prod.fst).Nodup) {k : κ} {d : ℕ}
    (h : (k, d) ∈ l) : (l.filter fun g => g.1 = k) = [(k, d)] := by
  induction l with
  | nil => simp at h
  | cons g l ih =>
    rw [map_cons, nodup_cons] at hnd
    by_cases hg : g.1 = k
    · have hrest : (l.filter fun g => g.1 = k) = [] := by
        rw [filter_eq_nil_iff]
        intro g' hg' hk
        refine hnd.1 (mem_map.2 ⟨g', hg', ?_⟩)
        rw [of_decide_eq_true hk, hg]
      rcases mem_cons.1 h with rfl | h
      · simp [hrest]
      · refine absurd (mem_map.2 ⟨_, h, hg.symm⟩) hnd.1
    · rw [filter_cons_of_neg (by simpa using hg)]
      rcases mem_cons.1 h with rfl | h
      · exact absurd rfl hg
      · exact ih hnd.2 h

end MinPer

end RecursiveCte
