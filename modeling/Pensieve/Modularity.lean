/-
**Modularity.**

A graph is a function that gives every pair of nodes its weight.  The modularity of a labelling of
its nodes is what the weight within the communities exceeds the weight that the degrees alone would
put there, as a part of the total.
-/

import Mathlib.Tactic

namespace Modularity

open Finset

variable {ι κ L L' F : Type} [DecidableEq κ] [DecidableEq L] [DecidableEq L'] [Field F]

section Definitions

variable (V : Finset ι) (w : ι → ι → F)

def degree (u : ι) : F := ∑ v ∈ V, w u v

def total : F := ∑ u ∈ V, degree V w u

def surplus (u v : ι) : F := w u v - degree V w u * degree V w v / total V w

def within (c : ι → L) : F := ∑ u ∈ V, ∑ v ∈ V with c v = c u, surplus V w u v

/-- **The modularity of a labelling.** -/
def modularity (c : ι → L) : F := within V w c / total V w

/-- What draws the node `u` to the community `C`, without `u` itself. -/
def pull [DecidableEq ι] (c : ι → L) (u : ι) (C : L) : F := ∑ v ∈ V.erase u with c v = C, surplus V w u v

def volume (c : ι → L) (C : L) : F := ∑ u ∈ V with c u = C, degree V w u

def inside (c : ι → L) (C : L) : F := ∑ u ∈ V with c u = C, ∑ v ∈ V with c v = C, w u v

/-- One node for every community of `d`: the weight between two of them is that between their members. -/
def aggregate (d : ι → κ) (i j : κ) : F := ∑ u ∈ V with d u = i, ∑ v ∈ V with d v = j, w u v

end Definitions

variable {V : Finset ι} {w : ι → ι → F}

/-! ### Communities -/

theorem modularity_congr_weight {w' : ι → ι → F} (h : ∀ u ∈ V, ∀ v ∈ V, w u v = w' u v) (c : ι → L) :
    modularity V w c = modularity V w' c := by
  have hdegree : ∀ u ∈ V, degree V w u = degree V w' u := fun u hu => sum_congr rfl fun v hv => h u hu v hv
  have htotal : total V w = total V w' := sum_congr rfl hdegree
  unfold modularity within surplus
  rw [htotal]
  refine congrArg (· / total V w') (sum_congr rfl fun u hu => sum_congr rfl fun v hv => ?_)
  have hv := (mem_filter.1 hv).1
  rw [h u hu v hv, hdegree u hu, hdegree v hv]

theorem modularity_congr {c : ι → L} {c' : ι → L'} (h : ∀ u ∈ V, ∀ v ∈ V, (c u = c v ↔ c' u = c' v)) :
    modularity V w c = modularity V w c' := by
  unfold modularity within
  refine congrArg (· / total V w) (sum_congr rfl fun u hu => sum_congr (filter_congr fun v hv => ?_) fun _ _ => rfl)
  exact h v hv u hu

theorem sum_surplus (S T : Finset ι) : ∑ u ∈ S, ∑ v ∈ T, surplus V w u v =
      (∑ u ∈ S, ∑ v ∈ T, w u v) - (∑ u ∈ S, degree V w u) * (∑ v ∈ T, degree V w v) / total V w := by
  unfold surplus
  simp only [sum_sub_distrib]
  rw [sum_mul_sum, sum_div]
  exact congrArg _ (sum_congr rfl fun u _ => (sum_div ..).symm)

theorem modularity_eq_sum {c : ι → L} {S : Finset L} (hS : ∀ u ∈ V, c u ∈ S) :
    modularity V w c = ∑ C ∈ S, (inside V w c C / total V w - (volume V w c C / total V w) ^ 2) := by
  have hwithin : within V w c = ∑ C ∈ S, (inside V w c C - volume V w c C * volume V w c C / total V w) := by
    rw [within, ← sum_fiberwise_of_maps_to hS]
    refine sum_congr rfl fun C _ => ?_
    rw [inside, volume, ← sum_surplus]
    refine sum_congr rfl fun u hu => ?_
    rw [(mem_filter.1 hu).2]
  rw [modularity, hwithin, sum_div]
  refine sum_congr rfl fun C _ => ?_
  ring

section Move

variable [DecidableEq ι] {u : ι}

theorem within_eq_pull (hw : ∀ u v, w u v = w v u) (hu : u ∈ V) (c : ι → L) :
    within V w c = (∑ v ∈ V.erase u, ∑ v' ∈ V.erase u with c v' = c v, surplus V w v v') +
      2 * pull V w c u (c u) + surplus V w u u := by
  have hsymm : ∀ v, surplus V w v u = surplus V w u v := by
    intro v
    unfold surplus
    rw [hw v u, mul_comm]
  have hrow : ∀ v, ∑ v' ∈ V with c v' = c v, surplus V w v v' =
      (if c u = c v then surplus V w v u else 0) + ∑ v' ∈ V.erase u with c v' = c v, surplus V w v v' := by
    intro v
    rw [sum_filter, sum_filter, ← add_sum_erase V _ hu]
  have hself : ∑ v ∈ V.erase u, (if c u = c v then surplus V w v u else 0) = pull V w c u (c u) := by
    rw [pull, sum_filter]
    refine sum_congr rfl fun v _ => ?_
    rw [hsymm]
    exact if_congr eq_comm rfl rfl
  rw [within, ← add_sum_erase V _ hu, hrow u, if_pos rfl, sum_congr rfl fun v _ => hrow v, sum_add_distrib, hself]
  change surplus V w u u + pull V w c u (c u) + _ = _
  ring

theorem modularity_update (hw : ∀ u v, w u v = w v u) (hu : u ∈ V) (c : ι → L) (C : L) :
    modularity V w (Function.update c u C) =
      modularity V w c + 2 * (pull V w c u C - pull V w c u (c u)) / total V w := by
  have hrest : ∀ v ∈ V.erase u, Function.update c u C v = c v := fun v hv =>
    Function.update_of_ne (ne_of_mem_erase hv) ..
  have hsame : ∑ v ∈ V.erase u, ∑ v' ∈ V.erase u with Function.update c u C v' = Function.update c u C v,
      surplus V w v v' = ∑ v ∈ V.erase u, ∑ v' ∈ V.erase u with c v' = c v, surplus V w v v' := by
    refine sum_congr rfl fun v hv => sum_congr (filter_congr fun v' hv' => ?_) fun _ _ => rfl
    rw [hrest v hv, hrest v' hv']
  have hpull : pull V w (Function.update c u C) u (Function.update c u C u) = pull V w c u C := by
    rw [Function.update_self]
    refine sum_congr (filter_congr fun v hv => ?_) fun _ _ => rfl
    rw [hrest v hv]
  rw [modularity, modularity, within_eq_pull hw hu, within_eq_pull hw hu c, hsame, hpull]
  ring

theorem pull_eq (c : ι → L) (u : ι) (C : L) : pull V w c u C = (∑ v ∈ V.erase u with c v = C, w u v) -
      degree V w u * (∑ v ∈ V.erase u with c v = C, degree V w v) / total V w := by
  have h := sum_surplus (V := V) (w := w) {u} ((V.erase u).filter fun v => c v = C)
  rwa [sum_singleton, sum_singleton, sum_singleton] at h

end Move

section Aggregate

variable {K : Finset κ} {d : ι → κ}

theorem degree_aggregate (hd : ∀ u ∈ V, d u ∈ K) (i : κ) :
    degree K (aggregate V w d) i = ∑ u ∈ V with d u = i, degree V w u := by
  unfold degree aggregate
  rw [sum_comm]
  refine sum_congr rfl fun u _ => ?_
  exact sum_fiberwise_of_maps_to hd fun v => w u v

theorem total_aggregate (hd : ∀ u ∈ V, d u ∈ K) : total K (aggregate V w d) = total V w := by
  unfold total
  rw [sum_congr rfl fun i _ => degree_aggregate hd i]
  exact sum_fiberwise_of_maps_to hd fun u => degree V w u

theorem surplus_aggregate (hd : ∀ u ∈ V, d u ∈ K) (i j : κ) :
    surplus K (aggregate V w d) i j = ∑ u ∈ V with d u = i, ∑ v ∈ V with d v = j, surplus V w u v := by
  rw [sum_surplus, surplus, degree_aggregate hd, degree_aggregate hd, total_aggregate hd]
  rfl

theorem modularity_aggregate (hd : ∀ u ∈ V, d u ∈ K) (c : κ → L) :
    modularity K (aggregate V w d) c = modularity V w (c ∘ d) := by
  rw [modularity, modularity, total_aggregate hd]
  refine congrArg (· / total V w) ?_
  unfold within
  rw [← sum_fiberwise_of_maps_to hd]
  refine sum_congr rfl fun i _ => ?_
  rw [sum_congr rfl fun j _ => surplus_aggregate hd i j, sum_comm]
  refine sum_congr rfl fun u hu => ?_
  have hui : d u = i := (mem_filter.1 hu).2
  -- the nodes of the communities with the label, community by community
  have hmaps : ∀ v ∈ V.filter (fun v => (c ∘ d) v = (c ∘ d) u), d v ∈ K.filter fun j => c j = c i := by
    intro v hv
    obtain ⟨hv, hlabel⟩ := mem_filter.1 hv
    exact mem_filter.2 ⟨hd v hv, hlabel.trans (congrArg c hui)⟩
  rw [← sum_fiberwise_of_maps_to hmaps]
  refine sum_congr rfl fun j hj => sum_congr ?_ fun _ _ => rfl
  rw [filter_filter]
  refine filter_congr fun v _ => ?_
  constructor
  · rintro rfl
    exact ⟨(mem_filter.1 hj).2.trans (congrArg c hui.symm), rfl⟩
  · exact fun h => h.2

theorem aggregate_aggregate (hd : ∀ u ∈ V, d u ∈ K) (e : κ → L) (i j : L) :
    aggregate K (aggregate V w d) e i j = aggregate V w (e ∘ d) i j := by
  have hfiber : ∀ (f : ι → F) (l : L), ∑ a ∈ K with e a = l, ∑ u ∈ V with d u = a, f u =
      ∑ u ∈ V with (e ∘ d) u = l, f u := by
    intro f l
    have hmaps : ∀ u ∈ V.filter (fun u => (e ∘ d) u = l), d u ∈ K.filter fun a => e a = l := by
      intro u hu
      obtain ⟨hu, hl⟩ := mem_filter.1 hu
      exact mem_filter.2 ⟨hd u hu, hl⟩
    rw [← sum_fiberwise_of_maps_to hmaps]
    refine sum_congr rfl fun a ha => sum_congr ?_ fun _ _ => rfl
    rw [filter_filter]
    refine filter_congr fun u _ => ?_
    constructor
    · rintro rfl
      exact ⟨(mem_filter.1 ha).2, rfl⟩
    · exact fun h => h.2
  unfold aggregate
  rw [← hfiber]
  refine sum_congr rfl fun a _ => ?_
  rw [sum_comm]
  refine sum_congr rfl fun u _ => ?_
  exact hfiber (fun v => w u v) j

end Aggregate

end Modularity
