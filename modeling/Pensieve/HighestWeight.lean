/-
**The candidate of highest weight.**

Of a finite set of candidates one is taken: that of the highest weight, and of those with this weight the least.  Which
one that is depends on nothing but the set, and it stays the same for as long as it is in the set and nothing is added.
-/

import Mathlib.Data.Finset.Insert

namespace HighestWeight

open List

variable {ν σ : Type*} [LinearOrder ν] [LinearOrder σ] {weight : ν → σ} {s t : Finset ν} {b c n : ν}

structure IsBest (weight : ν → σ) (s : Finset ν) (b : ν) : Prop where
  mem : b ∈ s
  heaviest : ∀ x ∈ s, weight x ≤ weight b
  least : ∀ x ∈ s, weight x = weight b → b ≤ x

theorem IsBest.unique (hb : IsBest weight s b) (hc : IsBest weight s c) : b = c := by
  have hweight : weight b = weight c := le_antisymm (hc.heaviest b hb.mem) (hb.heaviest c hc.mem)
  exact le_antisymm (hb.least c hc.mem hweight.symm) (hc.least b hb.mem hweight)

theorem IsBest.of_subset (hb : IsBest weight s b) (hsub : t ⊆ s) (hmem : b ∈ t) : IsBest weight t b where
  mem := hmem
  heaviest x hx := hb.heaviest x (hsub hx)
  least x hx := hb.least x (hsub hx)

theorem IsBest.insert_cases (hb : IsBest weight s b) (hc : IsBest weight (insert n s) c) : c = n ∨ c = b := by
  rcases Finset.mem_insert.1 hc.mem with h | h
  · exact .inl h
  · exact .inr ((hc.of_subset (Finset.subset_insert n s) h).unique hb)

/-! ### Scans -/

def keep (weight : ν → σ) (best : Option ν) (x : ν) : Option ν :=
  match best with
  | none => some x
  | some b => if weight b < weight x then some x else some b

def pick (weight : ν → σ) (l : List ν) : Option ν := l.foldl (keep weight) none

omit [LinearOrder ν] in
theorem pick_append_singleton (weight : ν → σ) (l : List ν) (x : ν) :
    pick weight (l ++ [x]) = keep weight (pick weight l) x := by
  rw [pick, foldl_append, foldl_cons, foldl_nil]
  rfl

omit [LinearOrder ν] in
theorem pick_eq_none {l : List ν} : pick weight l = none ↔ l = [] := by
  induction l using List.reverseRecOn with
  | nil => simp [pick]
  | append_singleton l x ih =>
    rw [pick_append_singleton]
    cases pick weight l with
    | none => simp [keep]
    | some b =>
      simp only [keep, append_eq_nil_iff, cons_ne_nil, and_false, iff_false]
      split <;> simp

theorem isBest_pick {l : List ν} (hl : l.Pairwise (· ≤ ·)) (h : pick weight l = some b) :
    IsBest weight l.toFinset b := by
  induction l using List.reverseRecOn generalizing b with
  | nil => cases h
  | append_singleton l x ih =>
    rw [pairwise_append] at hl
    obtain ⟨hl, -, hle⟩ := hl
    rw [pick_append_singleton] at h
    cases hp : pick weight l with
    | none =>
      rw [hp] at h
      cases h
      rw [pick_eq_none.1 hp]
      exact ⟨by simp, by simp, by simp⟩
    | some a =>
      have ha := ih hl hp
      have hamem : a ∈ l := mem_toFinset.1 ha.mem
      rw [hp, keep] at h
      split at h
      next hlt =>
        cases h
        refine ⟨by simp, fun y hy => ?_, fun y hy hw => ?_⟩
        · rw [mem_toFinset, mem_append, mem_singleton] at hy
          rcases hy with hy | rfl
          · exact le_trans (ha.heaviest y (mem_toFinset.2 hy)) hlt.le
          · exact le_rfl
        · rw [mem_toFinset, mem_append, mem_singleton] at hy
          rcases hy with hy | rfl
          · exact absurd (hw ▸ ha.heaviest y (mem_toFinset.2 hy)) (not_le.2 hlt)
          · exact le_rfl
      next hlt =>
        obtain rfl : a = b := Option.some.inj h
        refine ⟨by simp [hamem], fun y hy => ?_, fun y hy hw => ?_⟩
        · rw [mem_toFinset, mem_append, mem_singleton] at hy
          rcases hy with hy | rfl
          · exact ha.heaviest y (mem_toFinset.2 hy)
          · exact not_lt.1 hlt
        · rw [mem_toFinset, mem_append, mem_singleton] at hy
          rcases hy with hy | rfl
          · exact ha.least y (mem_toFinset.2 hy) hw
          · exact hle a hamem _ (mem_singleton.2 rfl)

end HighestWeight
