/-
**Joins of tables with duplicates.**

A join pairs the rows of two tables where a condition is true; a left join keeps a row that finds no
partner, and pairs it with nothing.

Main results:

* `SqlJoin.innerJoin_swap` — which side loops outside does not matter;
* `SqlJoin.perm_flatMap_iff` — tables whose rows name the row they were made of agree exactly when
  they agree for each of those rows.
-/

import Mathlib.Tactic

namespace SqlJoin

open List

variable {α β γ : Type}

/-- `=`, as a join or a filter takes it: a null equals nothing. -/
def sqlEq (a b : Option String) : Bool := a.isSome && a = b

variable {b : Option String}

theorem sqlEq_iff {a : Option String} : sqlEq a b = true ↔ a.isSome = true ∧ a = b := by
  simp [sqlEq]

@[simp] theorem sqlEq_some {a : String} : sqlEq (some a) b = true ↔ some a = b := by
  simp [sqlEq]

@[simp] theorem sqlEq_none : sqlEq none b = false := rfl

/-- `l JOIN r ON on`. -/
def innerJoin (on : α → β → Bool) (l : List α) (r : List β) : List (α × β) :=
  l.flatMap fun a => (r.filter (on a)).map fun b => (a, b)

/-! ### The order of the loops -/

theorem map_filter_eq_flatMap (p : β → Bool) (f : β → γ) (r : List β) :
    (r.filter p).map f = r.flatMap fun b => if p b then [f b] else [] := by
  induction r with
  | nil => rfl
  | cons b r ih =>
    by_cases hb : p b = true
    · simp [hb, ih]
    · simp [hb, ih]

theorem flatMap_swap (f : α → β → List γ) (l : List α) (r : List β) : (l.flatMap fun a => r.flatMap fun b => f a b).Perm
      (r.flatMap fun b => l.flatMap fun a => f a b) := by
  rw [← Multiset.coe_eq_coe, ← Multiset.coe_bind, ← Multiset.coe_bind]
  have h := Multiset.bind_bind (l : Multiset α) (r : Multiset β)
    (f := fun a b => (f a b : Multiset γ))
  simpa only [Multiset.coe_bind] using h

theorem innerJoin_swap (on : α → β → Bool) (l : List α) (r : List β) :
    (innerJoin on l r).Perm ((innerJoin (fun b a => on a b) r l).map Prod.swap) := by
  simp only [innerJoin, map_filter_eq_flatMap, map_flatMap]
  refine (flatMap_swap _ l r).trans (List.Perm.of_eq ?_)
  refine flatMap_congr fun b _ => flatMap_congr fun a _ => ?_
  split_ifs <;> rfl

/-! ### Tables whose rows name the row they were made of -/

theorem count_flatMap_tagged [DecidableEq α] [DecidableEq γ] (f : α → List γ) (l : List α) (b : α)
    (c : γ) : ((l.flatMap fun a => (f a).map fun d => (a, d)).count (b, c)) = l.count b * (f b).count c := by
  induction l with
  | nil => simp
  | cons a l ih =>
    rw [flatMap_cons, count_append, ih]
    by_cases hab : a = b
    · subst hab
      rw [count_cons_self, count_map_of_injective _ _ (Prod.mk_right_injective a)]
      ring
    · have h0 : ((f a).map fun d => (a, d)).count (b, c) = 0 := by
        rw [count_eq_zero]
        simp [hab]
      rw [h0, count_cons_of_ne hab]
      ring

/-- **Two tables agree exactly when they agree for each row they were made of.** -/
theorem perm_flatMap_iff (f g : α → List γ) (l : List α) : ((l.flatMap fun a => (f a).map fun d => (a, d)).Perm
        (l.flatMap fun a => (g a).map fun d => (a, d))) ↔ ∀ a ∈ l, (f a).Perm (g a) := by
  classical
  constructor
  · intro h a ha
    rw [perm_iff_count]
    intro c
    have hcount := h.count_eq (a, c)
    rw [count_flatMap_tagged, count_flatMap_tagged] at hcount
    exact Nat.eq_of_mul_eq_mul_left (count_pos_iff.2 ha) hcount
  · intro h
    exact List.Perm.flatMap_left l fun a ha => (h a ha).map _

end SqlJoin
