/-
**What comes first in a list.**

A list keeps a precedence when each of its *late* elements stands behind a *first* one.  The notion goes
through the operations of a pipeline: elements are put at the end, or in the middle, and leave at the
front for another list.

Main results:

* `Precedence.ahead_append` — **two lists, one behind the other**;
* `Precedence.ahead_iff` — what the recursion says about places in the list.
-/

import Mathlib.Data.List.Basic

namespace Precedence

open List

variable {α : Type*} {first late late' : α → Prop} {xs ys : List α} {x : α}

def Ahead (first late : α → Prop) : List α → Prop
  | [] => True
  | x :: xs => ¬late x ∧ (first x ∨ Ahead first late xs)

@[simp] theorem ahead_nil : Ahead first late [] := trivial

@[simp] theorem ahead_cons : Ahead first late (x :: xs) ↔ ¬late x ∧ (first x ∨ Ahead first late xs) := Iff.rfl

theorem ahead_append : Ahead first late (xs ++ ys) ↔
    Ahead first late xs ∧ ((∃ x ∈ xs, first x) ∨ Ahead first late ys) := by
  induction xs with
  | nil => simp
  | cons x xs ih =>
    rw [cons_append, ahead_cons, ahead_cons, ih]
    constructor
    · rintro ⟨hx, hfirst | ⟨hxs, ⟨y, hy, hfirst⟩ | hys⟩⟩
      · exact ⟨⟨hx, .inl hfirst⟩, .inl ⟨x, mem_cons_self, hfirst⟩⟩
      · exact ⟨⟨hx, .inr hxs⟩, .inl ⟨y, mem_cons_of_mem _ hy, hfirst⟩⟩
      · exact ⟨⟨hx, .inr hxs⟩, .inr hys⟩
    · rintro ⟨⟨hx, hfirst | hxs⟩, hrest⟩
      · exact ⟨hx, .inl hfirst⟩
      · rcases hrest with ⟨y, hy, hfirst⟩ | hys
        · rcases mem_cons.1 hy with rfl | hy
          · exact ⟨hx, .inl hfirst⟩
          · exact ⟨hx, .inr ⟨hxs, .inl ⟨y, hy, hfirst⟩⟩⟩
        · exact ⟨hx, .inr ⟨hxs, .inr hys⟩⟩

theorem Ahead.mono (h : Ahead first late xs) (hlate : ∀ x ∈ xs, late' x → late x) : Ahead first late' xs := by
  induction xs with
  | nil => trivial
  | cons x xs ih =>
    exact ⟨fun hx => h.1 (hlate x mem_cons_self hx),
      h.2.imp_right fun hxs => ih hxs fun y hy => hlate y (mem_cons_of_mem _ hy)⟩

theorem ahead_of_forall_not (h : ∀ x ∈ xs, ¬late x) : Ahead first late xs := by
  induction xs with
  | nil => trivial
  | cons x xs ih =>
    exact ⟨h x mem_cons_self, .inr (ih fun y hy => h y (mem_cons_of_mem _ hy))⟩

theorem ahead_iff : Ahead first late xs ↔ ∀ l x r, xs = l ++ x :: r → late x → ∃ y ∈ l, first y := by
  constructor
  · rintro h l x r rfl hx
    rcases (ahead_append.1 h).2 with hfirst | hrest
    · exact hfirst
    · exact absurd hx hrest.1
  · intro h
    induction xs with
    | nil => trivial
    | cons x xs ih =>
      refine ⟨fun hx => ?_, ?_⟩
      · obtain ⟨y, hy, -⟩ := h [] x xs rfl hx
        cases hy
      · by_cases hfirst : first x
        · exact .inl hfirst
        · refine .inr (ih fun l y r heq hy => ?_)
          obtain ⟨z, hz, hzf⟩ := h (x :: l) y r (by rw [heq]; rfl) hy
          rcases mem_cons.1 hz with rfl | hz
          · exact absurd hzf hfirst
          · exact ⟨z, hz, hzf⟩

end Precedence
