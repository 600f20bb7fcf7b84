/-
**Steps that may fail.**

A run of steps that may fail goes through exactly when each of its steps does.

Main results:

* `Fallible.bind_eq_ok` — one step after another;
* `Fallible.mapM_eq_ok_iff`, `Fallible.mapM_eq_some_iff` — one step for every entry of a list;
* `Fallible.mapM_map_eq` — steps that cannot fail.
-/

import Mathlib.Data.List.Forall2

namespace Fallible

open List

variable {ε α β γ : Type}

theorem bind_eq_ok {x : Except ε α} {f : α → Except ε β} {r : β} :
    x >>= f = .ok r ↔ ∃ a, x = .ok a ∧ f a = .ok r := by
  cases x with
  | error e | ok a => simp [Bind.bind, Except.bind]

theorem mapM_eq_ok_iff {f : α → Except ε β} {l : List α} {l' : List β} :
    l.mapM f = .ok l' ↔ List.Forall₂ (fun a b => f a = .ok b) l l' := by
  induction l generalizing l' with
  | nil => cases l' <;> simp [pure, Except.pure]
  | cons a l ih =>
    simp only [mapM_cons, bind_eq_ok, forall₂_cons_left_iff, ← ih]
    constructor
    · rintro ⟨b, hb, bs, hbs, h⟩
      cases h
      exact ⟨b, bs, hb, hbs, rfl⟩
    · rintro ⟨b, bs, hb, hbs, rfl⟩
      exact ⟨b, hb, bs, hbs, rfl⟩

theorem mapM_eq_some_iff {f : α → Option β} {l : List α} {l' : List β} :
    l.mapM f = some l' ↔ List.Forall₂ (fun a b => f a = some b) l l' := by
  induction l generalizing l' with
  | nil => cases l' <;> simp
  | cons a l ih =>
    simp only [mapM_cons, Option.bind_eq_bind, Option.bind_eq_some_iff, forall₂_cons_left_iff, ← ih]
    constructor
    · rintro ⟨b, hb, bs, hbs, h⟩
      cases h
      exact ⟨b, bs, hb, hbs, rfl⟩
    · rintro ⟨b, bs, hb, hbs, rfl⟩
      exact ⟨b, hb, bs, hbs, rfl⟩

theorem mapM_map_eq {f : β → Option γ} {g : α → β} {h : α → γ} (hf : ∀ a, f (g a) = some (h a))
    (l : List α) : (l.map g).mapM f = some (l.map h) := by
  rw [mapM_eq_some_iff, forall₂_map_left_iff, forall₂_map_right_iff, forall₂_same]
  exact fun a _ => hf a

end Fallible
