/-
**Runs of a step function.**

A system is a partial step function `step :  S → A → Option S`: the action `a` is either impossible
in the state `s` (`none`) or leads to one next state.
-/

import Mathlib.Logic.Basic

namespace Runs

variable {S A : Type*}

/-- The states that a run from `s₀` reaches, if every action meets `ok` where it is taken. -/
inductive Reach (step : S → A → Option S) (ok : S → A → Prop) (s₀ : S) : S → Prop where
  | init : Reach step ok s₀ s₀
  | step {s s' : S} (a : A) : Reach step ok s₀ s → ok s a → step s a = some s' → Reach step ok s₀ s'

def Free (_ : S) (_ : A) : Prop := True

instance (s : S) (a : A) : Decidable (Free s a) := isTrue trivial

variable {step : S → A → Option S} {ok ok' : S → A → Prop} {s₀ : S}

theorem Reach.inv {I : S → Prop} (h0 : I s₀)
    (hs : ∀ s a s', I s → ok s a → step s a = some s' → I s') {s : S}
    (h : Reach step ok s₀ s) : I s := by
  induction h with
  | init => exact h0
  | step a _ hok hst ih => exact hs _ a _ ih hok hst

theorem Reach.mono (hle : ∀ s a, ok s a → ok' s a) {s : S} (h : Reach step ok s₀ s) : Reach step ok' s₀ s := by
  induction h with
  | init => exact .init
  | step a _ hok hst ih => exact .step a ih (hle _ a hok) hst

theorem Reach.trans {s t : S} (h : Reach step ok s₀ s) (h' : Reach step ok s t) : Reach step ok s₀ t := by
  induction h' with
  | init => exact h
  | step a _ hok hst ih => exact .step a ih hok hst

/-- The state that a list of actions leads to, if all of them are possible and meet `ok`. -/
def run (step : S → A → Option S) (ok : S → A → Prop) [∀ s a, Decidable (ok s a)] : S → List A → Option S
  | s, [] => some s
  | s, a :: as => if ok s a then (step s a).bind fun s' => run step ok s' as else none

theorem Reach.run [∀ s a, Decidable (ok s a)] {s s' : S} (hs : Reach step ok s₀ s) (as : List A)
    (h : Runs.run step ok s as = some s') : Reach step ok s₀ s' := by
  induction as generalizing s with
  | nil =>
    cases h
    exact hs
  | cons a as ih =>
    unfold Runs.run at h
    split at h
    · rename_i hok
      obtain ⟨t, ht, hrest⟩ := Option.bind_eq_some_iff.mp h
      exact ih (.step a hs hok ht) hrest
    · cases h

theorem reach_of_run [∀ s a, Decidable (ok s a)] {as : List A} {s : S}
    (h : run step ok s₀ as = some s) : Reach step ok s₀ s :=
  Reach.init.run as h

end Runs
