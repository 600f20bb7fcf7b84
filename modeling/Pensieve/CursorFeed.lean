/-
**A store read through a cursor.**

Items are stored one after another, each at the time of a clock that does not go back.  A reader
keeps a cursor.  Now and then it moves the cursor up to the clock: it either *takes* the items
between the two, or *passes* them by.
-/

import Mathlib.Tactic

namespace Feed

open List

variable {T A : Type*} [LinearOrder T] {time : A → T}

/-! ### Stretches of time -/

/-- The items from `lo` on and before `hi`. -/
def between (time : A → T) (lo hi : T) (items : List A) : List A := items.filter fun a => lo ≤ time a ∧ time a < hi

/-- The items from `lo` on. -/
def onward (time : A → T) (lo : T) (items : List A) : List A := items.filter fun a => lo ≤ time a

theorem between_eq_nil_iff {lo hi : T} {items : List A} :
    between time lo hi items = [] ↔ ∀ a ∈ items, lo ≤ time a → hi ≤ time a := by
  simp [between, filter_eq_nil_iff]

theorem between_eq_nil_of_le {lo hi : T} (h : hi ≤ lo) (items : List A) : between time lo hi items = [] :=
  between_eq_nil_iff.2 fun _ _ ha => h.trans ha

theorem between_append (lo hi : T) (items items' : List A) :
    between time lo hi (items ++ items') = between time lo hi items ++ between time lo hi items' :=
  filter_append ..

theorem onward_append (lo : T) (items items' : List A) :
    onward time lo (items ++ items') = onward time lo items ++ onward time lo items' :=
  filter_append ..

theorem onward_between (lo lo' hi : T) (items : List A) :
    onward time lo (between time lo' hi items) = between time (max lo lo') hi items := by
  rw [onward, between, between, filter_filter]
  refine filter_congr fun a _ => ?_
  simp [and_assoc]

theorem between_perm {lo mid hi : T} (hlo : lo ≤ mid) (hhi : mid ≤ hi) (items : List A) :
    (between time lo mid items ++ between time mid hi items).Perm (between time lo hi items) := by
  have hsplit := filter_append_perm (fun a => decide (time a < mid)) (between time lo hi items)
  have hfirst : (between time lo hi items).filter (fun a => decide (time a < mid)) = between time lo mid items := by
    rw [between, between, filter_filter]
    refine filter_congr fun a _ => ?_
    by_cases h : time a < mid
    · simp [h, h.trans_le hhi]
    · simp [h]
  have hrest : (between time lo hi items).filter (fun a => !decide (time a < mid)) = between time mid hi items := by
    rw [between, between, filter_filter]
    refine filter_congr fun a _ => ?_
    by_cases h : time a < mid
    · simp [h]
    · simp [not_lt.1 h, hlo.trans (not_lt.1 h)]
  rwa [hfirst, hrest] at hsplit

/-! ### Feeds -/

structure State (T A : Type*) where
  stored : List A
  taken : List A
  cursor : T
  clock : T

inductive Move (T A : Type*)
  | tick (t : T)
  | store (a : A)
  | take
  | pass

def Allowed (time : A → T) (f : State T A) : Move T A → Prop
  | .tick t => f.clock ≤ t
  | .store a => time a = f.clock
  | .take => True
  | .pass => True

def State.apply (time : A → T) (f : State T A) : Move T A → State T A
  | .tick t => { f with clock := t }
  | .store a => { f with stored := f.stored ++ [a] }
  | .take => { f with taken := f.taken ++ between time f.cursor f.clock f.stored, cursor := f.clock }
  | .pass => { f with cursor := f.clock }

/-- Everything from `since` up to the cursor has been taken, once, and nothing above the cursor. -/
def Exact (time : A → T) (since : T) (f : State T A) : Prop :=
  (onward time since f.taken).Perm (between time since f.cursor f.stored)

/-- Nothing has been taken twice, or from above the cursor; the cursor is where it began, or below the clock. -/
structure Sound (time : A → T) (since : T) (f : State T A) : Prop where
  taken : (onward time since f.taken).Subperm (between time since f.cursor f.stored)
  cursor : f.cursor ≤ f.clock ∨ f.cursor = since

/-- A move that passes by an item, from `since` on. -/
def Passes (time : A → T) (since : T) (f : State T A) : Move T A → Prop
  | .pass => ∃ a ∈ f.stored, since ≤ time a ∧ f.cursor ≤ time a ∧ time a < f.clock
  | _ => False

variable {since : T} {f : State T A} {m : Move T A}

theorem between_store (hf : f.cursor ≤ f.clock ∨ f.cursor = since) {a : A} (ha : time a = f.clock) :
    between time since f.cursor (f.stored ++ [a]) = between time since f.cursor f.stored := by
  have hnil : between time since f.cursor [a] = [] := by
    refine between_eq_nil_iff.2 fun b hb hsince => ?_
    rw [mem_singleton.1 hb] at hsince ⊢
    rcases hf with h | h
    · exact ha.symm ▸ h
    · exact h.symm ▸ hsince
  rw [between_append, hnil, append_nil]

theorem between_clock (hf : f.cursor ≤ f.clock ∨ f.cursor = since) :
    (between time since f.cursor f.stored ++ between time (max since f.cursor) f.clock f.stored).Perm
      (between time since f.clock f.stored) := by
  rcases le_total since f.cursor with h | h
  · rw [max_eq_right h]
    rcases hf with hf | hf
    · exact between_perm h hf _
    · rw [hf, between_eq_nil_of_le le_rfl, nil_append]
  · rw [max_eq_left h, between_eq_nil_of_le h, nil_append]

theorem not_passes_pass_iff : ¬Passes time since f .pass ↔ between time (max since f.cursor) f.clock f.stored = [] := by
  simp [Passes, between_eq_nil_iff]

theorem Sound.apply (hf : Sound time since f) (hm : Allowed time f m) : Sound time since (f.apply time m) := by
  cases m with
  | tick t => exact ⟨hf.taken, hf.cursor.imp_left fun h => h.trans hm⟩
  | store a =>
    refine ⟨?_, hf.cursor⟩
    show (onward time since f.taken).Subperm _
    rw [State.apply, between_store hf.cursor hm]
    exact hf.taken
  | take =>
    refine ⟨?_, .inl le_rfl⟩
    show (onward time since (f.taken ++ _)).Subperm (between time since f.clock f.stored)
    rw [onward_append, onward_between]
    exact (hf.taken.append (List.Subperm.refl _)).trans (between_clock hf.cursor).subperm
  | pass =>
    refine ⟨?_, .inl le_rfl⟩
    exact (hf.taken.trans (sublist_append_left _ _).subperm).trans (between_clock hf.cursor).subperm

theorem exact_apply_iff (hf : Sound time since f) (hm : Allowed time f m) :
    Exact time since (f.apply time m) ↔ Exact time since f ∧ ¬Passes time since f m := by
  cases m with
  | tick t => exact (and_iff_left id).symm
  | store a =>
    refine Iff.trans ?_ (and_iff_left id).symm
    rw [Exact, Exact, State.apply, between_store hf.cursor hm]
  | take =>
    refine Iff.trans ?_ (and_iff_left id).symm
    show (onward time since (f.taken ++ _)).Perm (between time since f.clock f.stored) ↔ _
    rw [onward_append, onward_between, ← (between_clock hf.cursor).congr_right, perm_append_right_iff]
    rfl
  | pass =>
    rw [not_passes_pass_iff]
    show (onward time since f.taken).Perm (between time since f.clock f.stored) ↔ _
    rw [← (between_clock hf.cursor).congr_right]
    constructor
    · intro h
      have hlen := h.length_eq
      have hle := hf.taken.length_le
      have hnil : between time (max since f.cursor) f.clock f.stored = [] := by
        rw [length_append] at hlen
        exact length_eq_zero_iff.1 (by omega)
      rw [hnil, append_nil] at h
      exact ⟨h, hnil⟩
    · rintro ⟨h, hnil⟩
      rw [hnil, append_nil]
      exact h

theorem exact_init {items taken : List A} {clock : T} (h : onward time since taken = []) :
    Exact time since (⟨items, taken, since, clock⟩ : State T A) := by
  rw [Exact, h, between_eq_nil_of_le le_rfl]

theorem Exact.sound (h : Exact time since f) (hc : f.cursor ≤ f.clock ∨ f.cursor = since) : Sound time since f :=
  ⟨h.subperm, hc⟩

end Feed
