/-
**Flood fill.**

Vertices are positions of an array of labels, one of which means that the vertex has not been seen.
A fill starts with one vertex, which gets a label and goes into a queue; a vertex is taken out of the
queue, and each of its neighbours that has not been seen gets the label and goes into the queue.
-/

import Mathlib.Tactic

namespace Flood

variable {L : Type} [DecidableEq L]

def mark (unseen label : L) (st : List L × List ℕ) (v : ℕ) : List L × List ℕ :=
  if st.1[v]? = some unseen then (st.1.set v label, st.2 ++ [v]) else st

def flood (succ : ℕ → List ℕ) (unseen label : L) : ℕ → List L × List ℕ → List L
  | 0, st => st.1
  | _ + 1, (labels, []) => labels
  | fuel + 1, (labels, u :: queue) =>
    flood succ unseen label fuel ((succ u).foldl (mark unseen label) (labels, queue))

def Closed (succ : ℕ → List ℕ) (unseen : L) (labels : List L) : Prop :=
  ∀ v, labels[v]? ≠ some unseen → ∀ w ∈ succ v, labels[w]? ≠ some unseen

section Mark

variable {unseen label : L}

def work (unseen : L) (st : List L × List ℕ) : ℕ := st.2.length + st.1.count unseen

theorem work_mark (hne : label ≠ unseen) (st : List L × List ℕ) (v : ℕ) :
    work unseen (mark unseen label st v) = work unseen st := by
  unfold mark
  split
  · rename_i hseen
    obtain ⟨hlt, hget⟩ := List.getElem?_eq_some_iff.1 hseen
    have hcount := List.count_set (a := label) (b := unseen) hlt
    have hpos : 0 < st.1.count unseen := List.count_pos_iff.2 (List.mem_of_getElem? hseen)
    simp only [hget, beq_self_eq_true, if_true, beq_iff_eq, hne, if_false, add_zero] at hcount
    simp only [work, List.length_append, List.length_singleton, hcount]
    omega
  · rfl

theorem work_foldl_mark (hne : label ≠ unseen) (nbrs : List ℕ) (st : List L × List ℕ) :
    work unseen (nbrs.foldl (mark unseen label) st) = work unseen st := by
  induction nbrs generalizing st with
  | nil => rfl
  | cons v nbrs ih => rw [List.foldl_cons, ih, work_mark hne]

theorem length_mark (st : List L × List ℕ) (v : ℕ) : (mark unseen label st v).1.length = st.1.length := by
  unfold mark
  split
  · exact List.length_set
  · rfl

theorem getElem?_mark (st : List L × List ℕ) (v w : ℕ) : (mark unseen label st v).1[w]? =
      if w = v ∧ st.1[w]? = some unseen then some label else st.1[w]? := by
  unfold mark
  by_cases hseen : st.1[v]? = some unseen
  · rw [if_pos hseen]
    by_cases hw : w = v
    · subst hw
      have hlt := (List.getElem?_eq_some_iff.1 hseen).1
      rw [if_pos ⟨rfl, hseen⟩]
      exact List.getElem?_set_self hlt
    · rw [if_neg fun h => hw h.1]
      exact List.getElem?_set_ne (Ne.symm hw)
  · rw [if_neg hseen, if_neg]
    rintro ⟨rfl, h⟩
    exact hseen h

theorem foldl_mark (hne : label ≠ unseen) (nbrs : List ℕ) (st : List L × List ℕ) :
    (nbrs.foldl (mark unseen label) st).1.length = st.1.length ∧ (∀ w, (nbrs.foldl (mark unseen label) st).1[w]? =
        if w ∈ nbrs ∧ st.1[w]? = some unseen then some label else st.1[w]?) ∧
      ∀ w, w ∈ (nbrs.foldl (mark unseen label) st).2 ↔ w ∈ st.2 ∨ w ∈ nbrs ∧ st.1[w]? = some unseen := by
  induction nbrs generalizing st with
  | nil => exact ⟨rfl, fun w => by simp, fun w => by simp⟩
  | cons v nbrs ih =>
    obtain ⟨hlen, hget, hqueue⟩ := ih (mark unseen label st v)
    have hlabel : (some label : Option L) ≠ some unseen := fun h => hne (Option.some.inj h)
    refine ⟨hlen.trans (length_mark st v), fun w => ?_, fun w => ?_⟩
    · rw [List.foldl_cons, hget, getElem?_mark]
      by_cases hw : w = v ∧ st.1[w]? = some unseen
      · have hmem : w ∈ v :: nbrs := by rw [hw.1]; exact List.mem_cons_self ..
        rw [if_pos hw, if_neg fun h => hlabel h.2, if_pos ⟨hmem, hw.2⟩]
      · rw [if_neg hw]
        refine if_congr ?_ rfl rfl
        rw [List.mem_cons]
        tauto
    · rw [List.foldl_cons, hqueue, getElem?_mark]
      have hmark : w ∈ (mark unseen label st v).2 ↔ w ∈ st.2 ∨ w = v ∧ st.1[w]? = some unseen := by
        unfold mark
        split
        · rename_i hseen
          rw [List.mem_append, List.mem_singleton]
          exact or_congr_right ⟨fun h => ⟨h, h ▸ hseen⟩, And.left⟩
        · rename_i hseen
          exact ⟨.inl, fun h => h.elim id fun h => absurd (h.1 ▸ h.2) hseen⟩
      rw [hmark, List.mem_cons]
      by_cases hw : w = v ∧ st.1[w]? = some unseen
      · rw [if_pos hw]
        tauto
      · rw [if_neg hw]
        tauto

end Mark

section Values

variable {unseen label : L}

theorem mem_foldl_mark {nbrs : List ℕ} {st : List L × List ℕ} {x : L}
    (h : x ∈ (nbrs.foldl (mark unseen label) st).1) : x ∈ st.1 ∨ x = label := by
  induction nbrs generalizing st with
  | nil => exact .inl h
  | cons v nbrs ih =>
    rcases ih h with h | h
    · unfold mark at h
      split at h
      · exact List.mem_or_eq_of_mem_set h
      · exact .inl h
    · exact .inr h

theorem length_foldl_mark (nbrs : List ℕ) (st : List L × List ℕ) :
    (nbrs.foldl (mark unseen label) st).1.length = st.1.length := by
  induction nbrs generalizing st with
  | nil => rfl
  | cons v nbrs ih => rw [List.foldl_cons, ih, length_mark]

theorem values_flood (succ : ℕ → List ℕ) (fuel : ℕ) (st : List L × List ℕ) :
    (flood succ unseen label fuel st).length = st.1.length ∧
      ∀ x ∈ flood succ unseen label fuel st, x ∈ st.1 ∨ x = label := by
  induction fuel generalizing st with
  | zero => exact ⟨rfl, fun x hx => .inl hx⟩
  | succ fuel ih =>
    obtain ⟨labels, queue⟩ := st
    cases queue with
    | nil => exact ⟨rfl, fun x hx => .inl hx⟩
    | cons u queue =>
      obtain ⟨hlen, hmem⟩ := ih ((succ u).foldl (mark unseen label) (labels, queue))
      refine ⟨hlen.trans (length_foldl_mark _ _), fun x hx => ?_⟩
      rcases hmem x hx with hx | hx
      · have hx' : x ∈ labels ∨ x = label := mem_foldl_mark hx
        exact hx'
      · exact .inr hx

end Values

section Fill

open Relation (ReflTransGen)

variable {succ : ℕ → List ℕ} {unseen label : L} {before : List L} {s : ℕ}

/-- What holds in the course of a fill from `s`. -/
structure Inv (succ : ℕ → List ℕ) (unseen label : L) (before : List L) (s : ℕ)
    (st : List L × List ℕ) : Prop where
  length : st.1.length = before.length
  labelled : ∀ v, st.1[v]? = before[v]? ∨
    ReflTransGen (fun v w => w ∈ succ v) s v ∧ before[v]? = some unseen ∧ st.1[v]? = some label
  start : st.1[s]? = some label
  queue : ∀ v ∈ st.2, st.1[v]? = some label ∧ before[v]? = some unseen
  expanded : ∀ v, before[v]? = some unseen → st.1[v]? = some label → v ∉ st.2 → ∀ w ∈ succ v, st.1[w]? ≠ some unseen

omit [DecidableEq L] in
theorem inv_start (hne : label ≠ unseen) (hs : before[s]? = some unseen) :
    Inv succ unseen label before s (before.set s label, [s]) where
  length := List.length_set
  labelled := by
    intro v
    by_cases hv : v = s
    · subst hv
      exact .inr ⟨.refl, hs, List.getElem?_set_self (List.getElem?_eq_some_iff.1 hs).1⟩
    · exact .inl (List.getElem?_set_ne (Ne.symm hv))
  start := List.getElem?_set_self (List.getElem?_eq_some_iff.1 hs).1
  queue := by
    intro v hv
    cases List.mem_singleton.1 hv
    exact ⟨List.getElem?_set_self (List.getElem?_eq_some_iff.1 hs).1, hs⟩
  expanded := by
    intro v hbefore hlabel hqueue
    have hv : v ≠ s := fun h => hqueue (List.mem_singleton.2 h)
    rw [show (before.set s label)[v]? = before[v]? from List.getElem?_set_ne (Ne.symm hv), hbefore] at hlabel
    exact absurd (Option.some.inj hlabel).symm hne

theorem Inv.expand (hne : label ≠ unseen) {labels : List L} {u : ℕ} {queue : List ℕ}
    (h : Inv succ unseen label before s (labels, u :: queue)) :
    Inv succ unseen label before s ((succ u).foldl (mark unseen label) (labels, queue)) := by
  obtain ⟨hlen, hget, hqueue⟩ := foldl_mark hne (succ u) (labels, queue)
  obtain ⟨hu, hubefore⟩ := h.queue u (List.mem_cons_self ..)
  have hreach : ReflTransGen (fun v w => w ∈ succ v) s u := by
    rcases h.labelled u with hsame | ⟨hreach, -⟩
    · rw [hu, hubefore] at hsame
      exact absurd (Option.some.inj hsame) hne
    · exact hreach
  -- what had the label keeps it
  have hkeep : ∀ v : ℕ, labels[v]? = some label →
      ((succ u).foldl (mark unseen label) (labels, queue)).1[v]? = some label := by
    intro v hv
    rw [hget, if_neg, hv]
    rintro ⟨-, hv'⟩
    rw [hv] at hv'
    exact hne (Option.some.inj hv')
  refine ⟨hlen.trans h.length, fun v => ?_, hkeep s h.start, fun v hv => ?_, fun v hbefore hlabel hnot => ?_⟩
  · rw [hget]
    split
    · rename_i hv
      rcases h.labelled v with hsame | ⟨-, -, hlabel⟩
      · exact .inr ⟨hreach.tail hv.1, hsame ▸ hv.2, rfl⟩
      · rw [show labels[v]? = some label from hlabel] at hv
        exact absurd (Option.some.inj hv.2) hne
    · exact h.labelled v
  · rcases (hqueue v).1 hv with hv | ⟨hnbr, hv⟩
    · obtain ⟨hlabel, hbefore⟩ := h.queue v (List.mem_cons_of_mem _ hv)
      exact ⟨hkeep v hlabel, hbefore⟩
    · rw [hget, if_pos ⟨hnbr, hv⟩]
      rcases h.labelled v with hsame | ⟨-, -, hlabel⟩
      · exact ⟨rfl, hsame ▸ hv⟩
      · rw [show labels[v]? = some label from hlabel] at hv
        exact absurd (Option.some.inj hv) hne
  · intro w hw
    rw [hget]
    split
    · exact fun heq => hne (Option.some.inj heq)
    · rename_i hkept
      by_cases hvu : v = u
      · subst hvu
        exact fun hunseen => hkept ⟨hw, hunseen⟩
      · -- an earlier one: it had its label before
        have hnot' : v ∉ u :: queue := by
          rw [List.mem_cons, not_or]
          exact ⟨hvu, fun hq => hnot ((hqueue v).2 (.inl hq))⟩
        have hlabel' : labels[v]? = some label := by
          rw [hget] at hlabel
          split at hlabel
          · rename_i hv
            exact absurd ((hqueue v).2 (.inr hv)) hnot
          · exact hlabel
        exact h.expanded v hbefore hlabel' hnot' w hw

theorem inv_flood (hne : label ≠ unseen) {fuel : ℕ} {st : List L × List ℕ}
    (h : Inv succ unseen label before s st) (hfuel : work unseen st ≤ fuel) :
    Inv succ unseen label before s (flood succ unseen label fuel st, []) := by
  induction fuel generalizing st with
  | zero =>
    obtain ⟨labels, queue⟩ := st
    have hnil : queue = [] := by
      have hsum : queue.length + labels.count unseen ≤ 0 := hfuel
      exact List.length_eq_zero_iff.1 (by omega)
    rw [hnil] at h
    exact h
  | succ fuel ih =>
    obtain ⟨labels, queue⟩ := st
    cases queue with
    | nil => exact h
    | cons u queue =>
      refine ih (h.expand hne) ?_
      have hsum : (u :: queue).length + labels.count unseen ≤ fuel + 1 := hfuel
      rw [List.length_cons] at hsum
      rw [work_foldl_mark hne]
      change queue.length + labels.count unseen ≤ fuel
      omega

theorem unseen_of_reach (hsymm : ∀ v w, w ∈ succ v → v ∈ succ w) (hclosed : Closed succ unseen before)
    (hs : before[s]? = some unseen) {v : ℕ} (h : ReflTransGen (fun v w => w ∈ succ v) s v) :
    before[v]? = some unseen := by
  induction h with
  | refl => exact hs
  | tail _ hstep ih =>
    by_contra hseen
    exact hclosed _ hseen _ (hsymm _ _ hstep) ih

theorem getElem?_flood (hne : label ≠ unseen) (hsymm : ∀ v w, w ∈ succ v → v ∈ succ w)
    (hclosed : Closed succ unseen before) (hs : before[s]? = some unseen)
    {fuel : ℕ} (hfuel : before.length ≤ fuel) :
    (flood succ unseen label fuel (before.set s label, [s])).length = before.length ∧
      (∀ v, ReflTransGen (fun v w => w ∈ succ v) s v →
        (flood succ unseen label fuel (before.set s label, [s]))[v]? = some label) ∧
      ∀ v, ¬ ReflTransGen (fun v w => w ∈ succ v) s v →
        (flood succ unseen label fuel (before.set s label, [s]))[v]? = before[v]? := by
  have hlt := (List.getElem?_eq_some_iff.1 hs).1
  have hwork : work unseen (before.set s label, [s]) ≤ fuel := by
    have hmark := work_mark hne (before, []) s
    rw [mark, if_pos hs] at hmark
    have hcount : before.count unseen ≤ before.length := List.count_le_length
    rw [List.nil_append] at hmark
    rw [hmark]
    change 0 + before.count unseen ≤ fuel
    omega
  have hstart : Inv succ unseen label before s (before.set s label, [s]) := inv_start hne hs
  have h := inv_flood hne hstart hwork
  refine ⟨h.length, fun v hreach => ?_, fun v hnot => ?_⟩
  · induction hreach with
    | refl => exact h.start
    | @tail v w hreach hstep ih =>
      have hbefore := unseen_of_reach hsymm hclosed hs hreach
      have hseen := h.expanded v hbefore ih (by simp) w hstep
      rcases h.labelled w with hsame | ⟨-, -, hlabel⟩
      · exact absurd (hsame.trans (unseen_of_reach hsymm hclosed hs (hreach.tail hstep))) hseen
      · exact hlabel
  · rcases h.labelled v with hsame | ⟨hreach, -⟩
    · exact hsame
    · exact absurd hreach hnot

end Fill

end Flood
