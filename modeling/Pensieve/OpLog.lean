/-
**Logs of add and remove operations over keyed elements.**

A log is a list of operations; each adds some elements and removes every element whose key it names,
its own additions included.
-/

import Mathlib.Tactic

namespace OpLog

open List

variable {α κ : Type} [DecidableEq κ]

structure Op (α κ : Type) where
  added : List α
  removed : List κ

def Op.apply (key : α → κ) (live : List α) (op : Op α κ) : List α :=
  (live ++ op.added).filter fun a => key a ∉ op.removed

def replay (key : α → κ) (ops : List (Op α κ)) : List α := ops.foldl (Op.apply key) []

@[simp] theorem replay_nil (key : α → κ) : replay key [] = [] := rfl

theorem replay_append (key : α → κ) (ops later : List (Op α κ)) :
    replay key (ops ++ later) = later.foldl (Op.apply key) (replay key ops) := by
  simp [replay]

theorem replay_concat (key : α → κ) (ops : List (Op α κ)) (op : Op α κ) :
    replay key (ops ++ [op]) = op.apply key (replay key ops) := by
  simp [replay]

variable {key : α → κ}

theorem Op.mem_apply {live : List α} {op : Op α κ} {a : α} :
    a ∈ op.apply key live ↔ (a ∈ live ∨ a ∈ op.added) ∧ key a ∉ op.removed := by
  rw [Op.apply, mem_filter, mem_append, decide_eq_true_iff]

variable {ops : List (Op α κ)}

/-- The elements that a fold leaves: those that were live and are never removed, and those that
some operation adds and neither it nor a later one removes. -/
theorem mem_foldl_apply {live : List α} {a : α} :
    a ∈ ops.foldl (Op.apply key) live ↔ (a ∈ live ∧ ∀ op ∈ ops, key a ∉ op.removed) ∨
      ∃ pre op post, ops = pre ++ op :: post ∧ a ∈ op.added ∧ ∀ op' ∈ op :: post, key a ∉ op'.removed := by
  induction ops generalizing live with
  | nil => simp
  | cons o ops ih =>
    rw [foldl_cons, ih, Op.mem_apply]
    constructor
    · rintro (⟨⟨h | h, ho⟩, hops⟩ | ⟨pre, op, post, rfl, ha, hlater⟩)
      · exact .inl ⟨h, by simpa using ⟨ho, hops⟩⟩
      · exact .inr ⟨[], o, ops, rfl, h, by simpa using ⟨ho, hops⟩⟩
      · exact .inr ⟨o :: pre, op, post, rfl, ha, hlater⟩
    · rintro (⟨h, hops⟩ | ⟨pre, op, post, heq, ha, hlater⟩)
      · exact .inl ⟨⟨.inl h, hops o (by simp)⟩, fun op hop => hops op (by simp [hop])⟩
      · cases pre with
        | nil =>
          obtain ⟨rfl, rfl⟩ : o = op ∧ ops = post := by simpa using heq
          exact .inl ⟨⟨.inr ha, hlater o (by simp)⟩, fun op hop => hlater op (by simp [hop])⟩
        | cons p pre =>
          obtain ⟨rfl, rfl⟩ : o = p ∧ ops = pre ++ op :: post := by simpa using heq
          exact .inr ⟨pre, op, post, rfl, ha, hlater⟩

/-- The operations `later` change nothing on balance: none of them removes an element of `live`,
and whatever one of them adds, it or a later one removes again. -/
def Settled (key : α → κ) (live : List α) (later : List (Op α κ)) : Prop :=
  (∀ a ∈ live, ∀ op ∈ later, key a ∉ op.removed) ∧
  ∀ pre op post, later = pre ++ op :: post → ∀ a ∈ op.added, ∃ op' ∈ op :: post, key a ∈ op'.removed

def addedKeys (key : α → κ) (ops : List (Op α κ)) : List κ := (ops.flatMap Op.added).map key

omit [DecidableEq κ] in
theorem addedKeys_append (key : α → κ) (ops later : List (Op α κ)) :
    addedKeys key (ops ++ later) = addedKeys key ops ++ addedKeys key later := by
  simp [addedKeys]

theorem mem_addedKeys_of_mem_replay {a : α} (h : a ∈ replay key ops) : key a ∈ addedKeys key ops := by
  rcases mem_foldl_apply.mp h with ⟨h, -⟩ | ⟨pre, op, post, rfl, ha, -⟩
  · simp at h
  · exact mem_map_of_mem (mem_flatMap.mpr ⟨op, by simp, ha⟩)

/-- **Replaying further.**  If no key is used twice, replaying the later part of a log leaves the
live elements as they were exactly when that part is settled. -/
theorem foldl_apply_mem_iff_settled {later : List (Op α κ)}
    (hnd : (addedKeys key (ops ++ later)).Nodup) : (∀ a, a ∈ replay key (ops ++ later) ↔ a ∈ replay key ops) ↔
      Settled key (replay key ops) later := by
  rw [addedKeys_append, nodup_append'] at hnd
  obtain ⟨-, -, hdisj⟩ := hnd
  have hnew : ∀ {a : α} {op : Op α κ}, op ∈ later → a ∈ op.added → a ∉ replay key ops := by
    intro a op hop ha hlive
    refine hdisj (mem_addedKeys_of_mem_replay hlive) ?_
    exact mem_map_of_mem (mem_flatMap.mpr ⟨op, hop, ha⟩)
  constructor
  · intro hsame
    refine ⟨?_, ?_⟩
    · intro a ha op hop
      rcases mem_foldl_apply.mp (replay_append key ops later ▸ (hsame a).mpr ha) with
        ⟨-, hkeep⟩ | ⟨pre, op', post, rfl, ha', -⟩
      · exact hkeep op hop
      · exact absurd ha (hnew (by simp) ha')
    · intro pre op post heq a ha
      by_contra hcon
      push Not at hcon
      have hlive : a ∈ replay key (ops ++ later) := by
        rw [replay_append]
        exact mem_foldl_apply.mpr (.inr ⟨pre, op, post, heq, ha, hcon⟩)
      exact hnew (heq ▸ by simp) ha ((hsame a).mp hlive)
  · rintro ⟨hkeep, hgone⟩ a
    rw [replay_append, mem_foldl_apply]
    constructor
    · rintro (⟨h, -⟩ | ⟨pre, op, post, heq, ha, hlater⟩)
      · exact h
      · obtain ⟨op', hop', hrem⟩ := hgone pre op post heq a ha
        exact absurd hrem (hlater op' hop')
    · intro h
      exact .inl ⟨h, hkeep a h⟩

end OpLog
