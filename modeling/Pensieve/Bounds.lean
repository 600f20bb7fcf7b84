/-
**Computations that index into arrays.**

An index that is out of bounds stops the program, so a program over arrays is a computation in
`Option`:  `none` is the program that was stopped.
-/

import Mathlib.Data.List.Basic

namespace Bounds

open List

variable {α β σ : Type}

/-- `l[i]`. -/
def index (l : List α) (i : ℕ) : Option α := l[i]?

/-- `l[i] = a`. -/
def store (l : List α) (i : ℕ) (a : α) : Option (List α) :=
  if i < l.length then some (l.set i a) else none

/-- `l[i] = f(l[i])`. -/
def update (l : List α) (i : ℕ) (f : α → α) : Option (List α) := do
  let a ← index l i
  store l i (f a)

/-- A loop for at most `fuel` rounds: the body says whether there is another one. -/
def loop (body : σ → Option (σ × Bool)) : ℕ → σ → Option σ
  | 0, s => some s
  | fuel + 1, s => do
      let r ← body s
      if r.2 then loop body fuel r.1 else pure r.1

/-- The computation is not stopped, and its result satisfies `P`. -/
def Safe (x : Option α) (P : α → Prop) : Prop := ∃ a, x = some a ∧ P a

namespace Safe

variable {P : α → Prop} {Q : β → Prop}

theorem isSome {x : Option α} (h : Safe x P) : x.isSome := by
  obtain ⟨a, rfl, -⟩ := h
  rfl

theorem pure {a : α} (h : P a) : Safe (Pure.pure a : Option α) P := ⟨a, rfl, h⟩

theorem bind {x : Option α} {f : α → Option β} (hx : Safe x P) (hf : ∀ a, P a → Safe (f a) Q) : Safe (x >>= f) Q := by
  obtain ⟨a, rfl, ha⟩ := hx
  exact hf a ha

theorem mono {x : Option α} {P' : α → Prop} (hx : Safe x P) (h : ∀ a, P a → P' a) : Safe x P' := by
  obtain ⟨a, rfl, ha⟩ := hx
  exact ⟨a, rfl, h a ha⟩

variable {l : List α}

theorem index {i : ℕ} (hi : i < l.length) : Safe (index l i) fun a => a ∈ l :=
  ⟨l[i], getElem?_eq_getElem hi, getElem_mem hi⟩

theorem store {i : ℕ} {a : α} (hi : i < l.length) :
    Safe (store l i a) fun l' => l'.length = l.length ∧ ∀ x ∈ l', x ∈ l ∨ x = a :=
  ⟨l.set i a, if_pos hi, length_set, fun _ hx => mem_or_eq_of_mem_set hx⟩

theorem update {i : ℕ} {f : α → α} (hi : i < l.length) :
    Safe (update l i f) fun l' => l'.length = l.length ∧ ∀ x ∈ l', x ∈ l ∨ ∃ a ∈ l, x = f a := by
  refine (Safe.index hi).bind fun a ha => (Safe.store hi).mono ?_
  rintro l' ⟨hlen, hmem⟩
  refine ⟨hlen, fun x hx => ?_⟩
  rcases hmem x hx with hx | rfl
  · exact .inl hx
  · exact .inr ⟨a, ha, rfl⟩

theorem foldlM {I : σ → Prop} {f : σ → α → Option σ} {s : σ} (hs : I s)
    (hstep : ∀ s a, a ∈ l → I s → Safe (f s a) I) : Safe (l.foldlM f s) I := by
  induction l generalizing s with
  | nil => exact Safe.pure hs
  | cons a l ih =>
    rw [foldlM_cons]
    refine (hstep s a (.head _) hs).bind fun s' hs' => ih hs' ?_
    intro s a ha
    exact hstep s a (.tail _ ha)

theorem mapM {f : α → Option β} (hf : ∀ a ∈ l, Safe (f a) Q) :
    Safe (l.mapM f) fun l' => l'.length = l.length ∧ ∀ b ∈ l', Q b := by
  induction l with
  | nil => exact ⟨[], rfl, rfl, by simp⟩
  | cons a l ih =>
    rw [mapM_cons]
    refine (hf a (.head _)).bind fun b hb => ?_
    refine (ih fun a ha => hf a (.tail _ ha)).bind fun bs hbs => Safe.pure ⟨?_, ?_⟩
    · rw [length_cons, length_cons, hbs.1]
    · intro c hc
      rcases mem_cons.mp hc with rfl | hc
      · exact hb
      · exact hbs.2 c hc

theorem loop {I : σ → Prop} {body : σ → Option (σ × Bool)}
    (hbody : ∀ s, I s → Safe (body s) fun r => I r.1) (fuel : ℕ) {s : σ} (hs : I s) :
    Safe (loop body fuel s) I := by
  induction fuel generalizing s with
  | zero => exact ⟨s, rfl, hs⟩
  | succ fuel ih =>
    refine (hbody s hs).bind fun r hr => ?_
    split
    · exact ih hr
    · exact Safe.pure hr

end Safe

end Bounds
