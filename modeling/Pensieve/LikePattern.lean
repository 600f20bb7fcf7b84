/-
**Wildcard patterns and the words of what they match.**

A pattern is a list of elements, each of which stands for one character out of some set or for any
string.  Given which characters are letters, a string falls into words, and one may ask which words
every match of a pattern must contain.

Main results:

* `Like.mem_words_of_forced` — every match contains a forced word;
* `Like.exists_match_without` — a word that is not forced is missing from some match.
-/

import Mathlib.Tactic

namespace Like

open List

variable {α : Type}

/-! ### Patterns -/

inductive Elem (α : Type) where
  | one (test : α → Bool)
  | many

def likeMatches : List (Elem α) → List α → Bool
  | [], s => s.isEmpty
  | .one _ :: _, [] => false
  | .one test :: es, c :: s => test c && likeMatches es s
  | .many :: es, s => s.tails.any fun rest => likeMatches es rest

variable {es : List (Elem α)}

theorem likeMatches_one_cons {test : α → Bool} {s : List α} :
    likeMatches (.one test :: es) s = true ↔ ∃ c rest, s = c :: rest ∧ test c = true ∧ likeMatches es rest = true := by
  cases s with
  | nil | cons c rest => simp [likeMatches]

theorem likeMatches_many_cons {s : List α} :
    likeMatches (.many :: es) s = true ↔ ∃ u v, s = u ++ v ∧ likeMatches es v = true := by
  simp only [likeMatches, any_eq_true, mem_tails, List.IsSuffix]
  constructor
  · rintro ⟨v, ⟨u, rfl⟩, hv⟩
    exact ⟨u, v, rfl, hv⟩
  · rintro ⟨u, v, rfl, hv⟩
    exact ⟨v, ⟨u, rfl⟩, hv⟩

theorem likeMatches_append {fs : List (Elem α)} {s : List α} :
    likeMatches (es ++ fs) s = true ↔ ∃ u v, s = u ++ v ∧ likeMatches es u = true ∧ likeMatches fs v = true := by
  induction es generalizing s with
  | nil => simp [likeMatches]
  | cons e es ih =>
    cases e with
    | one test =>
      simp only [cons_append, likeMatches_one_cons, ih]
      constructor
      · rintro ⟨c, _, rfl, hc, u, v, rfl, hu, hv⟩
        exact ⟨c :: u, v, rfl, ⟨c, u, rfl, hc, hu⟩, hv⟩
      · rintro ⟨_, v, rfl, ⟨c, u, rfl, hc, hu⟩, hv⟩
        exact ⟨c, u ++ v, rfl, hc, u, v, rfl, hu, hv⟩
    | many =>
      simp only [cons_append, likeMatches_many_cons, ih]
      constructor
      · rintro ⟨w, _, rfl, u, v, rfl, hu, hv⟩
        exact ⟨w ++ u, v, (append_assoc _ _ _).symm, ⟨w, u, rfl, hu⟩, hv⟩
      · rintro ⟨_, v, rfl, ⟨w, u, rfl, hu⟩, hv⟩
        exact ⟨w, u ++ v, append_assoc _ _ _, u, v, rfl, hu, hv⟩

section Words

variable (isLetter : α → Bool) (norm : α → α)

def wordsFrom : List α → List α → List (List α)
  | cur, [] => [cur]
  | cur, c :: cs => if isLetter c then wordsFrom (cur ++ [norm c]) cs else cur :: wordsFrom [] cs

def words (s : List α) : List (List α) := wordsFrom isLetter norm [] s

variable {isLetter norm}

theorem wordsFrom_letters {w : List α} (hw : ∀ c ∈ w, isLetter c = true) (cur : List α) :
    wordsFrom isLetter norm cur w = [cur ++ w.map norm] := by
  induction w generalizing cur with
  | nil => simp [wordsFrom]
  | cons c w ih =>
    rw [wordsFrom, if_pos (hw c (by simp)), ih fun d hd => hw d (by simp [hd])]
    simp

theorem wordsFrom_append_sep {c : α} (hc : isLetter c = false) (cur u v : List α) :
    wordsFrom isLetter norm cur (u ++ c :: v) = wordsFrom isLetter norm cur u ++ words isLetter norm v := by
  induction u generalizing cur with
  | nil => simp [wordsFrom, words, hc]
  | cons d u ih =>
    rw [cons_append, wordsFrom, wordsFrom]
    split
    · rw [ih]
    · rw [ih, cons_append]

theorem words_append_sep {c : α} (hc : isLetter c = false) (u v : List α) :
    words isLetter norm (u ++ c :: v) = words isLetter norm u ++ words isLetter norm v :=
  wordsFrom_append_sep hc [] u v

theorem wordsFrom_length (cur s : List α) :
    (wordsFrom isLetter norm cur s).length = s.countP (fun c => !isLetter c) + 1 := by
  induction s generalizing cur with
  | nil => rfl
  | cons c s ih =>
    rw [wordsFrom, countP_cons]
    cases hc : isLetter c with
    | true | false => simp [ih]

theorem mem_words_of_delimited {u w v : List α} (hw : ∀ c ∈ w, isLetter c = true)
    (hu : u = [] ∨ ∃ u' c, u = u' ++ [c] ∧ isLetter c = false)
    (hv : v = [] ∨ ∃ c v', v = c :: v' ∧ isLetter c = false) : w.map norm ∈ words isLetter norm (u ++ w ++ v) := by
  have hright : w.map norm ∈ words isLetter norm (w ++ v) := by
    rcases hv with rfl | ⟨c, v', rfl, hc⟩
    · rw [append_nil, words, wordsFrom_letters hw]
      simp
    · rw [words_append_sep hc, words, wordsFrom_letters hw]
      simp
  rcases hu with rfl | ⟨u', c, rfl, hc⟩
  · exact hright
  · rw [append_assoc, append_assoc, singleton_append, words_append_sep hc]
    exact mem_append_right _ hright

end Words

section Forced

variable (isLetter : α → Bool) (norm : α → α)

def Elem.IsSep : Elem α → Prop
  | .one test => ∀ c, test c = true → isLetter c = false
  | .many => False

def Elem.IsLetterOf (a : α) : Elem α → Prop
  | .one test => ∀ c, test c = true → isLetter c = true ∧ norm c = a
  | .many => False

def Spells (block : List (Elem α)) (w : List α) : Prop :=
  List.Forall₂ (fun e a => e.IsLetterOf isLetter norm a) block w

/-- **A word stands in the pattern as a whole word**: its letters, between ends of the pattern or
elements that only separators match. -/
def Forced (es : List (Elem α)) (w : List α) : Prop :=
  ∃ pre block post, es = pre ++ block ++ post ∧ Spells isLetter norm block w ∧
    (pre = [] ∨ ∃ pre' e, pre = pre' ++ [e] ∧ e.IsSep isLetter) ∧
    (post = [] ∨ ∃ e post', post = e :: post' ∧ e.IsSep isLetter)

variable {isLetter norm}

variable {es : List (Elem α)} {s : List α}

theorem likeMatches_of_isSep {e : Elem α} (he : e.IsSep isLetter) (h : likeMatches (e :: es) s = true) :
    ∃ c rest, s = c :: rest ∧ isLetter c = false ∧ likeMatches es rest = true := by
  cases e with
  | one test =>
    obtain ⟨c, rest, hs, hc, hrest⟩ := likeMatches_one_cons.mp h
    exact ⟨c, rest, hs, he c hc, hrest⟩
  | many => exact he.elim

variable {block : List (Elem α)} {w : List α}

theorem likeMatches_of_spells (hw : Spells isLetter norm block w) (h : likeMatches block s = true) :
    s.map norm = w ∧ ∀ c ∈ s, isLetter c = true := by
  induction hw generalizing s with
  | nil =>
    have hs : s = [] := by simpa [likeMatches] using h
    simp [hs]
  | @cons e a block w he _ ih =>
    cases e with
    | one test =>
      obtain ⟨c, rest, rfl, hc, hrest⟩ := likeMatches_one_cons.mp h
      obtain ⟨hmap, hletters⟩ := ih hrest
      obtain ⟨hletter, hnorm⟩ := he c hc
      refine ⟨by rw [map_cons, hmap, hnorm], ?_⟩
      intro d hd
      rcases mem_cons.mp hd with rfl | hd
      · exact hletter
      · exact hletters d hd
    | many => exact he.elim

theorem mem_words_of_forced (hw : Forced isLetter norm es w)
    (h : likeMatches es s = true) : w ∈ words isLetter norm s := by
  obtain ⟨pre, block, post, rfl, hspell, hpre, hpost⟩ := hw
  obtain ⟨_, x, rfl, h, hx⟩ := likeMatches_append.mp h
  obtain ⟨u, v, rfl, hu, hv⟩ := likeMatches_append.mp h
  obtain ⟨rfl, hletters⟩ := likeMatches_of_spells hspell hv
  refine mem_words_of_delimited hletters ?_ ?_
  · rcases hpre with rfl | ⟨pre', e, rfl, he⟩
    · exact .inl (by simpa [likeMatches] using hu)
    · obtain ⟨u', r, rfl, -, hr⟩ := likeMatches_append.mp hu
      obtain ⟨c, rest, rfl, hc, hrest⟩ := likeMatches_of_isSep he hr
      have hnil : rest = [] := by simpa [likeMatches] using hrest
      exact .inr ⟨u', c, by rw [hnil], hc⟩
  · rcases hpost with rfl | ⟨e, post', rfl, he⟩
    · exact .inl (by simpa [likeMatches] using hx)
    · obtain ⟨c, rest, rfl, hc, -⟩ := likeMatches_of_isSep he hx
      exact .inr ⟨c, rest, rfl, hc⟩

/-! ### Avoiding a word that is not forced -/

/-- A block without separators has a match of letters only, as long as one likes if it has a `many`
and of its own length otherwise. -/
theorem exists_letters {fill : α} (hfill : isLetter fill = true) (n : ℕ)
    (hsep : ∀ e ∈ block, ¬ e.IsSep isLetter) : ∃ s, likeMatches block s = true ∧ (∀ c ∈ s, isLetter c = true) ∧
      (Elem.many ∈ block → n < s.length) ∧ (Elem.many ∉ block → s.length = block.length) := by
  induction block with
  | nil => exact ⟨[], rfl, by simp, by simp, by simp⟩
  | cons e block ih =>
    obtain ⟨s, hs, hletters, hlong, hlen⟩ := ih fun e he => hsep e (by simp [he])
    cases e with
    | one test =>
      have hnot := hsep (.one test) (by simp)
      simp only [Elem.IsSep, not_forall, Bool.not_eq_false] at hnot
      obtain ⟨c, hc, hletter⟩ := hnot
      refine ⟨c :: s, by simp [likeMatches, hc, hs], ?_, ?_, ?_⟩
      · simpa [hletter] using hletters
      · intro hmany
        have := hlong (by simpa using hmany)
        simp only [length_cons]
        omega
      · intro hmany
        simp only [length_cons, hlen (by simpa using hmany)]
    | many =>
      refine ⟨List.replicate (n + 1) fill ++ s, likeMatches_many_cons.mpr ⟨_, s, rfl, hs⟩, ?_, ?_, ?_⟩
      · intro c hc
        rcases mem_append.mp hc with hc | hc
        · rw [eq_of_mem_replicate hc]
          exact hfill
        · exact hletters c hc
      · intro _
        simp only [length_append, length_replicate]
        omega
      · simp

theorem exists_misspelt (hlen : block.length = w.length) (h : ¬ Spells isLetter norm block w) :
    ∃ b₁ e b₂ w₁ a w₂, block = b₁ ++ e :: b₂ ∧ w = w₁ ++ a :: w₂ ∧ b₁.length = w₁.length ∧
      ¬ e.IsLetterOf isLetter norm a := by
  induction block generalizing w with
  | nil =>
    cases w with
    | nil => exact absurd .nil h
    | cons a w => simp at hlen
  | cons e block ih =>
    cases w with
    | nil => simp at hlen
    | cons a w =>
      by_cases he : e.IsLetterOf isLetter norm a
      · have hrest : ¬ Spells isLetter norm block w := fun hs => h (.cons he hs)
        obtain ⟨b₁, e', b₂, w₁, a', w₂, rfl, rfl, hl, he'⟩ := ih (by simpa using hlen) hrest
        exact ⟨e :: b₁, e', b₂, a :: w₁, a', w₂, rfl, rfl, by simp [hl], he'⟩
      · exact ⟨[], e, block, [], a, w, rfl, rfl, rfl, he⟩

theorem notMem_words_of_letters (hs : ∀ c ∈ s, isLetter c = true)
    (hne : s.map norm ≠ w) : w ∉ words isLetter norm s := by
  rw [words, wordsFrom_letters hs]
  simpa using Ne.symm hne

theorem countP_letters (hs : ∀ c ∈ s, isLetter c = true) : s.countP (fun c => !isLetter c) = 0 := by
  simpa [countP_eq_zero] using hs

theorem exists_block_without {fill : α} (hfill : isLetter fill = true)
    (hsep : ∀ e ∈ block, ¬ e.IsSep isLetter) (h : ¬ Spells isLetter norm block w) :
    ∃ s, likeMatches block s = true ∧ w ∉ words isLetter norm s ∧ s.countP (fun c => !isLetter c) ≤ block.length := by
  by_cases hlen : Elem.many ∉ block ∧ block.length = w.length
  · -- the length fits, so one position has to give a wrong letter or no letter
    obtain ⟨hmany, hlen⟩ := hlen
    obtain ⟨b₁, e, b₂, w₁, a, w₂, rfl, rfl, hl, he⟩ := exists_misspelt hlen h
    have hl₂ : b₂.length = w₂.length := by
      simp only [length_append, length_cons] at hlen
      omega
    obtain ⟨s₁, hs₁, hletters₁, -, hlen₁⟩ := exists_letters hfill 0 fun e he => hsep e (mem_append_left _ he)
    obtain ⟨s₂, hs₂, hletters₂, -, hlen₂⟩ :=
      exists_letters hfill 0 fun e he => hsep e (mem_append_right _ (mem_cons_of_mem _ he))
    have hs₁len : s₁.length = w₁.length := by
      rw [hlen₁ fun hm => hmany (mem_append_left _ hm), hl]
    have hs₂len : s₂.length = w₂.length := by
      rw [hlen₂ fun hm => hmany (mem_append_right _ (mem_cons_of_mem _ hm)), hl₂]
    cases e with
    | many => exact absurd (by simp) hmany
    | one test =>
      simp only [Elem.IsLetterOf, not_forall] at he
      obtain ⟨c, hc, hbad⟩ := he
      have hmatch : likeMatches (b₁ ++ .one test :: b₂) (s₁ ++ c :: s₂) = true :=
        likeMatches_append.mpr ⟨s₁, c :: s₂, rfl, hs₁, by simp [likeMatches, hc, hs₂]⟩
      refine ⟨s₁ ++ c :: s₂, hmatch, ?_, ?_⟩
      · cases hletter : isLetter c with
        | true =>
          refine notMem_words_of_letters ?_ ?_
          · intro d hd
            simp only [mem_append, mem_cons] at hd
            rcases hd with hd | rfl | hd
            · exact hletters₁ d hd
            · exact hletter
            · exact hletters₂ d hd
          · intro heq
            rw [map_append, map_cons] at heq
            have htail := (append_inj heq (by simpa using hs₁len)).2
            exact hbad ⟨hletter, (List.cons.inj htail).1⟩
        | false =>
          -- both pieces are shorter than the word
          rw [words_append_sep hletter, words, words, wordsFrom_letters hletters₁, wordsFrom_letters hletters₂]
          intro hw
          have hshort : (w₁ ++ a :: w₂).length = s₁.length ∨ (w₁ ++ a :: w₂).length = s₂.length := by
            simp only [nil_append, mem_append, mem_singleton] at hw
            rcases hw with hw | hw
            · exact .inl (by rw [hw, length_map])
            · exact .inr (by rw [hw, length_map])
          simp only [length_append, length_cons] at hshort
          omega
      · rw [countP_append, countP_cons, countP_letters hletters₁, countP_letters hletters₂, length_append, length_cons]
        split <;> omega
  · -- a match of letters only has another length than the word
    obtain ⟨s, hs, hletters, hlong, hlen'⟩ := exists_letters hfill w.length hsep
    refine ⟨s, hs, notMem_words_of_letters hletters ?_, by rw [countP_letters hletters]; omega⟩
    intro heq
    have hsl : s.length = w.length := by rw [← heq, length_map]
    by_cases hmany : Elem.many ∈ block
    · have := hlong hmany
      omega
    · exact hlen ⟨hmany, by rw [← hlen' hmany, hsl]⟩

variable (isLetter) in
theorem exists_first_sep (es : List (Elem α)) : (∀ e ∈ es, ¬ e.IsSep isLetter) ∨
      ∃ block e rest, es = block ++ e :: rest ∧ (∀ e ∈ block, ¬ e.IsSep isLetter) ∧ e.IsSep isLetter := by
  induction es with
  | nil => exact .inl (by simp)
  | cons e es ih =>
    by_cases he : e.IsSep isLetter
    · exact .inr ⟨[], e, es, rfl, by simp, he⟩
    · rcases ih with hall | ⟨block, e', rest, rfl, hblock, he'⟩
      · exact .inl (by simpa [he] using hall)
      · exact .inr ⟨e :: block, e', rest, rfl, by simpa [he] using hblock, he'⟩

theorem Forced.after_sep {rest : List (Elem α)} {e : Elem α} (he : e.IsSep isLetter)
    (h : Forced isLetter norm rest w) : Forced isLetter norm (block ++ e :: rest) w := by
  obtain ⟨pre, spelt, post, rfl, hspell, hpre, hpost⟩ := h
  refine ⟨block ++ e :: pre, spelt, post, by simp, hspell, .inr ?_, hpost⟩
  rcases hpre with rfl | ⟨pre', e', rfl, he'⟩
  · exact ⟨block, e, rfl, he⟩
  · exact ⟨block ++ e :: pre', e', by simp, he'⟩

/-- **A word that is not forced is missing from some match.**  The match needs no more separators
than the pattern has elements. -/
theorem exists_match_without (fill : α) (hfill : isLetter fill = true)
    (hsat : ∀ test, Elem.one test ∈ es → ∃ c, test c = true) (h : ¬ Forced isLetter norm es w) :
    ∃ s, likeMatches es s = true ∧ w ∉ words isLetter norm s ∧ s.countP (fun c => !isLetter c) ≤ es.length := by
  -- induction over the blocks between separators, by the length of what is left
  induction hn : es.length using Nat.strong_induction_on generalizing es with
  | _ n ih =>
    rcases exists_first_sep isLetter es with hall | ⟨block, e, rest, rfl, hblock, he⟩
    · have hspell : ¬ Spells isLetter norm es w := fun hs =>
        h ⟨[], es, [], by simp, hs, .inl rfl, .inl rfl⟩
      obtain ⟨s, hs, hw, hcount⟩ := exists_block_without hfill hall hspell
      exact ⟨s, hs, hw, by omega⟩
    · have hspell : ¬ Spells isLetter norm block w := fun hs =>
        h ⟨[], block, e :: rest, by simp, hs, .inl rfl, .inr ⟨e, rest, rfl, he⟩⟩
      obtain ⟨s, hs, hw, hcount⟩ := exists_block_without hfill hblock hspell
      rw [length_append, length_cons] at hn
      obtain ⟨t, ht, hwt, hcountt⟩ := ih rest.length (by omega)
        (fun test htest => hsat test (by simp [htest])) (fun hf => h (hf.after_sep he)) rfl
      cases e with
      | many => exact he.elim
      | one test =>
        obtain ⟨c, hc⟩ := hsat test (by simp)
        have hletter : isLetter c = false := he c hc
        refine ⟨s ++ c :: t, ?_, ?_, ?_⟩
        · exact likeMatches_append.mpr ⟨s, c :: t, rfl, hs, by simp [likeMatches, hc, ht]⟩
        · rw [words_append_sep hletter, mem_append]
          exact not_or.mpr ⟨hw, hwt⟩
        · rw [countP_append, countP_cons]
          split <;> omega

end Forced

end Like
