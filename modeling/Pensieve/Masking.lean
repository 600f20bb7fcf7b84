/-
**Masked text.**

A text in which ranges are hidden behind markers is a list of segments: a segment is an element that
is kept, or a range that is hidden, with the kind of its marker.
-/

import Mathlib.Tactic

namespace Masking

open List

variable {α κ : Type*} {marker : κ → List α}

/-! ### Ranges -/

structure Hit (κ : Type*) where
  start : ℕ
  stop : ℕ
  kind : κ
  deriving DecidableEq

def Hit.Has (h : Hit κ) (i : ℕ) : Prop := h.start ≤ i ∧ i < h.stop

instance (h : Hit κ) (i : ℕ) : Decidable (h.Has i) := inferInstanceAs (Decidable (_ ∧ _))

/-- The ranges come one after another, from `last` on, and end by `len`. -/
def InOrder : ℕ → ℕ → List (Hit κ) → Prop
  | last, len, [] => last ≤ len
  | last, len, h :: hs => last ≤ h.start ∧ h.start ≤ h.stop ∧ InOrder h.stop len hs

variable {hs : List (Hit κ)} {last len : ℕ}

theorem InOrder.le (h : InOrder last len hs) : last ≤ len := by
  induction hs generalizing last with
  | nil => exact h
  | cons x hs ih => exact h.1.trans (h.2.1.trans (ih h.2.2))

theorem InOrder.mono {last last' len : ℕ} {hs : List (Hit κ)} (h : InOrder last len hs)
    (hle : last' ≤ last) : InOrder last' len hs := by
  cases hs with
  | nil => exact hle.trans h
  | cons x hs => exact ⟨hle.trans h.1, h.2⟩

theorem InOrder.le_start {last len : ℕ} {hs : List (Hit κ)} (h : InOrder last len hs) {x : Hit κ}
    (hx : x ∈ hs) : last ≤ x.start := by
  induction hs generalizing last with
  | nil => cases hx
  | cons y hs ih =>
    rcases mem_cons.1 hx with rfl | hx
    · exact h.1
    · exact h.1.trans (h.2.1.trans (ih h.2.2 hx))

theorem InOrder.start_le_stop {last len : ℕ} {hs : List (Hit κ)} (h : InOrder last len hs) {x : Hit κ}
    (hx : x ∈ hs) : x.start ≤ x.stop := by
  induction hs generalizing last with
  | nil => cases hx
  | cons y hs ih =>
    rcases mem_cons.1 hx with rfl | hx
    · exact h.2.1
    · exact ih h.2.2 hx

theorem InOrder.stop_le {last len : ℕ} {hs : List (Hit κ)} (h : InOrder last len hs) {x : Hit κ}
    (hx : x ∈ hs) : x.stop ≤ len := by
  induction hs generalizing last with
  | nil => cases hx
  | cons y hs ih =>
    rcases mem_cons.1 hx with rfl | hx
    · exact h.2.2.le
    · exact ih h.2.2 hx

def slice (text : List α) (start stop : ℕ) : List α := (text.drop start).take (stop - start)

/-- **Replace ranges of a text by markers**; what stands before `last` has been copied. -/
def splice (marker : κ → List α) (text : List α) : ℕ → List (Hit κ) → List α
  | last, [] => text.drop last
  | last, h :: hs => slice text last h.start ++ (marker h.kind ++ splice marker text h.stop hs)

variable {text : List α}

theorem slice_append {a b c : ℕ} (hab : a ≤ b) (hbc : b ≤ c) : slice text a b ++ slice text b c = slice text a c := by
  have hb : b = a + (b - a) := by omega
  have hc : c - a = (b - a) + (c - b) := by omega
  rw [slice, slice, slice, hc, take_add, drop_drop, ← hb]

theorem slice_append_drop {text : List α} {a b : ℕ} (hab : a ≤ b) : slice text a b ++ text.drop b = text.drop a := by
  have hb : b = a + (b - a) := by omega
  calc slice text a b ++ text.drop b
      = (text.drop a).take (b - a) ++ (text.drop a).drop (b - a) := by rw [slice, drop_drop, ← hb]
    _ = text.drop a := take_append_drop _ _

theorem slice_append_splice {text : List α} {a b len : ℕ} {hs : List (Hit κ)} (hab : a ≤ b)
    (h : InOrder b len hs) : slice text a b ++ splice marker text b hs = splice marker text a hs := by
  cases hs with
  | nil => exact slice_append_drop hab
  | cons x hs =>
    rw [splice, splice, ← append_assoc, slice_append hab h.1]

def Hit.shift (n : ℕ) (h : Hit κ) : Hit κ := ⟨n + h.start, n + h.stop, h.kind⟩

theorem slice_append_left {xs ys : List α} {a b : ℕ} (hb : b ≤ xs.length) : slice (xs ++ ys) a b = slice xs a b := by
  rcases Nat.lt_or_ge b a with hab | hab
  · rw [slice, slice, Nat.sub_eq_zero_of_le hab.le, take_zero, take_zero]
  · have hlen : b - a ≤ (xs.drop a).length := by
      rw [length_drop]
      omega
    rw [slice, slice, drop_append_of_le_length (hab.trans hb), take_append_of_le_length hlen]

theorem slice_append_right (xs ys : List α) (a b : ℕ) :
    slice (xs ++ ys) (xs.length + a) (xs.length + b) = slice ys a b := by
  rw [slice, slice, ← drop_drop, drop_left, Nat.add_sub_add_left]

theorem splice_append {xs ys : List α} {hs hs' : List (Hit κ)}
    (h : InOrder last xs.length hs) (h' : InOrder xs.length len hs') : splice marker (xs ++ ys) last (hs ++ hs') =
      splice marker xs last hs ++ splice marker (xs ++ ys) xs.length hs' := by
  induction hs generalizing last with
  | nil =>
    have hlast : slice (xs ++ ys) last xs.length = xs.drop last := by
      rw [slice_append_left le_rfl, slice, take_of_length_le (length_drop).le]
    rw [nil_append, splice, ← slice_append_splice h h', hlast]
  | cons x hs ih =>
    obtain ⟨hlast, hstop, hrest⟩ := h
    rw [cons_append, splice, splice, ih hrest, slice_append_left (hstop.trans hrest.le)]
    simp only [append_assoc]

theorem splice_shift (xs ys : List α) (last : ℕ) (hs : List (Hit κ)) :
    splice marker (xs ++ ys) (xs.length + last) (hs.map (Hit.shift xs.length)) = splice marker ys last hs := by
  induction hs generalizing last with
  | nil => rw [map_nil, splice, splice, ← drop_drop, drop_left]
  | cons x hs ih =>
    rw [map_cons, splice, splice, ← ih x.stop, ← slice_append_right xs ys last x.start]
    rfl

/-! ### Segments -/

inductive Seg (α κ : Type*)
  | keep (a : α)
  | mask (hidden : List α) (kind : κ)
  deriving DecidableEq

def Seg.orig : Seg α κ → List α
  | .keep a => [a]
  | .mask hidden _ => hidden

def Seg.shown (marker : κ → List α) : Seg α κ → List α
  | .keep a => [a]
  | .mask _ kind => marker kind

def orig (segs : List (Seg α κ)) : List α := segs.flatMap Seg.orig

def shown (marker : κ → List α) (segs : List (Seg α κ)) : List α := segs.flatMap (Seg.shown marker)

@[simp] theorem orig_nil : orig ([] : List (Seg α κ)) = [] := rfl

@[simp] theorem orig_cons (s : Seg α κ) (segs : List (Seg α κ)) : orig (s :: segs) = s.orig ++ orig segs := rfl

@[simp] theorem orig_append (xs ys : List (Seg α κ)) : orig (xs ++ ys) = orig xs ++ orig ys := flatMap_append

@[simp] theorem shown_nil : shown marker ([] : List (Seg α κ)) = [] := rfl

@[simp] theorem shown_cons (s : Seg α κ) (segs : List (Seg α κ)) :
    shown marker (s :: segs) = s.shown marker ++ shown marker segs := rfl

@[simp] theorem shown_append (xs ys : List (Seg α κ)) :
    shown marker (xs ++ ys) = shown marker xs ++ shown marker ys := flatMap_append

def plain (text : List α) : List (Seg α κ) := text.map .keep

@[simp] theorem orig_plain (text : List α) : orig (plain text : List (Seg α κ)) = text := by
  induction text with
  | nil => rfl
  | cons a text ih => exact congrArg (a :: ·) ih

@[simp] theorem shown_plain (text : List α) : shown marker (plain text : List (Seg α κ)) = text := by
  induction text with
  | nil => rfl
  | cons a text ih => exact congrArg (a :: ·) ih

/-! ### Cutting -/

def cut (marker : κ → List α) : ℕ → List (Seg α κ) → Option (List (Seg α κ) × List (Seg α κ))
  | 0, segs => some ([], segs)
  | _ + 1, [] => none
  | n + 1, .keep a :: segs => (cut marker n segs).map fun p => (.keep a :: p.1, p.2)
  | n + 1, .mask hidden kind :: segs =>
    if (marker kind).length ≤ n + 1 then
      (cut marker (n + 1 - (marker kind).length) segs).map fun p => (.mask hidden kind :: p.1, p.2)
    else none
termination_by _ segs => segs.length

theorem cut_eq {n : ℕ} {segs A B : List (Seg α κ)} (h : cut marker n segs = some (A, B)) :
    segs = A ++ B ∧ (shown marker A).length = n := by
  induction n, segs using cut.induct marker generalizing A B with
  | case1 segs =>
    rw [cut] at h
    cases h
    exact ⟨rfl, rfl⟩
  | case2 n =>
    rw [cut] at h
    cases h
  | case3 n a segs ih =>
    rw [cut, Option.map_eq_some_iff] at h
    obtain ⟨⟨A', B'⟩, hcut, heq⟩ := h
    cases heq
    obtain ⟨hsegs, hlen⟩ := ih hcut
    refine ⟨congrArg _ hsegs, ?_⟩
    rw [shown_cons, length_append, hlen]
    exact Nat.add_comm 1 n
  | case4 n hidden kind segs hle ih =>
    rw [cut, if_pos hle, Option.map_eq_some_iff] at h
    obtain ⟨⟨A', B'⟩, hcut, heq⟩ := h
    cases heq
    obtain ⟨hsegs, hlen⟩ := ih hcut
    refine ⟨congrArg _ hsegs, ?_⟩
    rw [shown_cons, length_append, hlen]
    exact Nat.add_sub_cancel' hle
  | case5 n hidden kind segs hle =>
    rw [cut, if_neg hle] at h
    cases h

theorem cut_plain {n : ℕ} (h : n ≤ text.length) :
    cut marker n (plain text) = some (plain (text.take n), plain (text.drop n)) := by
  induction n generalizing text with
  | zero => rw [cut]; rfl
  | succ n ih =>
    cases text with
    | nil => cases h
    | cons a text =>
      change cut marker (n + 1) (.keep a :: plain text) = _
      rw [cut, ih (Nat.le_of_succ_le_succ h)]
      rfl

/-! ### Masking -/

/-- **Mask ranges of what is shown**, from left to right; the segments begin at the place `last`. -/
def absorb (marker : κ → List α) : ℕ → List (Seg α κ) → List (Hit κ) → Option (List (Seg α κ))
  | _, segs, [] => some segs
  | last, segs, h :: hs =>
    match cut marker (h.start - last) segs with
    | none => none
    | some (before, rest) =>
      match cut marker (h.stop - h.start) rest with
      | none => none
      | some (under, after) =>
        (absorb marker h.stop after hs).map fun done => before ++ .mask (orig under) h.kind :: done

variable {segs done : List (Seg α κ)}

theorem absorb_cons {last : ℕ} {h : Hit κ}
    (habs : absorb marker last segs (h :: hs) = some done) :
    ∃ before under after done', segs = before ++ (under ++ after) ∧
      (shown marker before).length = h.start - last ∧ (shown marker under).length = h.stop - h.start ∧
      absorb marker h.stop after hs = some done' ∧ done = before ++ .mask (orig under) h.kind :: done' := by
  rw [absorb] at habs
  split at habs
  · cases habs
  · rename_i before rest hbefore
    split at habs
    · cases habs
    · rename_i under after hunder
      obtain ⟨done', hdone', rfl⟩ := Option.map_eq_some_iff.1 habs
      obtain ⟨rfl, hlen⟩ := cut_eq hbefore
      obtain ⟨rfl, hlen'⟩ := cut_eq hunder
      exact ⟨before, under, after, done', rfl, hlen, hlen', hdone', rfl⟩

theorem orig_absorb {last : ℕ}
    (h : absorb marker last segs hs = some done) : orig done = orig segs := by
  induction hs generalizing last segs done with
  | nil => exact congrArg orig (Option.some_inj.1 h).symm
  | cons x hs ih =>
    obtain ⟨before, under, after, done', rfl, -, -, hdone', rfl⟩ := absorb_cons h
    rw [orig_append, orig_cons, ih hdone', orig_append, orig_append, Seg.orig]

theorem shown_absorb {text : List α} {last len : ℕ} {segs done : List (Seg α κ)} {hs : List (Hit κ)}
    (hord : InOrder last len hs) (hsegs : text.drop last = shown marker segs)
    (h : absorb marker last segs hs = some done) : shown marker done = splice marker text last hs := by
  induction hs generalizing last segs done with
  | nil =>
    rw [splice, hsegs, Option.some_inj.1 h]
  | cons x hs ih =>
    obtain ⟨before, under, after, done', rfl, hbefore, hunder, hdone', rfl⟩ := absorb_cons h
    obtain ⟨hlast, hstop, hrest⟩ := hord
    rw [shown_append, shown_append] at hsegs
    have hslice : slice text last x.start = shown marker before := by
      rw [slice, hsegs, ← hbefore, take_left]
    have hdrop : text.drop x.stop = shown marker after := by
      have hsplit : x.stop = last + ((x.start - last) + (x.stop - x.start)) := by omega
      rw [hsplit, ← drop_drop, hsegs, ← hbefore, ← hunder, ← drop_drop, drop_left, drop_left]
    rw [splice, shown_append, shown_cons, hslice, ih hrest hdrop hdone', Seg.shown]

theorem absorb_plain {last : ℕ}
    (hord : InOrder last (last + text.length) hs) : ∃ done, absorb marker last (plain text) hs = some done := by
  induction hs generalizing last text with
  | nil => exact ⟨_, rfl⟩
  | cons x hs ih =>
    obtain ⟨hlast, hstop, hrest⟩ := hord
    have hle := hrest.le
    have hlen : last + text.length = x.stop + ((text.drop (x.start - last)).drop (x.stop - x.start)).length := by
      rw [length_drop, length_drop]
      omega
    rw [hlen] at hrest
    obtain ⟨done, hdone⟩ := ih hrest
    have hbefore : x.start - last ≤ text.length := by omega
    have hunder : x.stop - x.start ≤ (text.drop (x.start - last)).length := by
      rw [length_drop]
      omega
    rw [absorb, cut_plain hbefore]
    simp only [cut_plain hunder, hdone, Option.map_some]
    exact ⟨_, rfl⟩

/-! ### Places -/

/-- **Where an element of the original stands in what is shown**, if it is not hidden. -/
def place (marker : κ → List α) : List (Seg α κ) → ℕ → Option ℕ
  | [], _ => none
  | .keep _ :: _, 0 => some 0
  | .keep _ :: segs, i + 1 => (place marker segs i).map (1 + ·)
  | .mask hidden kind :: segs, i =>
    if i < hidden.length then none
    else (place marker segs (i - hidden.length)).map ((marker kind).length + ·)

variable {i : ℕ}

theorem place_plain (h : i < text.length) : place marker (plain text : List (Seg α κ)) i = some i := by
  induction text generalizing i with
  | nil => cases h
  | cons a text ih =>
    cases i with
    | zero => rfl
    | succ i =>
      change (place marker (plain text) i).map (1 + ·) = _
      rw [ih (Nat.lt_of_succ_lt_succ h), Option.map_some, Nat.add_comm]

theorem place_append_left {xs ys : List (Seg α κ)} (h : i < (orig xs).length) :
    place marker (xs ++ ys) i = place marker xs i := by
  induction xs generalizing i with
  | nil => cases h
  | cons s xs ih =>
    rw [orig_cons, length_append] at h
    cases s with
    | keep a =>
      cases i with
      | zero => rfl
      | succ i =>
        have hi : i < (orig xs).length := by
          simp only [Seg.orig, length_singleton] at h
          omega
        rw [cons_append, place, place, ih hi]
    | mask hidden kind =>
      rw [cons_append, place, place]
      split
      · rfl
      · have hi : i - hidden.length < (orig xs).length := by
          simp only [Seg.orig] at h
          omega
        rw [ih hi]

theorem place_append_right {xs ys : List (Seg α κ)} (h : (orig xs).length ≤ i) :
    place marker (xs ++ ys) i = (place marker ys (i - (orig xs).length)).map ((shown marker xs).length + ·) := by
  induction xs generalizing i with
  | nil =>
    simp only [nil_append, orig_nil, shown_nil, length_nil, Nat.sub_zero, Nat.zero_add]
    exact Option.map_id'.symm
  | cons s xs ih =>
    rw [orig_cons, length_append] at h ⊢
    rw [shown_cons, length_append]
    cases s with
    | keep a =>
      simp only [Seg.orig, Seg.shown, length_singleton] at h ⊢
      cases i with
      | zero => omega
      | succ i =>
        rw [cons_append, place, ih (by omega), Option.map_map]
        have hi : i + 1 - (1 + (orig xs).length) = i - (orig xs).length := by omega
        rw [hi]
        congr 1
        funext p
        exact (Nat.add_assoc 1 _ p).symm
    | mask hidden kind =>
      simp only [Seg.orig, Seg.shown] at h ⊢
      rw [cons_append, place, if_neg (by omega), ih (by omega), Option.map_map, Nat.sub_sub]
      congr 1
      funext p
      exact (Nat.add_assoc _ _ p).symm

theorem place_of_le {segs : List (Seg α κ)} (h : (orig segs).length ≤ i) : place marker segs i = none := by
  have happend := @place_append_right _ _ marker i segs [] h
  rw [append_nil] at happend
  exact happend

theorem place_lt {segs : List (Seg α κ)} {p : ℕ} (h : place marker segs i = some p) :
    p < (shown marker segs).length := by
  induction segs generalizing i p with
  | nil => cases h
  | cons s segs ih =>
    rw [shown_cons, length_append]
    cases s with
    | keep a =>
      cases i with
      | zero =>
        cases h
        exact Nat.lt_add_right _ Nat.zero_lt_one
      | succ i =>
        obtain ⟨q, hq, rfl⟩ := Option.map_eq_some_iff.1 h
        exact Nat.add_lt_add_left (ih hq) 1
    | mask hidden kind =>
      rw [place] at h
      split at h
      · cases h
      · obtain ⟨q, hq, rfl⟩ := Option.map_eq_some_iff.1 h
        exact Nat.add_lt_add_left (ih hq) _

theorem place_absorb (hord : InOrder last len hs) (h : absorb marker last segs hs = some done)
    (hi : i < (orig segs).length) :
    place marker done i = none ↔ ∀ p, place marker segs i = some p → ∃ x ∈ hs, x.Has (last + p) := by
  induction hs generalizing last segs done i with
  | nil =>
    rw [Option.some_inj.1 h]
    constructor
    · intro hnone p hp
      rw [hnone] at hp
      cases hp
    · intro hall
      cases hp : place marker done i with
      | none => rfl
      | some p =>
        have hseg := Option.some_inj.1 h
        obtain ⟨x, hx, -⟩ := hall p (hseg ▸ hp)
        cases hx
  | cons x hs ih =>
    obtain ⟨before, under, after, done', rfl, hbefore, hunder, hdone', rfl⟩ := absorb_cons h
    obtain ⟨hlast, hstop, hrest⟩ := hord
    rw [orig_append, orig_append, length_append, length_append] at hi
    by_cases h₁ : i < (orig before).length
    · -- before the range
      rw [place_append_left h₁, place_append_left h₁]
      constructor
      · intro hnone p hp
        rw [hnone] at hp
        cases hp
      · intro hall
        cases hp : place marker before i with
        | none => rfl
        | some p =>
          exfalso
          have hp' := place_lt hp
          obtain ⟨y, hy, hle, hlt⟩ := hall p hp
          rcases mem_cons.1 hy with rfl | hy
          · omega
          · have := hrest.le_start hy
            omega
    · have h₁' : (orig before).length ≤ i := Nat.le_of_not_lt h₁
      rw [place_append_right h₁', place_append_right h₁']
      by_cases h₂ : i - (orig before).length < (orig under).length
      · -- under the range
        rw [place_append_left h₂, place, if_pos h₂]
        refine ⟨fun _ p hp => ?_, fun _ => rfl⟩
        obtain ⟨q, hq, rfl⟩ := Option.map_eq_some_iff.1 hp
        have hq' := place_lt hq
        refine ⟨x, mem_cons_self, ?_⟩
        constructor <;> omega
      · -- behind it
        have h₂' : (orig under).length ≤ i - (orig before).length := Nat.le_of_not_lt h₂
        rw [place_append_right h₂', place, if_neg h₂]
        have hi' : i - (orig before).length - (orig under).length < (orig after).length := by omega
        have hih := ih hrest hdone' hi'
        rw [Option.map_eq_none_iff, Option.map_eq_none_iff, hih]
        constructor
        · intro hall p hp
          obtain ⟨r, hr, rfl⟩ := Option.map_eq_some_iff.1 hp
          obtain ⟨q, hq, rfl⟩ := Option.map_eq_some_iff.1 hr
          obtain ⟨y, hy, hhas⟩ := hall q hq
          refine ⟨y, mem_cons_of_mem _ hy, ?_⟩
          have hplace : last + ((shown marker before).length + ((shown marker under).length + q)) =
              x.stop + q := by omega
          rw [hplace]
          exact hhas
        · intro hall q hq
          obtain ⟨y, hy, hle, hlt⟩ := hall _ (Option.map_eq_some_iff.2 ⟨_, Option.map_eq_some_iff.2 ⟨q, hq, rfl⟩, rfl⟩)
          rcases mem_cons.1 hy with rfl | hy
          · omega
          · exact ⟨y, hy, by omega, by omega⟩

end Masking
