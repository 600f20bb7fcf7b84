/-
**Values and operators of expressions.**

The values of a row, and what the operators do with them.  Truth has three values: a null, or a
value that is no truth value, is unknown.

Main results:

* `SqlValue.likeMatches_literal` — a pattern without wildcards matches itself alone.
-/

import Pensieve.LikePattern

namespace SqlValue

open List

variable {F : Type}

/-! ### Values -/

inductive Val (F : Type) where
  | null
  | bool (b : Bool)
  | int (i : ℤ)
  | real (f : F)
  | str (s : List Char)
  deriving DecidableEq

inductive BinOp where
  | or | and | eq | ne | lt | le | gt | ge | add | sub | mul | div | mod
  deriving DecidableEq

structure Engine (F : Type) where
  arith : BinOp → Val F → Val F → Val F
  negate : Val F → Val F
  compare : BinOp → Val F → Val F → Bool

/-- An expression stands for a value, or it is the list of an `IN`. -/
inductive Kind where
  | scalar
  | list

def Meaning (F : Type) : Kind → Type
  | .scalar => Val F
  | .list => List (Val F)

/-! ### Three values -/

def truth : Val F → Option Bool
  | .bool b => some b
  | _ => none

def ofTruth : Option Bool → Val F
  | some b => .bool b
  | none => .null

def or3 : Option Bool → Option Bool → Option Bool
  | some true, _ => some true
  | _, some true => some true
  | some false, some false => some false
  | _, _ => none

def and3 (a b : Option Bool) : Option Bool := (or3 (a.map not) (b.map not)).map not

def any3 (bs : List (Option Bool)) : Option Bool := bs.foldr or3 (some false)

/-! ### Operators -/

def strict (f : Val F → Val F → Val F) : Val F → Val F → Val F
  | .null, _ => .null
  | _, .null => .null
  | a, b => f a b

def BinOp.apply (E : Engine F) (op : BinOp) (a b : Val F) : Val F :=
  match op with
  | or => ofTruth (or3 (truth a) (truth b))
  | and => ofTruth (and3 (truth a) (truth b))
  | eq | ne | lt | le | gt | ge => strict (fun a b => .bool (E.compare op a b)) a b
  | add | sub | mul | div | mod => strict (E.arith op) a b

def negate (E : Engine F) : Val F → Val F
  | .null => .null
  | a => E.negate a

def negation (a : Val F) : Val F := ofTruth ((truth a).map not)

def member (E : Engine F) (a : Val F) (values : List (Val F)) : Val F :=
  ofTruth (any3 (values.map fun v => truth (BinOp.eq.apply E a v)))

/-! ### Patterns -/

def patternElem (c : Char) : Like.Elem Char :=
  if c = '%' then .many else if c = '_' then .one fun _ => true else .one fun d => d = c

def likeMatches (pattern s : List Char) : Bool := Like.likeMatches (pattern.map patternElem) s

variable {pattern t : List Char}

theorem likeMatches_percent :
    likeMatches ('%' :: pattern) t = true ↔ ∃ u v, t = u ++ v ∧ likeMatches pattern v = true :=
  Like.likeMatches_many_cons

theorem likeMatches_cons {c : Char} (h : c ≠ '%') : likeMatches (c :: pattern) t = true ↔
      ∃ d rest, t = d :: rest ∧ (c = '_' ∨ d = c) ∧ likeMatches pattern rest = true := by
  have hone : ∃ test, patternElem c = .one test ∧ ∀ d, test d = true ↔ c = '_' ∨ d = c := by
    by_cases hc : c = '_'
    · exact ⟨fun _ => true, by simp [patternElem, hc], fun d => by simp [hc]⟩
    · exact ⟨fun d => d = c, by simp [patternElem, h, hc], fun d => by simp [hc]⟩
  obtain ⟨test, helem, htest⟩ := hone
  unfold likeMatches
  rw [map_cons, helem, Like.likeMatches_one_cons]
  simp only [htest]

theorem likeMatches_append {p q : List Char} :
    likeMatches (p ++ q) t = true ↔ ∃ u v, t = u ++ v ∧ likeMatches p u = true ∧ likeMatches q v = true := by
  unfold likeMatches
  rw [map_append, Like.likeMatches_append]

theorem likeMatches_nil : likeMatches [] t = true ↔ t = [] := by
  simp [likeMatches, Like.likeMatches]

theorem likeMatches_literal {s : List Char} (h : '%' ∉ s) (h' : '_' ∉ s) : likeMatches s t = true ↔ t = s := by
  induction s generalizing t with
  | nil => exact likeMatches_nil
  | cons c s ih =>
    obtain ⟨hc, hs⟩ := ne_and_not_mem_of_not_mem_cons h
    obtain ⟨hc', hs'⟩ := ne_and_not_mem_of_not_mem_cons h'
    rw [likeMatches_cons hc.symm]
    constructor
    · rintro ⟨d, rest, rfl, hd, hrest⟩
      rw [hd.resolve_left hc'.symm, (ih hs hs').mp hrest]
    · rintro rfl
      exact ⟨c, s, rfl, .inr rfl, (ih hs hs').mpr rfl⟩

theorem eq_percent_of_likeMatches_nil (h : likeMatches pattern [] = true) : ∀ c ∈ pattern, c = '%' := by
  induction pattern with
  | nil => exact fun c hc => absurd hc not_mem_nil
  | cons c pattern ih =>
    by_cases hc : c = '%'
    · subst hc
      obtain ⟨u, v, huv, hv⟩ := likeMatches_percent.mp h
      obtain ⟨-, rfl⟩ := append_eq_nil_iff.mp huv.symm
      exact forall_mem_cons.mpr ⟨rfl, ih hv⟩
    · obtain ⟨d, rest, hnil, -⟩ := (likeMatches_cons hc).mp h
      cases hnil

def like : Val F → Val F → Val F
  | .str s, .str pattern => .bool (likeMatches pattern s)
  | _, _ => .null

def Digits (ds : List Char) : Prop := ds ≠ [] ∧ ∀ d ∈ ds, d.isDigit = true

/-- **How reals are read and displayed.**  A real is displayed as digits with a point among them, as
digits alone when it is whole, or as `inf`; what is displayed with a point is read back. -/
structure Reals (F : Type) where
  parse : List Char → Option F
  display : F → List Char
  shape : ∀ f, Digits (display f) ∨
    (∃ ds fs, Digits ds ∧ Digits fs ∧ display f = ds ++ '.' :: fs) ∨ display f = ['i', 'n', 'f']
  parse_display : ∀ f, '.' ∈ display f → parse (display f) = some f

end SqlValue
