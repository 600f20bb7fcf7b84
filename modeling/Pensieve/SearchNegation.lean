/-
**Negation and quotes of the search bar.**

A word of a search string may begin with a minus, which negates the clause that stands behind it,
and may be quoted, which makes a substring of it.
-/

import Pensieve.SearchGrammar

namespace Discover

open List

/-! ### Filters -/

/-- A truth value of SQL; `none` is unknown. -/
abbrev Truth := Option Bool

def Truth.not (t : Truth) : Truth := Option.map Bool.not t

def Truth.or : Truth → Truth → Truth
  | some true, _ => some true
  | _, some true => some true
  | some false, some false => some false
  | _, _ => none

inductive Cell where
  | text (value : Option Text)
  | number (value : Option ℚ)

structure Row where
  columns : List Text
  cell : Text → Cell

/-- `str::parse::<f64>`, and whether a string contains another. -/
structure FilterLib where
  parseF64 : Text → Option ℚ
  contains : Text → Text → Bool

def CmpOp.holds : CmpOp → ℚ → ℚ → Bool
  | .gt, x, y => y < x
  | .ge, x, y => y ≤ x
  | .lt, x, y => x < y
  | .le, x, y => x ≤ y

namespace Clause

variable (lib : FilterLib) (row : Row)

/-- `column == "value"`. -/
def equals (field value : Text) : Truth :=
  match row.cell field with
  | .text s => s.map fun s => s = value
  | .number q => q.bind fun q => (lib.parseF64 value).map fun x => q = x

def filter : Clause Text → Truth
  | .substring value =>
    let parts := row.columns.filterMap fun column => match row.cell column with
      | .text s => some (s.map fun s => lib.contains s value)
      | .number _ => none
    -- without a string column the clause is dropped
    if parts.isEmpty then some true else parts.foldl Truth.or (some false)
  | .eq field value => equals lib row field value
  | .neq field value => (equals lib row field value).not
  | .cmp field op value =>
    match row.cell field with
    | .text _ => some true
    | .number q =>
      match lib.parseF64 value with
      | none => some true
      | some x => q.map fun q => op.holds q x
  | .exists_ field =>
    match row.cell field with
    | .text s => some s.isSome
    | .number q => some q.isSome

def Complements (c c' : Clause Text) : Prop := ∀ row, c.filter lib row = (c'.filter lib row).not

end Clause

/-- **Negation is kept**: a word that begins with a minus has a clause, and it filters the complement of what the word
without the minus does. -/
def NegationKept (lib : FilterLib) (s : Text) (cs : List (Clause Text)) : Prop :=
  ∀ w ∈ words isWhitespace s, negated w = true →
    ∃ c ∈ cs, ∃ c', evalWord w = .ok (some c) ∧ evalWord w.tail = .ok (some c') ∧ c.Complements lib c'

/-- **Quotes are kept**: a word that is one quoted text is a substring clause with that text. -/
def QuotesKept (s : Text) (cs : List (Clause Text)) : Prop :=
  ∀ inner, '"' ∉ inner → '"' :: (inner ++ ['"']) ∈ words isWhitespace s →
    .substring inner ∈ cs ∧ evalWord ('"' :: (inner ++ ['"'])) = .ok (some (.substring inner))

/-! ### Tokens with a field -/

def special : Text → Option (Text → Clause Text)
  | ['*'] => some .exists_
  | '>' :: '=' :: rest => some fun field => .cmp field .ge rest
  | '<' :: '=' :: rest => some fun field => .cmp field .le rest
  | '>' :: rest => some fun field => .cmp field .gt rest
  | '<' :: rest => some fun field => .cmp field .lt rest
  | _ => none

variable {value : Text}

theorem tokenToClause_splitField {token field : Text} (h : splitField token = some (field, value))
    (neg : Bool) :
    tokenToClause token neg = .ok (match special value with
      | some make => make field
      | none => if neg then .neq field value else .eq field value) := by
  unfold tokenToClause special
  rw [h]
  dsimp only
  split <;> simp_all

theorem special_cases {make : Text → Clause Text} (h : special value = some make) :
    make = .exists_ ∨ ∃ op rest, make = fun field => .cmp field op rest := by
  unfold special at h
  split at h
  case h_6 => cases h
  case h_1 =>
      cases h
      exact .inl rfl
  all_goals
    cases h
    exact .inr ⟨_, _, rfl⟩

variable {lib : FilterLib}

theorem not_complements {c c' : Clause Text} (row : Row) {b : Bool} (h : c.filter lib row = some b)
    (h' : c'.filter lib row = some b) : ¬c.Complements lib c' := by
  intro hcomplement
  have hrow := hcomplement row
  rw [h, h'] at hrow
  cases b <;> cases hrow

def constant (cell : Cell) : Row := ⟨[], fun _ => cell⟩

theorem not_complements_special {make : Text → Clause Text} (h : special value = some make)
    (field field' : Text) : ¬(make field).Complements lib (make field') := by
  rcases special_cases h with rfl | ⟨op, rest, rfl⟩
  · exact not_complements (constant (.number (some 0))) (b := true) rfl rfl
  · cases hparse : lib.parseF64 rest with
    | none =>
      have hfilter : ∀ f, (Clause.cmp f op rest).filter lib (constant (.number (some 0))) = some true := by
        intro f
        simp only [Clause.filter, constant, hparse]
      exact not_complements _ (hfilter field) (hfilter field')
    | some x =>
      have hfilter : ∀ f, (Clause.cmp f op rest).filter lib (constant (.number (some 0))) = some (op.holds 0 x) := by
        intro f
        simp only [Clause.filter, constant, hparse, Option.map_some]
      exact not_complements _ (hfilter field) (hfilter field')

theorem not_complements_neq (field field' value : Text) :
    ¬(Clause.neq field value).Complements lib (.neq field' value) := by
  have hfilter : ∀ f, (Clause.neq f value).filter lib (constant (.text (some value))) = some false := by
    intro f
    simp [Clause.filter, Clause.equals, constant, Truth.not]
  exact not_complements _ (hfilter field) (hfilter field')

theorem complements_neq_eq (field value : Text) : (Clause.neq field value).Complements lib (.eq field value) :=
  fun _ => rfl

theorem splitField_minus {token field : Text} (h : splitField token = some (field, value)) :
    splitField ('-' :: token) = some ('-' :: field, value) := by
  obtain ⟨rfl, hcolon, -⟩ := splitField_eq h
  have hspan : ('-' :: (field ++ ':' :: value)).span (· ≠ ':') = ('-' :: field, ':' :: value) := by
    rw [span_eq_takeWhile_dropWhile]
    have hall : ∀ c ∈ '-' :: field, decide (c ≠ ':') = true := by
      intro c hc
      rcases mem_cons.1 hc with rfl | hc
      · decide
      · exact decide_eq_true fun heq => hcolon (heq ▸ hc)
    rw [← cons_append, takeWhile_append_of_pos hall, dropWhile_append_of_pos hall,
      takeWhile_cons_of_neg (by simp), dropWhile_cons_of_neg (by simp), append_nil]
  unfold splitField
  rw [hspan]
  rfl

/-! ### Words -/

variable {w : Text}

theorem body_eq_of_negated (h : negated w = true) : body w = stripQuotes w.tail := by
  unfold body
  rw [if_pos h]

theorem body_eq_of_not_negated (h : negated w = false) : body w = stripQuotes w := by
  unfold body
  rw [h]
  rfl

theorem balanced_tail (h : negated w = true) : Balanced w.tail ↔ Balanced w := by
  obtain ⟨rest, rfl⟩ : ∃ rest, w = '-' :: rest := by
    cases w with
    | nil => cases h
    | cons c rest => exact ⟨rest, congrArg (· :: rest) (by simpa [negated] using h)⟩
  unfold Balanced
  rw [tail_cons, count_cons_of_ne (by decide)]

theorem evalWord_negated {o : Option (Clause Text)} (h : evalWord w = .ok o) (hneg : negated w = true) :
    Balanced w ∧ ∃ field value, splitField (body w) = some (field, value) := by
  by_cases hmalformed : Malformed w
  · obtain ⟨e, he⟩ := evalWord_error_iff.2 hmalformed
    rw [h] at he
    cases he
  · unfold Malformed HasField at hmalformed
    simp only [not_or, not_not, not_and] at hmalformed
    obtain ⟨⟨field, value⟩, hfield⟩ := Option.isSome_iff_exists.1 (hmalformed.2 hneg)
    exact ⟨hmalformed.1, field, value, hfield⟩

theorem evalWord_of_splitField {field : Text} (hbal : Balanced w)
    (h : splitField (body w) = some (field, value)) :
    evalWord w = .ok (some (match special value with
      | some make => make field
      | none => if negated w then .neq field value else .eq field value)) := by
  have hne : (body w).isEmpty = false := by
    rw [(splitField_eq h).1]
    cases field <;> rfl
  unfold evalWord
  rw [if_neg (not_not.2 hbal), hne, if_neg Bool.false_ne_true, tokenToClause_splitField h]
  rfl

def KeepsMinus (w : Text) : Prop :=
  negated w.tail = false ∧ ∃ field value, splitField (body w) = some (field, value) ∧ special value = none

theorem complement_iff {o : Option (Clause Text)} (h : evalWord w = .ok o) (hneg : negated w = true) :
    (∃ c c', evalWord w = .ok (some c) ∧ evalWord w.tail = .ok (some c') ∧ c.Complements lib c') ↔ KeepsMinus w := by
  obtain ⟨hbal, field, value, hfield⟩ := evalWord_negated h hneg
  have hword := evalWord_of_splitField hbal hfield
  rw [hneg] at hword
  constructor
  · rintro ⟨c, c', hc, hc', hcomplement⟩
    rw [hword] at hc
    cases hc
    by_cases htail : negated w.tail = true
    · -- the second minus is part of the field of one clause, and negates the other
      exfalso
      obtain ⟨hbal', field', value', hfield'⟩ := evalWord_negated hc' htail
      have hminus : body w = '-' :: body w.tail := by
        obtain ⟨rest, hrest⟩ : ∃ rest, w.tail = '-' :: rest := by
          cases hcons : w.tail with
          | nil =>
            rw [hcons] at htail
            cases htail
          | cons c rest =>
            rw [hcons] at htail
            exact ⟨rest, congrArg (· :: rest) (by simpa [negated] using htail)⟩
        rw [body_eq_of_negated hneg, body_eq_of_negated htail, hrest]
        exact filter_cons_of_pos (by decide)
      rw [hminus, splitField_minus hfield'] at hfield
      cases hfield
      rw [evalWord_of_splitField hbal' hfield', htail] at hc'
      cases hc'
      cases hspecial : special value with
      | some make =>
        rw [hspecial] at hcomplement
        exact not_complements_special hspecial _ _ hcomplement
      | none =>
        rw [hspecial] at hcomplement
        exact not_complements_neq _ _ _ hcomplement
    · have htail' : negated w.tail = false := by simpa using htail
      refine ⟨htail', field, value, hfield, ?_⟩
      have hbody : body w.tail = body w := by
        rw [body_eq_of_negated hneg, body_eq_of_not_negated htail']
      rw [evalWord_of_splitField ((balanced_tail hneg).2 hbal) (hbody ▸ hfield), htail'] at hc'
      cases hc'
      cases hspecial : special value with
      | none => rfl
      | some make =>
        rw [hspecial] at hcomplement
        exact absurd hcomplement (not_complements_special hspecial _ _)
  · rintro ⟨htail, field', value', hfield', hspecial⟩
    have hbody : body w.tail = body w := by
      rw [body_eq_of_negated hneg, body_eq_of_not_negated htail]
    have htailword := evalWord_of_splitField ((balanced_tail hneg).2 hbal) (hbody ▸ hfield')
    rw [htail, hspecial] at htailword
    rw [hfield] at hfield'
    cases hfield'
    rw [hspecial] at hword
    exact ⟨_, _, hword, htailword, complements_neq_eq field value⟩

theorem quoted_iff {inner : Text} (hinner : '"' ∉ inner) :
    evalWord ('"' :: (inner ++ ['"'])) = .ok (some (.substring inner)) ↔ inner ≠ [] ∧ ¬HasField inner := by
  have hbal : Balanced ('"' :: (inner ++ ['"'])) := by
    unfold Balanced
    rw [count_cons_self, count_append, count_eq_zero.2 hinner]
    decide
  have hbody : body ('"' :: (inner ++ ['"'])) = inner := by
    have hneg : negated ('"' :: (inner ++ ['"'])) = false := rfl
    rw [body_eq_of_not_negated hneg]
    unfold stripQuotes
    rw [filter_cons_of_neg (by decide), filter_append, filter_eq_self.2 fun c hc => ?_]
    · exact append_nil inner
    · exact decide_eq_true fun heq => hinner (heq ▸ hc)
  have hneg : negated ('"' :: (inner ++ ['"'])) = false := rfl
  by_cases hempty : inner = []
  · subst hempty
    exact ⟨nofun, fun h => absurd rfl h.1⟩
  · cases hfield : splitField inner with
    | some p =>
      obtain ⟨field, value⟩ := p
      have hword := evalWord_of_splitField hbal (hbody.symm ▸ hfield)
      rw [hneg] at hword
      constructor
      · intro h
        rw [hword] at h
        cases hspecial : special value with
        | none =>
          rw [hspecial] at h
          cases h
        | some make =>
          rw [hspecial] at h
          rcases special_cases hspecial with rfl | ⟨op, rest, rfl⟩ <;> cases h
      · rintro ⟨-, hnone⟩
        exact absurd (by rw [HasField, hfield]; rfl) hnone
    | none =>
      refine ⟨fun _ => ⟨hempty, by simp [HasField, hfield]⟩, fun _ => ?_⟩
      unfold evalWord
      rw [if_neg (not_not.2 hbal), hbody, hneg, if_neg (by simpa using hempty)]
      unfold tokenToClause
      rw [hfield]
      rfl

theorem evalWord_of_evalWords {ws : List Text} {cs : List (Clause Text)} (h : evalWords ws = .ok cs) :
    ∀ w ∈ ws, ∃ o, evalWord w = .ok o ∧ ∀ c, o = some c → c ∈ cs := by
  induction ws generalizing cs with
  | nil => exact fun w hw => absurd hw not_mem_nil
  | cons w ws ih =>
    rw [evalWords] at h
    intro v hv
    cases hw : evalWord w with
    | error e =>
      rw [hw] at h
      cases h
    | ok o =>
      rw [hw] at h
      cases o with
      | none =>
        rcases mem_cons.1 hv with rfl | hv
        · exact ⟨none, hw, fun c hc => by cases hc⟩
        · exact ih h v hv
      | some c =>
        cases hrest : evalWords ws with
        | error e =>
          rw [hrest] at h
          cases h
        | ok rest =>
          rw [hrest] at h
          cases h
          rcases mem_cons.1 hv with rfl | hv
          · refine ⟨some c, hw, fun c' hc' => ?_⟩
            cases hc'
            exact mem_cons_self
          · obtain ⟨o', ho', hmem⟩ := ih hrest v hv
            exact ⟨o', ho', fun c' hc' => mem_cons_of_mem _ (hmem c' hc')⟩

/-- **The search strings whose negations and quotes are kept**: of the ones that are accepted, those where every minus
stands alone before an equality, and every quoted text is one that has no field. -/
theorem negation_and_quotes_kept_iff (lib : FilterLib) {s : Text} {cs : List (Clause Text)} (h : parse s = .ok cs) :
    NegationKept lib s cs ∧ QuotesKept s cs ↔ (∀ w ∈ words isWhitespace s, negated w = true → KeepsMinus w) ∧
        ∀ inner, '"' ∉ inner → '"' :: (inner ++ ['"']) ∈ words isWhitespace s → inner ≠ [] ∧ ¬HasField inner := by
  have hwords := evalWord_of_evalWords ((parse_eq_evalWords s).symm.trans h)
  refine and_congr ⟨fun hkept w hw hneg => ?_, fun hkept w hw hneg => ?_⟩
    ⟨fun hkept inner hinner hw => ?_, fun hkept inner hinner hw => ?_⟩
  · obtain ⟨o, ho, -⟩ := hwords w hw
    obtain ⟨c, -, c', hc, hc', hcomplement⟩ := hkept w hw hneg
    exact (complement_iff ho hneg).1 ⟨c, c', hc, hc', hcomplement⟩
  · obtain ⟨o, ho, hmem⟩ := hwords w hw
    obtain ⟨c, c', hc, hc', (hcomplement : c.Complements lib c')⟩ := (complement_iff ho hneg).2 (hkept w hw hneg)
    refine ⟨c, hmem c ?_, c', hc, hc', hcomplement⟩
    rw [ho] at hc
    exact Except.ok.inj hc
  · exact (quoted_iff hinner).1 (hkept inner hinner hw).2
  · obtain ⟨o, ho, hmem⟩ := hwords _ hw
    have hquoted := (quoted_iff hinner).2 (hkept inner hinner hw)
    refine ⟨hmem _ ?_, hquoted⟩
    rw [ho] at hquoted
    exact Except.ok.inj hquoted

def plainLib : FilterLib := ⟨fun _ => some 500, fun s value => decide (value <:+: s)⟩

theorem negation_and_quotes_kept_plain :
    NegationKept plainLib "-level:info \"time out\"".toList [.neq "level".toList "info".toList, .substring "time out".toList] ∧
      QuotesKept "-level:info \"time out\"".toList
        [.neq "level".toList "info".toList, .substring "time out".toList] := by
  have hparse : parse "-level:info \"time out\"".toList =
      .ok [.neq "level".toList "info".toList, .substring "time out".toList] := by
    decide +kernel
  have hwords : words isWhitespace "-level:info \"time out\"".toList = ["-level:info".toList, "\"time out\"".toList] := by
    decide +kernel
  refine (negation_and_quotes_kept_iff plainLib hparse).2 ⟨fun w hw hneg => ?_, fun inner hinner hw => ?_⟩
  · rw [hwords] at hw
    simp only [mem_cons, not_mem_nil, or_false] at hw
    rcases hw with rfl | rfl
    · exact ⟨by decide +kernel, "level".toList, "info".toList, by decide +kernel, by decide +kernel⟩
    · exact absurd hneg (by decide +kernel)
  · have hquoted : "\"time out\"".toList = '"' :: ("time out".toList ++ ['"']) := by
      decide +kernel
    rw [hwords, hquoted] at hw
    simp only [mem_cons, not_mem_nil, or_false] at hw
    rcases hw with hw | hw
    · have hhead : some '"' = "-level:info".toList.head? := congrArg List.head? hw
      exact absurd hhead (by decide +kernel)
    · have heq : inner = "time out".toList := append_cancel_right (List.cons.inj hw).2
      rw [heq]
      exact ⟨by decide +kernel, by unfold HasField; decide +kernel⟩

/-- `-status:>500` filters the statuses above 500, and `"10:30"` is a field with a value. -/
theorem negation_lost : (∃ cs, parse "-status:>500".toList = .ok cs ∧ ¬NegationKept plainLib "-status:>500".toList cs) ∧
      ∃ cs, parse "\"10:30\"".toList = .ok cs ∧ ¬QuotesKept "\"10:30\"".toList cs := by
  constructor
  · refine ⟨[.cmp "status".toList .gt "500".toList], by decide +kernel, fun hkept => ?_⟩
    have hword : "-status:>500".toList ∈ words isWhitespace "-status:>500".toList := by
      decide +kernel
    have heval : evalWord "-status:>500".toList = .ok (some (.cmp "status".toList .gt "500".toList)) := by
      decide +kernel
    have hneg : negated "-status:>500".toList = true := by
      decide +kernel
    obtain ⟨c, -, c', hc, hc', hcomplement⟩ := hkept _ hword hneg
    obtain ⟨-, field, value, hfield, hspecial⟩ := (complement_iff heval hneg).1 ⟨c, c', hc, hc', hcomplement⟩
    have hsplit : splitField (body "-status:>500".toList) = some ("status".toList, ">500".toList) := by
      decide +kernel
    rw [hsplit] at hfield
    cases hfield
    cases hspecial
  · refine ⟨[.eq "10".toList "30".toList], by decide +kernel, fun hkept => ?_⟩
    have hmem := (hkept "10:30".toList (by decide +kernel) (by decide +kernel)).1
    revert hmem
    decide +kernel

end Discover
