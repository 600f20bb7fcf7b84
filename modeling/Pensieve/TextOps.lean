/-
**The text operators of KQL.**

`col contains s`, `col startswith s` and `col endswith s` are emitted as `col LIKE p`, where the
pattern `p` is the text of the right-hand side between percent signs.
-/

import Pensieve.ExprLowering

namespace TextOps

open List
open KqlLexer SqlValue SqlReader KqlExpr StringLiterals ExprLowering

variable {F : Type}

/-! ### Operators and right-hand sides -/

inductive TextOp where
  | contains | startswith | endswith

def TextOp.keyword : TextOp → Text
  | contains => "contains".toList
  | startswith => "startswith".toList
  | endswith => "endswith".toList

def TextOp.Holds (s v : Text) : TextOp → Prop
  | contains => s <:+: v
  | startswith => s <+: v
  | endswith => s <:+ v

def TextOp.pattern (s : Text) : TextOp → Text
  | contains => '%' :: s ++ ['%']
  | startswith => s ++ ['%']
  | endswith => '%' :: s

inductive Rhs where
  | literal (s : Text)
  | column (name : Text)

def Rhs.token : Rhs → Token F
  | literal s => .str s
  | column name => .ident name

def Rhs.value (row : Text → Val F) : Rhs → Val F
  | literal s => .str s
  | column name => row name

def IsName (name : Text) : Prop := name ∉ ["true".toList, "false".toList, "null".toList]

instance (name : Text) : Decidable (IsName name) :=
  inferInstanceAs (Decidable (name ∉ ["true".toList, "false".toList, "null".toList]))

def Rhs.IsOperand : Rhs → Prop
  | literal _ => True
  | column name => IsName name

/-- **The text matches literally**: in every row in which both sides are strings, it is true exactly
when the operator holds of them. -/
def MatchesLiterally (R : Reals F) (text : Text) (col : Text) (op : TextOp) (rhs : Rhs) : Prop :=
  ∃ q : SqlExpr F .scalar, read R.parse text = some q ∧
    ∀ (E : Engine F) (row : Text → Val F) (v s : Text), row col = .str v →
      rhs.value row = .str s → (truth (q.eval E row : Val F) = some true ↔ op.Holds s v)

/-! ### The emitted text -/

theorem undouble_of_ne {c : Char} (h : c ≠ '\'') (cs : Text) : undouble (c :: cs) = c :: undouble cs := by
  cases cs with
  | nil => rfl
  | cons d cs => simp [undouble, h]

theorem undouble_doubled (s : Text) : undouble (SqlText.doubled '\'' s) = s := by
  induction s with
  | nil => rfl
  | cons c s ih =>
    unfold SqlText.doubled at ih ⊢
    rw [flatMap_cons]
    by_cases hc : c = '\''
    · subst hc
      rw [if_pos rfl, cons_append, singleton_append, undouble.eq_def]
      simp [ih]
    · rw [if_neg hc, singleton_append, undouble_of_ne hc, ih]

theorem strip_sqlLiteral (s : Text) : stripOuterQuotes (sqlLiteral s) = s := by
  have hlast : (quote s).getLast? = some '\'' := by
    rw [quote, ← cons_append, getLast?_concat]
  have hinner : ((quote s).drop 1).dropLast = SqlText.doubled '\'' s := by
    rw [quote, drop_one, tail_cons, dropLast_concat]
  unfold stripOuterQuotes
  rw [sqlLiteral, hlast, hinner, undouble_doubled]
  simp [quote]

theorem strip_quoteIdent (name : Text) : stripOuterQuotes (quoteIdent name) = quoteIdent name := by
  have hhead : (quoteIdent name).head? ≠ some '\'' := by
    unfold quoteIdent
    split
    · rename_i h
      obtain ⟨c, cs, rfl, hc, -⟩ := unquoted_word h
      rintro ⟨⟩
      exact absurd hc (by decide)
    · simp
  unfold stripOuterQuotes
  simp [hhead]

def Rhs.inPattern : Rhs → Text
  | literal s => s
  | column name => quoteIdent name

def emitted (col : Text) (op : TextOp) (rhs : Rhs) : Text :=
  binary (quoteIdent col) "LIKE".toList (quote (op.pattern rhs.inPattern))

theorem nameText_of_isName {name : Text} (h : IsName name) : nameText name = quoteIdent name := by
  simp only [IsName, mem_cons, not_mem_nil, or_false, not_or] at h
  rw [nameText, if_neg h.1, if_neg h.2.1, if_neg h.2.2]

def Rhs.text : Rhs → Text
  | literal s => sqlLiteral s
  | column name => nameText name

theorem strip_text {rhs : Rhs} (h : rhs.IsOperand) : stripOuterQuotes rhs.text = rhs.inPattern := by
  cases rhs with
  | literal s => exact strip_sqlLiteral s
  | column name =>
    rw [Rhs.text, nameText_of_isName h, strip_quoteIdent]
    rfl

def likeText (op : TextOp) (rhs : Rhs) : Text :=
  match op with
  | .contains => addLikeBoth rhs.text
  | .startswith => addLikeRight rhs.text
  | .endswith => addLikeLeft rhs.text

theorem parseExpr_emitted (display : F → Text) {col : Text} {op : TextOp} {rhs : Rhs}
    (hcol : IsName col) (hnot : col ≠ "not".toList) (hrhs : rhs.IsOperand) :
    parseExpr display [.ident col, .ident op.keyword, rhs.token] = .ok (emitted col op rhs, []) := by
  have hcompare : parseComparison display (parseDepth display 3)
      [.ident col, .ident op.keyword, rhs.token] = .ok (binary (nameText col) "LIKE".toList (likeText op rhs), []) := by
    cases op <;> cases rhs <;> rfl
  have hlike : likeText op rhs = quote (op.pattern rhs.inPattern) := by
    rw [← strip_text hrhs]
    cases op <;> rfl
  have hparse : parseNot display (parseDepth display 3)
      [.ident col, .ident op.keyword, rhs.token] = .ok (emitted col op rhs, []) := by
    rw [parseNot, if_neg hnot, hcompare, hlike, nameText_of_isName hcol, emitted]
  have hand : parseAnd display (parseDepth display 3)
      [.ident col, .ident op.keyword, rhs.token] = .ok (emitted col op rhs, []) := by
    rw [parseAnd, leftAssoc, hparse]
    rfl
  change parseOr display (parseDepth display 3) [.ident col, .ident op.keyword, rhs.token] = _
  rw [parseOr, leftAssoc, hand]
  rfl

theorem read_emitted (R : Reals F) (col : Text) (op : TextOp) (rhs : Rhs) : read R.parse (emitted col op rhs) =
      some (.like (.col (colRead col)) (.str (op.pattern rhs.inPattern))) := by
  have hlike : SqlText.lexer.StandsBefore SqlText.Ends "LIKE".toList [.word "LIKE".toList] :=
    SqlText.stands_word rfl (all_eq_true.1 rfl)
  have hpattern := (SqlText.stands_string (op.pattern rhs.inPattern)).mono
    fun rest hrest => SqlText.noQuote_of_ends hrest (.inl rfl)
  have hsplit := stands_paren (stands_spaced (stands_col col) (stands_spaced hlike hpattern))
  have hcol : Reads R.parse 0 _ _ := reads_col col
  have hstr : Reads R.parse 0 [.str (op.pattern rhs.inPattern)] _ := fun n rest _ => rfl
  have hjoint : joint (.word "LIKE".toList) = some .like := rfl
  refine read_of_reads hsplit.before (hcol.like hjoint hstr).paren ?_
  simp [parenTokens]

/-! ### Patterns -/

/-- A text that a pattern matches which has wildcards: the percent signs left out, and a letter for
each underscore. -/
def tamed (s : Text) : Text := (s.filter (· ≠ '%')).map fun c => if c = '_' then 'x' else c

theorem likeMatches_tamed (s : Text) : likeMatches s (tamed s) = true := by
  induction s with
  | nil => rfl
  | cons c s ih =>
    by_cases hc : c = '%'
    · subst hc
      exact likeMatches_percent.mpr ⟨[], tamed s, rfl, ih⟩
    · have htamed : tamed (c :: s) = (if c = '_' then 'x' else c) :: tamed s := by
        simp [tamed, hc]
      refine (likeMatches_cons hc).mpr ⟨_, _, htamed, ?_, ih⟩
      by_cases hu : c = '_'
      · exact .inl hu
      · exact .inr (if_neg hu)

theorem ne_of_mem_tamed {s : Text} {c : Char} (h : c ∈ tamed s) : c ≠ '%' ∧ c ≠ '_' := by
  obtain ⟨d, hd, rfl⟩ := mem_map.mp h
  have hpercent : d ≠ '%' := by simpa using (mem_filter.mp hd).2
  split
  · decide
  · rename_i hu
    exact ⟨hpercent, hu⟩

theorem TextOp.holds_self (op : TextOp) (s : Text) : op.Holds s s := by
  cases op with
  | contains => exact infix_rfl
  | startswith => exact prefix_rfl
  | endswith => exact suffix_rfl

theorem TextOp.Holds.subset {op : TextOp} {s v : Text} (h : op.Holds s v) : s ⊆ v := by
  cases op with
  | contains => exact List.IsInfix.subset h
  | startswith => exact List.IsPrefix.subset h
  | endswith => exact List.IsSuffix.subset h

theorem likeMatches_pattern {op : TextOp} {s v : Text} :
    likeMatches (op.pattern s) v = true ↔ ∃ w, likeMatches s w = true ∧ op.Holds w v := by
  have hpercent : ∀ t, likeMatches ['%'] t = true := fun t =>
    likeMatches_percent.mpr ⟨t, [], (append_nil t).symm, rfl⟩
  cases op with
  | contains =>
    simp only [TextOp.pattern, TextOp.Holds, cons_append, likeMatches_percent, likeMatches_append]
    constructor
    · rintro ⟨u, _, rfl, w, t, rfl, hw, -⟩
      exact ⟨w, hw, u, t, append_assoc u w t⟩
    · rintro ⟨w, hw, u, t, rfl⟩
      exact ⟨u, w ++ t, append_assoc u w t, w, t, rfl, hw, t, [], (append_nil t).symm, rfl⟩
  | startswith =>
    simp only [TextOp.pattern, TextOp.Holds, likeMatches_append]
    constructor
    · rintro ⟨w, t, rfl, hw, -⟩
      exact ⟨w, hw, t, rfl⟩
    · rintro ⟨w, hw, t, rfl⟩
      exact ⟨w, t, rfl, hw, hpercent t⟩
  | endswith =>
    simp only [TextOp.pattern, TextOp.Holds, likeMatches_percent]
    constructor
    · rintro ⟨u, w, rfl, hw⟩
      exact ⟨w, hw, u, rfl⟩
    · rintro ⟨w, hw, u, rfl⟩
      exact ⟨u, w, rfl, hw⟩

/-! ### What matches literally -/

/-- The condition: the column is read as itself, and the right-hand side is a literal without
wildcards. -/
def Literal (col : Text) (rhs : Rhs) : Prop :=
  (unquoted col = true → ∀ x ∈ col, x.isUpper = false) ∧ ∃ s, rhs = .literal s ∧ '%' ∉ s ∧ '_' ∉ s

theorem truth_like_iff {a : Val F} {pattern : Text} :
    truth (like a (.str pattern)) = some true ↔ ∃ v, a = .str v ∧ likeMatches pattern v = true := by
  cases a with
  | str v | null | bool | int | real => simp [like, truth]

theorem matchesLiterally_iff_like (R : Reals F) (col : Text) (op : TextOp) (rhs : Rhs) :
    MatchesLiterally R (emitted col op rhs) col op rhs ↔
      ∀ (row : Text → Val F) (v s : Text), row col = .str v → rhs.value row = .str s →
        ((∃ w, row (colRead col) = .str w ∧ likeMatches (op.pattern rhs.inPattern) w = true) ↔ op.Holds s v) := by
  constructor
  · rintro ⟨q, hq, h⟩ row v s hv hs
    rw [read_emitted] at hq
    obtain rfl := Option.some.inj hq
    rw [← h ⟨fun _ _ _ => .null, fun _ => .null, fun _ _ _ => false⟩ row v s hv hs]
    exact truth_like_iff.symm
  · intro h
    exact ⟨_, read_emitted R col op rhs, fun E row v s hv hs =>
      truth_like_iff.trans (h row v s hv hs)⟩

theorem not_likeMatches_quoteIdent (name : Text) : likeMatches (quoteIdent name) [] ≠ true := by
  intro h
  have hall := eq_percent_of_likeMatches_nil h
  unfold quoteIdent at hall
  split at hall
  · rename_i hname
    obtain ⟨c, cs, rfl, hc, -⟩ := unquoted_word hname
    obtain rfl := hall c (mem_cons_self ..)
    exact absurd hc (by decide)
  · exact absurd (hall '"' (mem_cons_self ..)) (by decide)

theorem matchesLiterally_emitted_iff (R : Reals F) (col : Text) (op : TextOp) (rhs : Rhs) :
    MatchesLiterally R (emitted col op rhs) col op rhs ↔ Literal col rhs := by
  rw [matchesLiterally_iff_like]
  constructor
  · intro h
    cases rhs with
    | column name =>
      -- every column holds the empty string
      have hempty := h (fun _ => .str []) [] [] rfl rfl
      obtain ⟨w, hw, hmatch⟩ := hempty.mpr (op.holds_self [])
      obtain rfl : [] = w := Val.str.inj hw
      obtain ⟨w', hw', hholds⟩ := likeMatches_pattern.mp hmatch
      obtain rfl := eq_nil_of_subset_nil hholds.subset
      exact absurd hw' (not_likeMatches_quoteIdent name)
    | literal s =>
      refine ⟨?_, s, rfl, ?_⟩
      · -- the column holds the literal, and all others are null
        have hcol : colRead col = col := by
          by_contra hne
          have hself := h (fun c => if c = col then .str s else .null) s s (if_pos rfl) rfl
          obtain ⟨w, hw, -⟩ := hself.mpr (op.holds_self s)
          rw [if_neg hne] at hw
          cases hw
        exact hcol ▸ lower_colRead col
      · -- the column holds a text without wildcards that the pattern matches
        have htamed := h (fun _ => .str (tamed s)) (tamed s) s rfl rfl
        have hholds := htamed.mp ⟨tamed s, rfl,
          likeMatches_pattern.mpr ⟨tamed s, likeMatches_tamed s, op.holds_self _⟩⟩
        exact ⟨fun hmem => (ne_of_mem_tamed (hholds.subset hmem)).1 rfl,
          fun hmem => (ne_of_mem_tamed (hholds.subset hmem)).2 rfl⟩
  · rintro ⟨hlower, s, rfl, hpercent, hunderscore⟩ row v s' hv hs
    obtain rfl : s = s' := Val.str.inj hs
    rw [colRead_of_lower hlower, hv]
    constructor
    · rintro ⟨w, hw, hmatch⟩
      obtain rfl : v = w := Val.str.inj hw
      obtain ⟨w', hw', hholds⟩ := likeMatches_pattern.mp hmatch
      rwa [(likeMatches_literal hpercent hunderscore).mp hw'] at hholds
    · intro hholds
      exact ⟨v, rfl, likeMatches_pattern.mpr ⟨s, (likeMatches_literal hpercent hunderscore).mpr rfl, hholds⟩⟩

end TextOps
