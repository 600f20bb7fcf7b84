/-
**What SQL reads in the text of a KQL expression.**

The text that the KQL parser emits has every operation in parentheses, so that SQL reads it back
with the grouping it was made with, whatever the levels of precedence.
-/

import Pensieve.KqlGrammar
import Pensieve.SqlReader

/-! ### The meaning of an expression -/

namespace KqlExpr.Expr

open SqlValue

variable {F : Type}

def eval (E : Engine F) (row : Text → Val F) : {k : Kind} → Expr F k → Meaning F k
  | _, int n => Val.int n
  | _, real f => Val.real f
  | _, str s => Val.str s
  | _, bool b => Val.bool b
  | _, null => Val.null
  | _, col name => row name
  | _, paren e => e.eval E row
  | _, neg e => negate E (e.eval E row)
  | _, not e => negation (e.eval E row)
  | _, bin op a b => op.apply E (a.eval E row) (b.eval E row)
  | _, between a low high =>
    let v : Val F := a.eval E row
    ofTruth (and3 (truth (BinOp.ge.apply E v (low.eval E row))) (truth (BinOp.le.apply E v (high.eval E row))))
  | _, inList a vs => member E (a.eval E row) (vs.eval E row)
  | _, one e => [e.eval E row]
  | _, more es e => List.append (es.eval E row) [e.eval E row]
  | _, foreign _ => Val.null

def columns : {k : Kind} → Expr F k → List Text
  | _, col name => [name]
  | _, paren e | _, neg e | _, not e | _, one e => e.columns
  | _, bin _ a b => a.columns ++ b.columns
  | _, between a low high => a.columns ++ low.columns ++ high.columns
  | _, inList a vs => a.columns ++ vs.columns
  | _, more es e => es.columns ++ e.columns
  | _, _ => []

def reals : {k : Kind} → Expr F k → List F
  | _, real f => [f]
  | _, paren e | _, neg e | _, not e | _, one e => e.reals
  | _, bin _ a b => a.reals ++ b.reals
  | _, between a low high => a.reals ++ low.reals ++ high.reals
  | _, inList a vs => a.reals ++ vs.reals
  | _, more es e => es.reals ++ e.reals
  | _, _ => []

end KqlExpr.Expr

namespace ExprLowering

open SqlValue SqlText SqlReader KqlExpr StringLiterals

variable {F : Type}

section Reading

variable (R : Reals F)

def infText : Text := ['i', 'n', 'f']

def realRead (f : F) : SqlExpr F .scalar :=
  if R.display f = infText then .col infText
  else if '.' ∈ R.display f then .real f
  else .int (Nat.ofDigitChars 10 (R.display f) 0)

def colRead (name : Text) : Text := if unquoted name then fold name else name

/-- **What the text is read as.** -/
def asRead : {k : Kind} → Expr F k → SqlExpr F k
  | _, .int n => .int n
  | _, .real f => realRead R f
  | _, .str s => .str s
  | _, .bool b => .bool b
  | _, .null => .null
  | _, .col name => .col (colRead name)
  | _, .paren e => asRead e
  | _, .neg e => .neg (asRead e)
  | _, .not e => .not (asRead e)
  | _, .bin op a b => .bin op (asRead a) (asRead b)
  | _, .between a low high =>
    .bin .and (.bin .ge (asRead a) (asRead low)) (.bin .le (asRead a) (asRead high))
  | _, .inList a vs => .inList (asRead a) (asRead vs)
  | _, .one e => .one (asRead e)
  | _, .more es e => .more (asRead es) (asRead e)
  | _, .foreign _ => .null

end Reading

/-! ### How the text is split -/

def opToken : BinOp → Token
  | .or => .word ['O', 'R']
  | .and => .word ['A', 'N', 'D']
  | .eq => .eq
  | .ne => .ne
  | .lt => .lt
  | .le => .le
  | .gt => .gt
  | .ge => .ge
  | .add => .plus
  | .sub => .minus
  | .mul => .star
  | .div => .slash
  | .mod => .percent

def parenTokens (ts : List Token) : List Token := .lparen :: (ts ++ [.rparen])

def binaryTokens (ts : List Token) (op : BinOp) (us : List Token) : List Token := parenTokens (ts ++ opToken op :: us)

section Splitting

variable (R : Reals F)

/-- **The tokens of the text.** -/
def tokens : {k : Kind} → Expr F k → List Token
  | _, .int n => [.number (Nat.toDigits 10 n)]
  | _, .real f => if R.display f = infText then [.word infText] else [.number (R.display f)]
  | _, .str s => [.str s]
  | _, .bool true => [.word "TRUE".toList]
  | _, .bool false => [.word "FALSE".toList]
  | _, .null => [.word "NULL".toList]
  | _, .col name => if unquoted name then [.word name] else [.quoted name]
  | _, .paren e => parenTokens (tokens e)
  | _, .neg e => parenTokens (.minus :: tokens e)
  | _, .not e => parenTokens (.word "NOT".toList :: tokens e)
  | _, .bin op a b => binaryTokens (tokens a) op (tokens b)
  | _, .between a low high =>
    binaryTokens (binaryTokens (tokens a) .ge (tokens low)) .and (binaryTokens (tokens a) .le (tokens high))
  | _, .inList a vs => parenTokens (tokens a ++ .word "IN".toList :: parenTokens (tokens vs))
  | _, .one e => tokens e
  | _, .more es e => tokens es ++ .comma :: tokens e
  | _, .foreign _ => []

end Splitting

theorem ends_space (rest : List Char) : Ends (' ' :: rest) := by
  intro c hc
  cases hc
  exact .inl rfl

theorem ends_comma (rest : List Char) : Ends (',' :: rest) := by
  intro c hc
  cases hc
  exact .inr (.inl rfl)

theorem ends_rparen (rest : List Char) : Ends (')' :: rest) := by
  intro c hc
  cases hc
  exact .inr (.inr rfl)

variable {ts : List Token}

theorem stands_paren {t : Text} (h : lexer.StandsBefore Ends t ts) : lexer.Stands (paren t) (parenTokens ts) := by
  have hopen : lexer.Stands ['('] [.lparen] := Scanner.standsBefore_of_next fun _ _ => rfl
  have hclose : lexer.Stands [')'] [.rparen] := Scanner.standsBefore_of_next fun _ _ => rfl
  have hinner := h.append hclose fun rest _ => ends_rparen rest
  exact hopen.append hinner fun _ _ => trivial

theorem stands_spaced {test : List Char → Prop} {t u : Text} {us : List Token}
    (h : lexer.StandsBefore Ends t ts) (h' : lexer.StandsBefore test u us) :
    lexer.StandsBefore test (t ++ ' ' :: u) (ts ++ us) := by
  have hspace := stands_space.append h' fun _ _ => trivial
  exact h.append hspace fun rest _ => ends_space _

theorem ends_cases {rest : List Char} (h : Ends rest) :
    rest = [] ∨ ∃ r, rest = ' ' :: r ∨ rest = ',' :: r ∨ rest = ')' :: r := by
  cases rest with
  | nil => exact .inl rfl
  | cons c r => rcases h c rfl with rfl | rfl | rfl <;> simp

theorem stands_op (op : BinOp) : lexer.StandsBefore Ends (sqlOp op) [opToken op] := by
  cases op
  all_goals
    refine Scanner.standsBefore_of_next fun rest hrest => ?_
    rcases ends_cases hrest with rfl | ⟨r, rfl | rfl | rfl⟩ <;> rfl

theorem stands_binary (op : BinOp) {t u : Text} {us : List Token} (h : lexer.StandsBefore Ends t ts)
    (h' : lexer.StandsBefore Ends u us) : lexer.Stands (binary t (sqlOp op) u) (binaryTokens ts op us) :=
  stands_paren (stands_spaced h (stands_spaced (stands_op op) h'))

/-! ### How an expression is split -/

theorem isDigit_toDigits (n : ℕ) : ∀ d ∈ Nat.toDigits 10 n, d.isDigit = true :=
  fun _ hd => Nat.isDigit_of_mem_toDigits (by decide) (by decide) hd

theorem stands_digits {ds : Text} (h : Digits ds) : lexer.StandsBefore Ends ds [.number ds] := by
  obtain ⟨c, cs, rfl⟩ := List.exists_cons_of_ne_nil h.1
  exact stands_number rfl (h.2 c (List.mem_cons_self ..)) fun rest hrest => number_digits h.2 hrest

theorem stands_real (R : Reals F) (f : F) : lexer.StandsBefore Ends (R.display f) (tokens R (.real f)) := by
  rcases R.shape f with h | ⟨ds, fs, hds, hfs, h⟩ | h
  · have hne : R.display f ≠ infText := fun heq =>
      absurd (h.2 'i' (by rw [heq]; decide)) (by decide)
    rw [tokens, if_neg hne]
    exact stands_digits h
  · have hne : R.display f ≠ infText := fun heq => by
      have hpoint : '.' ∈ infText := by
        rw [← heq, h]
        simp
      exact absurd hpoint (by decide)
    rw [tokens, if_neg hne, h]
    obtain ⟨c, cs, rfl⟩ := List.exists_cons_of_ne_nil hds.1
    exact stands_number rfl (hds.2 c (List.mem_cons_self ..)) fun rest hrest => number_point hds.2 hfs.2 hrest
  · rw [tokens, if_pos (show R.display f = infText from h), h]
    exact stands_word rfl (List.all_eq_true.1 rfl)

theorem unquoted_word {name : Text} (h : unquoted name = true) :
    ∃ c cs, name = c :: cs ∧ isWordStart c = true ∧ ∀ d ∈ cs, isWordChar d = true := by
  have hsimple : structurallySimple name = true := (Bool.and_eq_true_iff.mp h).1
  obtain ⟨hall, hhead⟩ := Bool.and_eq_true_iff.mp hsimple
  cases name with
  | nil => cases hhead
  | cons c cs =>
    rw [List.all_cons, Bool.and_eq_true_iff, List.all_eq_true] at hall
    have hdigit : c.isDigit = false := by simpa using hhead
    refine ⟨c, cs, rfl, ?_, hall.2⟩
    have hc := hall.1
    simp only [Char.isAlphanum, hdigit, Bool.or_false] at hc
    exact hc

theorem stands_col (name : Text) : lexer.StandsBefore Ends (quoteIdent name)
      (if unquoted name then [.word name] else [.quoted name]) := by
  unfold quoteIdent
  split
  · rename_i h
    obtain ⟨c, cs, rfl, hc, hcs⟩ := unquoted_word h
    exact stands_word hc hcs
  · exact (stands_quoted name).mono fun rest hrest => noQuote_of_ends hrest (.inr rfl)

theorem ne_dash_of_isDigit {c : Char} (h : c.isDigit = true) : c ≠ '-' := by
  rintro rfl
  exact absurd h (by decide)

theorem ne_dash_of_isWordStart {c : Char} (h : isWordStart c = true) : c ≠ '-' := by
  rintro rfl
  exact absurd h (by decide)

theorem head_digits {ds : Text} (h : Digits ds) : ∃ c cs, ds = c :: cs ∧ c ≠ '-' := by
  obtain ⟨c, cs, rfl⟩ := List.exists_cons_of_ne_nil h.1
  exact ⟨c, cs, rfl, ne_dash_of_isDigit (h.2 c (List.mem_cons_self ..))⟩

theorem head_lower (R : Reals F) {k : Kind} (e : Expr F k) (he : e.Plain) :
    ∃ c cs, e.lower R.display = c :: cs ∧ c ≠ '-' := by
  induction e with
  | int n => exact head_digits ⟨Nat.toDigits_ne_nil, isDigit_toDigits n⟩
  | real f =>
    rw [Expr.lower]
    rcases R.shape f with h | ⟨ds, fs, hds, hfs, h⟩ | h
    · exact head_digits h
    · obtain ⟨c, cs, hcs, hc⟩ := head_digits hds
      exact ⟨c, cs ++ '.' :: fs, by rw [h, hcs, List.cons_append], hc⟩
    · exact ⟨'i', ['n', 'f'], h, by decide⟩
  | str s | null | paren e ih | neg e ih | not e ih | bin op a b iha ihb
  | between a low high iha ihlow ihhigh | inList a vs iha ihvs => exact ⟨_, _, rfl, by decide⟩
  | bool b =>
    cases b with
    | true | false => exact ⟨_, _, rfl, by decide⟩
  | col name =>
    rw [Expr.lower, quoteIdent]
    split
    · rename_i h
      obtain ⟨c, cs, rfl, hc, -⟩ := unquoted_word h
      exact ⟨c, cs, rfl, ne_dash_of_isWordStart hc⟩
    · exact ⟨_, _, rfl, by decide⟩
  | one e ih => exact ih he
  | more es e ihes ihe =>
    obtain ⟨c, cs, hcs, hc⟩ := ihes he.1
    exact ⟨c, cs ++ [',', ' '] ++ e.lower R.display, by rw [Expr.lower, hcs]; simp, hc⟩
  | foreign sql => exact he.elim

theorem stands_minus {c : Char} {cs : Text} (hc : c ≠ '-') (h : lexer.StandsBefore Ends (c :: cs) ts) :
    lexer.StandsBefore Ends ('-' :: c :: cs) (.minus :: ts) := by
  have hminus : lexer.StandsBefore (fun rest => rest.head? = some c) ['-'] [.minus] := by
    refine Scanner.standsBefore_of_next fun rest hrest => ?_
    cases rest with
    | nil => cases hrest
    | cons d rest =>
      cases hrest
      simp [lexer, next, isSpace, SqlText.peek, hc]
  exact hminus.append h fun _ _ => rfl

theorem stands_lower (R : Reals F) {k : Kind} (e : Expr F k) (he : e.Plain) :
    lexer.StandsBefore Ends (e.lower R.display) (tokens R e) := by
  induction e with
  | int n => exact stands_digits ⟨Nat.toDigits_ne_nil, isDigit_toDigits n⟩
  | real f => exact stands_real R f
  | str s => exact (stands_string s).mono fun rest hrest => noQuote_of_ends hrest (.inl rfl)
  | bool b =>
    cases b with
    | true | false => exact stands_word rfl (List.all_eq_true.1 rfl)
  | null => exact stands_word rfl (List.all_eq_true.1 rfl)
  | col name => exact stands_col name
  | paren e ih => exact (stands_paren (ih he)).before
  | neg e ih =>
    obtain ⟨c, cs, hcs, hc⟩ := head_lower R e he
    have hinner : lexer.StandsBefore Ends ('-' :: e.lower R.display) (.minus :: tokens R e) := by
      rw [hcs]
      exact stands_minus hc (hcs ▸ ih he)
    exact (stands_paren hinner).before
  | not e ih =>
    have hnot : lexer.StandsBefore Ends "NOT".toList [.word "NOT".toList] := stands_word rfl (List.all_eq_true.1 rfl)
    exact (stands_paren (stands_spaced hnot (ih he))).before
  | bin op a b iha ihb => exact (stands_binary op (iha he.1) (ihb he.2)).before
  | between a low high iha ihlow ihhigh =>
    have hlow := stands_binary .ge (iha he.1) (ihlow he.2.1)
    have hhigh := stands_binary .le (iha he.1) (ihhigh he.2.2)
    exact (stands_binary .and hlow.before hhigh.before).before
  | inList a vs iha ihvs =>
    have hin : lexer.StandsBefore Ends "IN".toList [.word "IN".toList] := stands_word rfl (List.all_eq_true.1 rfl)
    have hlist := stands_spaced hin (stands_paren (ihvs he.2))
    have htext : (Expr.inList a vs).lower R.display =
        paren (a.lower R.display ++ ' ' :: ("IN".toList ++ ' ' :: paren (vs.lower R.display))) := by
      simp [Expr.lower]
    rw [htext]
    exact (stands_paren (stands_spaced (iha he.1) (Scanner.Stands.before hlist))).before
  | one e ih => exact ih he
  | more es e ihes ihe =>
    have hcomma : lexer.Stands [','] [.comma] := Scanner.standsBefore_of_next fun _ _ => rfl
    have hrest := hcomma.append (stands_space.append (ihe he.2) fun _ _ => trivial) fun _ _ => trivial
    have hall := (ihes he.1).append hrest fun rest _ => ends_comma _
    simpa [Expr.lower, tokens] using hall
  | foreign sql => exact he.elim

/-! ### How an expression is read -/

def depth : {k : Kind} → Expr F k → ℕ
  | _, .paren e => depth e + 1
  | _, .neg e | _, .not e => depth e + 2
  | _, .bin _ a b => max (depth a) (depth b) + 2
  | _, .between a low high => max (depth a) (max (depth low) (depth high)) + 4
  | _, .inList a vs => max (depth a) (depth vs) + 2
  | _, .one e => depth e
  | _, .more es e => max (depth es) (depth e)
  | _, _ => 0

theorem joint_opToken (op : BinOp) : joint (opToken op) = some (.bin op) := by
  cases op <;> rfl

section Reading

variable (R : Reals F)

def IsRead : {k : Kind} → Expr F k → Prop
  | .scalar, e => Reads R.parse (depth e) (tokens R e) (asRead R e)
  | .list, es => ∃ c, ReadsValues R.parse (depth es + 1) c (tokens R es) (asRead R es)

variable {R}

theorem reads_number {lit : Text} {e : SqlExpr F .scalar} (h : numeral R.parse lit = some e) :
    Reads R.parse 0 [.number lit] e := by
  intro n rest _
  rw [List.singleton_append, readHead, h]
  rfl

theorem reads_word {w : Text} {e : SqlExpr F .scalar} (hnot : fold w ≠ "not".toList)
    (h : wordExpr w = some e) : Reads R.parse 0 [.word w] e := by
  intro n rest _
  rw [List.singleton_append, readHead, if_neg hnot, h]
  rfl

theorem reads_binary {d d' : ℕ} {ts us : List Token} {a b : SqlExpr F .scalar} (op : BinOp)
    (ha : Reads R.parse d ts a) (hb : Reads R.parse d' us b) :
    Reads R.parse (max d d' + 2) (binaryTokens ts op us) (.bin op a b) :=
  ((ha.mono (Nat.le_max_left ..)).bin (joint_opToken op) (hb.mono (Nat.le_max_right ..))).paren

theorem numeral_digits {ds : Text} (h : Digits ds) : numeral R.parse ds = some (.int (Nat.ofDigitChars 10 ds 0)) := by
  rw [numeral, if_pos (List.all_eq_true.mpr h.2)]

theorem reads_real (f : F) : Reads R.parse 0 (tokens R (.real f)) (realRead R f) := by
  rcases R.shape f with h | ⟨ds, fs, hds, hfs, h⟩ | h
  · have hne : R.display f ≠ infText := fun heq =>
      absurd (h.2 'i' (by rw [heq]; decide)) (by decide)
    have hpoint : '.' ∉ R.display f := fun hmem => absurd (h.2 '.' hmem) (by decide)
    rw [tokens, if_neg hne, realRead, if_neg hne, if_neg hpoint]
    exact reads_number (numeral_digits h)
  · have hpoint : '.' ∈ R.display f := by
      rw [h]
      simp
    have hne : R.display f ≠ infText := fun heq => by
      rw [heq] at hpoint
      exact absurd hpoint (by decide)
    have hall : (R.display f).all Char.isDigit = false := by
      rw [h]
      simp
    rw [tokens, if_neg hne, realRead, if_neg hne, if_pos hpoint]
    refine reads_number ?_
    rw [numeral, if_neg (by simp [hall]), R.parse_display f hpoint]
    rfl
  · have h' : R.display f = infText := h
    rw [tokens, if_pos h', realRead, if_pos h']
    exact reads_word (by decide) rfl

theorem reads_col (name : Text) : Reads R.parse 0 (tokens R (.col name)) (.col (colRead name)) := by
  rw [tokens, colRead]
  split
  · rename_i h
    have hres : ∀ w ∈ sqlReserved, fold name ≠ w := by
      intro w hw heq
      have hnot := (Bool.and_eq_true_iff.mp h).2
      rw [Bool.not_eq_true', List.contains_eq_mem, decide_eq_false_iff_not] at hnot
      have hmem : fold name ∈ sqlReserved := heq ▸ hw
      exact hnot hmem
    refine reads_word (hres _ (by decide)) ?_
    have hcontains : sqlReserved.contains (fold name) = false := by
      rw [List.contains_eq_mem, decide_eq_false_iff_not]
      exact fun hmem => hres _ hmem rfl
    rw [wordExpr, if_neg (hres _ (by decide)), if_neg (hres _ (by decide)),
      if_neg (hres _ (by decide)), hcontains, if_neg Bool.false_ne_true]
  · exact fun n rest _ => rfl

theorem reads_lower {k : Kind} (e : Expr F k) (he : e.Plain) : IsRead R e := by
  induction e with
  | int n =>
    have hn := numeral_digits (R := R) ⟨Nat.toDigits_ne_nil, isDigit_toDigits n⟩
    rw [Nat.ofDigitChars_ten_toDigits] at hn
    exact reads_number hn
  | real f => exact reads_real f
  | str s => exact fun n rest _ => rfl
  | bool b =>
    cases b with
    | true | false => exact reads_word (by decide) rfl
  | null => exact reads_word (by decide) rfl
  | col name => exact reads_col name
  | paren e ih => exact ((ih he).whole 0).paren
  | neg e ih => exact (ih he).neg.paren
  | not e ih => exact ((ih he).not rfl).paren
  | bin op a b iha ihb => exact reads_binary op (iha he.1) (ihb he.2)
  | between a low high iha ihlow ihhigh =>
    have hlow := reads_binary .ge (iha he.1) (ihlow he.2.1)
    have hhigh := reads_binary .le (iha he.1) (ihhigh he.2.2)
    exact (reads_binary .and hlow hhigh).mono (by simp only [depth]; omega)
  | inList a vs iha ihvs =>
    obtain ⟨c, hvs⟩ := ihvs he.2
    have ha := (iha he.1).mono (Nat.le_max_left (depth a) (depth vs))
    have hlist := hvs.mono (Nat.succ_le_succ (Nat.le_max_right (depth a) (depth vs)))
    exact (ha.inList rfl hlist).paren
  | one e ih => exact ⟨1, (ih he).one⟩
  | more es e ihes ihe =>
    obtain ⟨c, hes⟩ := ihes he.1
    have hlist := hes.mono (Nat.succ_le_succ (Nat.le_max_left (depth es) (depth e)))
    exact ⟨c + 1, hlist.more ((ihe he.2).mono (Nat.le_max_right (depth es) (depth e)))⟩
  | foreign sql => exact he.elim

theorem depth_le_tokens {k : Kind} (e : Expr F k) : depth e ≤ (tokens R e).length := by
  induction e with
  | paren e ih | neg e ih | not e ih | inList a vs iha ihvs =>
    simp only [depth, tokens, parenTokens, List.length_cons, List.length_append]
    omega
  | bin op a b iha ihb | between a low high iha ihlow ihhigh =>
    simp only [depth, tokens, binaryTokens, parenTokens, List.length_cons, List.length_append]
    omega
  | one e ih => exact ih
  | more es e ihes ihe =>
    simp only [depth, tokens, List.length_cons, List.length_append]
    omega
  | int | real | str | bool | null | col | foreign => exact Nat.zero_le _

theorem read_of_reads {d : ℕ} {text : Text} {toks : List Token} {s : SqlExpr F .scalar}
    (hsplit : lexer.StandsBefore Ends text toks) (hread : Reads R.parse d toks s)
    (hd : d ≤ toks.length) : read R.parse text = some s := by
  have htokens := hsplit.tokenize_eq fun c hc => by cases hc
  have hwhole := hread.whole 0 (toks.length + 1) [] (by omega) stops_nil
  rw [List.append_nil] at hwhole
  rw [SqlReader.read, htokens]
  simp only [hwhole]

theorem read_lower (e : Expr F .scalar) (he : e.Plain) : read R.parse (e.lower R.display) = some (asRead R e) :=
  read_of_reads (stands_lower R e he) (reads_lower e he : IsRead R e) (depth_le_tokens e)

end Reading

section Keeping

variable (R : Reals F)

/-- **The text keeps the meaning**: it is read as an expression with the same value in every row, the
same columns and the same real literals. -/
def Keeps (text : Text) (e : Expr F .scalar) : Prop :=
  ∃ s, read R.parse text = some s ∧ (∀ E row, s.eval E row = e.eval E row) ∧
    (∀ c, c ∈ s.columns ↔ c ∈ e.columns) ∧ ∀ f, f ∈ s.reals ↔ f ∈ e.reals

/-- **The leaves that survive**: names that are quoted or have no upper-case letter, and reals that are
displayed with a point. -/
def KeepsLeaves {k : Kind} (e : Expr F k) : Prop :=
  (∀ c ∈ e.columns, unquoted c = true → ∀ x ∈ c, x.isUpper = false) ∧ ∀ f ∈ e.reals, '.' ∈ R.display f

variable {R}

/-! ### Letters -/

theorem toLower_of_lower {c : Char} (h : c.isUpper = false) : c.toLower = c := by
  delta Char.isUpper at h
  have hc : ¬ (c.val ≥ 'A'.val ∧ c.val ≤ 'Z'.val) := by simpa using h
  unfold Char.toLower
  exact dif_neg hc

theorem isUpper_toLower (c : Char) : c.toLower.isUpper = false := by
  by_cases hc : c.val ≥ 'A'.val ∧ c.val ≤ 'Z'.val
  · unfold Char.toLower
    rw [dif_pos hc]
    delta Char.isUpper
    simp only [decide_eq_false_iff_not, UInt32.le_iff_toNat_le, ge_iff_le, UInt32.toNat_add] at hc ⊢
    have hA : 'A'.val.toNat = 65 := rfl
    have hZ : 'Z'.val.toNat = 90 := rfl
    have h32 : ('a'.val - 'A'.val).toNat = 32 := rfl
    omega
  · have hlower : c.isUpper = false := by
      delta Char.isUpper
      simpa using hc
    rwa [toLower_of_lower hlower]

theorem fold_of_lower {c : Text} (h : ∀ x ∈ c, x.isUpper = false) : fold c = c := by
  have hmap : c.map Char.toLower = c.map id := List.map_congr_left fun x hx => toLower_of_lower (h x hx)
  rw [fold, hmap, List.map_id]

theorem colRead_of_lower {c : Text} (h : unquoted c = true → ∀ x ∈ c, x.isUpper = false) : colRead c = c := by
  unfold colRead
  split
  · rename_i hc
    exact fold_of_lower (h hc)
  · rfl

theorem lower_colRead (c : Text) (h : unquoted (colRead c) = true) : ∀ x ∈ colRead c, x.isUpper = false := by
  unfold colRead at h ⊢
  split
  · intro x hx
    obtain ⟨y, -, rfl⟩ := List.mem_map.mp hx
    exact isUpper_toLower y
  · rename_i hc
    rw [if_neg hc] at h
    exact absurd h hc

theorem realRead_of_point {f : F} (h : '.' ∈ R.display f) : realRead R f = .real f := by
  have hne : R.display f ≠ infText := fun heq => by
    rw [heq] at h
    exact absurd h (by decide)
  rw [realRead, if_neg hne, if_pos h]

/-! ### The SQL expression that is meant -/

def meant : {k : Kind} → Expr F k → SqlExpr F k
  | _, .int n => .int n
  | _, .real f => .real f
  | _, .str s => .str s
  | _, .bool b => .bool b
  | _, .null => .null
  | _, .col name => .col name
  | _, .paren e => meant e
  | _, .neg e => .neg (meant e)
  | _, .not e => .not (meant e)
  | _, .bin op a b => .bin op (meant a) (meant b)
  | _, .between a low high =>
    .bin .and (.bin .ge (meant a) (meant low)) (.bin .le (meant a) (meant high))
  | _, .inList a vs => .inList (meant a) (meant vs)
  | _, .one e => .one (meant e)
  | _, .more es e => .more (meant es) (meant e)
  | _, .foreign _ => .null

variable {k : Kind}

theorem eval_meant (e : Expr F k) (E : Engine F) (row : Text → Val F) : (meant e).eval E row = e.eval E row := by
  induction e with
  | paren e ih => exact ih
  | neg e ih => exact congrArg (negate E) ih
  | not e ih => exact congrArg negation ih
  | bin op a b iha ihb => exact congrArg₂ (op.apply E) iha ihb
  | between a low high iha ihlow ihhigh =>
    simp only [meant, SqlExpr.eval, Expr.eval, iha, ihlow, ihhigh]
    rfl
  | inList a vs iha ihvs => exact congrArg₂ (member E) iha ihvs
  | one e ih => exact congrArg (fun v => [v]) ih
  | more es e ihes ihe => exact congrArg₂ (fun vs v => List.append vs [v]) ihes ihe
  | int | real | str | bool | null | col | foreign => rfl

theorem mem_columns_meant (e : Expr F k) (c : Text) : c ∈ (meant e).columns ↔ c ∈ e.columns := by
  induction e with
  | paren e ih | neg e ih | not e ih | one e ih => exact ih
  | between a low high iha ihlow ihhigh =>
    simp only [meant, SqlExpr.columns, Expr.columns, List.mem_append, iha, ihlow, ihhigh]
    tauto
  | bin _ _ _ ih ih' | inList _ _ ih ih' | more _ _ ih ih' =>
    simp only [meant, SqlExpr.columns, Expr.columns, List.mem_append, ih, ih']
  | int | real | str | bool | null | col | foreign => exact Iff.rfl

theorem mem_reals_meant (e : Expr F k) (f : F) : f ∈ (meant e).reals ↔ f ∈ e.reals := by
  induction e with
  | paren e ih | neg e ih | not e ih | one e ih => exact ih
  | between a low high iha ihlow ihhigh =>
    simp only [meant, SqlExpr.reals, Expr.reals, List.mem_append, iha, ihlow, ihhigh]
    tauto
  | bin _ _ _ ih ih' | inList _ _ ih ih' | more _ _ ih ih' =>
    simp only [meant, SqlExpr.reals, Expr.reals, List.mem_append, ih, ih']
  | int | real | str | bool | null | col | foreign => exact Iff.rfl

/-! ### What is read is what is meant -/

theorem asRead_eq_meant (e : Expr F k) (h : KeepsLeaves R e) : asRead R e = meant e := by
  obtain ⟨hcols, hreals⟩ := h
  induction e with
  | real f => exact realRead_of_point (hreals f (List.mem_singleton_self f))
  | col name =>
    rw [asRead, meant, colRead_of_lower (hcols name (List.mem_singleton_self name))]
  | paren e ih => exact ih hcols hreals
  | neg e ih | not e ih | one e ih => rw [asRead, meant, ih hcols hreals]
  | bin op a b iha ihb =>
    simp only [Expr.columns, Expr.reals, List.forall_mem_append] at hcols hreals
    rw [asRead, meant, iha hcols.1 hreals.1, ihb hcols.2 hreals.2]
  | between a low high iha ihlow ihhigh =>
    simp only [Expr.columns, Expr.reals, List.forall_mem_append] at hcols hreals
    rw [asRead, meant, iha hcols.1.1 hreals.1.1, ihlow hcols.1.2 hreals.1.2, ihhigh hcols.2 hreals.2]
  | inList a vs iha ihvs =>
    simp only [Expr.columns, Expr.reals, List.forall_mem_append] at hcols hreals
    rw [asRead, meant, iha hcols.1 hreals.1, ihvs hcols.2 hreals.2]
  | more es e ihes ihe =>
    simp only [Expr.columns, Expr.reals, List.forall_mem_append] at hcols hreals
    rw [asRead, meant, ihes hcols.1 hreals.1, ihe hcols.2 hreals.2]
  | int | str | bool | null | foreign => rfl

theorem lower_of_mem_columns (e : Expr F k) :
    ∀ c ∈ (asRead R e).columns, unquoted c = true → ∀ x ∈ c, x.isUpper = false := by
  induction e with
  | real f =>
    intro c hc
    rw [asRead, realRead] at hc
    split at hc
    · obtain rfl := List.mem_singleton.mp hc
      exact fun _ => by simp [infText]
    · split at hc
      · cases hc
      · cases hc
  | col name =>
    intro c hc
    obtain rfl := List.mem_singleton.mp hc
    exact lower_colRead name
  | paren e ih | neg e ih | not e ih | one e ih => exact ih
  | bin op a b iha ihb => exact List.forall_mem_append.mpr ⟨iha, ihb⟩
  | between a low high iha ihlow ihhigh =>
    exact List.forall_mem_append.mpr ⟨List.forall_mem_append.mpr ⟨iha, ihlow⟩, List.forall_mem_append.mpr ⟨iha, ihhigh⟩⟩
  | inList a vs iha ihvs => exact List.forall_mem_append.mpr ⟨iha, ihvs⟩
  | more es e ihes ihe => exact List.forall_mem_append.mpr ⟨ihes, ihe⟩
  | int | str | bool | null | foreign => exact fun c hc => by cases hc

theorem point_of_mem_reals (e : Expr F k) : ∀ f ∈ (asRead R e).reals, '.' ∈ R.display f := by
  induction e with
  | real g =>
    intro f hf
    rw [asRead, realRead] at hf
    split at hf
    · cases hf
    · split at hf
      · rename_i hpoint
        obtain rfl := List.mem_singleton.mp hf
        exact hpoint
      · cases hf
  | paren e ih | neg e ih | not e ih | one e ih => exact ih
  | bin op a b iha ihb => exact List.forall_mem_append.mpr ⟨iha, ihb⟩
  | between a low high iha ihlow ihhigh =>
    exact List.forall_mem_append.mpr ⟨List.forall_mem_append.mpr ⟨iha, ihlow⟩, List.forall_mem_append.mpr ⟨iha, ihhigh⟩⟩
  | inList a vs iha ihvs => exact List.forall_mem_append.mpr ⟨iha, ihvs⟩
  | more es e ihes ihe => exact List.forall_mem_append.mpr ⟨ihes, ihe⟩
  | int | str | bool | null | col | foreign => exact fun f hf => by cases hf

theorem keeps_lower_iff (e : Expr F .scalar) (he : e.Plain) : Keeps R (e.lower R.display) e ↔ KeepsLeaves R e := by
  constructor
  · rintro ⟨s, hs, -, hcols, hreals⟩
    rw [read_lower e he] at hs
    obtain rfl := Option.some.inj hs
    exact ⟨fun c hc => lower_of_mem_columns e c ((hcols c).mpr hc),
      fun f hf => point_of_mem_reals e f ((hreals f).mpr hf)⟩
  · intro h
    refine ⟨meant e, ?_, eval_meant e, mem_columns_meant e, mem_reals_meant e⟩
    rw [read_lower e he, asRead_eq_meant e h]

end Keeping

/-- `whole n` is `n`, `point n m` is `n` and the digits of `m + 1` behind the point. -/
inductive Decimal where
  | whole (n : ℕ)
  | point (n m : ℕ)
  | inf
  deriving DecidableEq

def Decimal.display : Decimal → Text
  | whole n => Nat.toDigits 10 n
  | point n m => Nat.toDigits 10 n ++ '.' :: Nat.toDigits 10 (m + 1)
  | inf => infText

def Decimal.parse (t : Text) : Option Decimal :=
  let n := Nat.ofDigitChars 10 (t.takeWhile Char.isDigit) 0
  match t.dropWhile Char.isDigit with
  | '.' :: fs =>
    match Nat.ofDigitChars 10 fs 0 with
    | 0 => some (.whole n)
    | m + 1 => some (.point n m)
  | _ => none

theorem digits_toDigits (n : ℕ) : Digits (Nat.toDigits 10 n) := ⟨Nat.toDigits_ne_nil, isDigit_toDigits n⟩

def decimals : Reals Decimal where
  parse := Decimal.parse
  display := Decimal.display
  shape := fun f => by
    cases f with
    | whole n => exact .inl (digits_toDigits n)
    | point n m => exact .inr (.inl ⟨_, _, digits_toDigits n, digits_toDigits (m + 1), rfl⟩)
    | inf => exact .inr (.inr rfl)
  parse_display := fun f hf => by
    cases f with
    | whole n => exact absurd (isDigit_toDigits n '.' hf) (by decide)
    | point n m =>
      have hend : ∀ c ∈ ('.' :: Nat.toDigits 10 (m + 1)).head?, c.isDigit = false := by
        intro c hc
        cases hc
        rfl
      obtain ⟨htake, hdrop⟩ := Scanner.span_run (isDigit_toDigits n) hend
      simp only [Decimal.parse, Decimal.display, htake, hdrop, Nat.ofDigitChars_ten_toDigits]
    | inf => exact absurd hf (by decide)

end ExprLowering
