/-
**The grammar of KQL expressions.**

The parser of `Pensieve/KqlExpr.lean` builds no tree.  This module says which tree there is: the
abstract syntax of expressions, the grammar that tells which tokens spell which expression at which
level of precedence, and the text that the parser emits for each expression.
-/

import Pensieve.Fallible
import Pensieve.KqlExpr
import Pensieve.SqlValue

namespace KqlExpr

open List
open KqlLexer StringLiterals SqlValue
open Fallible (bind_eq_ok)

variable {F : Type}

/-! ### Expressions -/

def sqlOp : BinOp → Text
  | .or => ['O', 'R']
  | .and => ['A', 'N', 'D']
  | .eq => ['=']
  | .ne => ['<', '>']
  | .lt => ['<']
  | .le => ['<', '=']
  | .gt => ['>']
  | .ge => ['>', '=']
  | .add => ['+']
  | .sub => ['-']
  | .mul => ['*']
  | .div => ['/']
  | .mod => ['%']

inductive Expr (F : Type) : Kind → Type where
  | int (n : ℕ) : Expr F .scalar
  | real (f : F) : Expr F .scalar
  | str (s : Text) : Expr F .scalar
  | bool (b : Bool) : Expr F .scalar
  | null : Expr F .scalar
  | col (name : Text) : Expr F .scalar
  | paren (e : Expr F .scalar) : Expr F .scalar
  | neg (e : Expr F .scalar) : Expr F .scalar
  | not (e : Expr F .scalar) : Expr F .scalar
  | bin (op : BinOp) (a b : Expr F .scalar) : Expr F .scalar
  | between (a low high : Expr F .scalar) : Expr F .scalar
  | inList (a : Expr F .scalar) (values : Expr F .list) : Expr F .scalar
  | one (e : Expr F .scalar) : Expr F .list
  | more (es : Expr F .list) (e : Expr F .scalar) : Expr F .list
  | foreign (sql : Text) : Expr F .scalar

namespace Expr

def Plain : {k : Kind} → Expr F k → Prop
  | _, paren e | _, neg e | _, not e | _, one e => e.Plain
  | _, bin _ a b => a.Plain ∧ b.Plain
  | _, inList a vs => a.Plain ∧ vs.Plain
  | _, more es e => es.Plain ∧ e.Plain
  | _, between a low high => a.Plain ∧ low.Plain ∧ high.Plain
  | _, foreign _ => False
  | _, _ => True

/-- **The text** of an expression, given how a real is displayed. -/
def lower (display : F → Text) : {k : Kind} → Expr F k → Text
  | _, int n => Nat.toDigits 10 n
  | _, real f => display f
  | _, str s => sqlLiteral s
  | _, bool true => "TRUE".toList
  | _, bool false => "FALSE".toList
  | _, null => "NULL".toList
  | _, col name => quoteIdent name
  | _, paren e => KqlExpr.paren (e.lower display)
  | _, neg e => KqlExpr.paren ('-' :: e.lower display)
  | _, not e => KqlExpr.paren ("NOT ".toList ++ e.lower display)
  | _, bin op a b => binary (a.lower display) (sqlOp op) (b.lower display)
  | _, between a low high =>
    betweenText (a.lower display) (low.lower display) (high.lower display)
  | _, inList a vs =>
    KqlExpr.paren (a.lower display ++ " IN ".toList ++ KqlExpr.paren (vs.lower display))
  | _, one e => e.lower display
  | _, more es e => es.lower display ++ [',', ' '] ++ e.lower display
  | _, foreign sql => sql

end Expr

/-! ### The grammar -/

inductive Level where
  | or | and | not | comparison | additive | multiplicative | unary | atom

def Level.next : Level → Level
  | or => and
  | and => not
  | not => comparison
  | comparison => additive
  | additive => multiplicative
  | multiplicative => unary
  | unary => atom
  | atom => atom

def leftOp : Level → Token F → Option BinOp
  | .or, .ident w => if w = "or".toList then some .or else none
  | .and, .ident w => if w = "and".toList then some .and else none
  | .additive, .plus => some .add
  | .additive, .minus => some .sub
  | .multiplicative, .star => some .mul
  | .multiplicative, .slash => some .div
  | .multiplicative, .percent => some .mod
  | _, _ => none

def compareOp : Token F → Option BinOp
  | .eq => some .eq
  | .ne => some .ne
  | .lt => some .lt
  | .le => some .le
  | .gt => some .gt
  | .ge => some .ge
  | _ => none

def textOps : List Text := ["contains".toList, "startswith".toList, "endswith".toList, "has".toList]

def nameExpr (name : Text) : Expr F .scalar :=
  if name = "true".toList then .bool true
  else if name = "false".toList then .bool false
  else if name = "null".toList then .null
  else .col name

mutual

inductive Spells : Level → Expr F .scalar → List (Token F) → Prop where
  | int (n : ℕ) : Spells .atom (.int n) [.int n]
  | real (f : F) : Spells .atom (.real f) [.float f]
  | str (s : Text) : Spells .atom (.str s) [.str s]
  | name (name : Text) : Spells .atom (nameExpr name) [.ident name]
  | paren {e : Expr F .scalar} {ts : List (Token F)} :
      Spells .or e ts → Spells .atom (.paren e) (.lparen :: (ts ++ [.rparen]))
  | neg {e : Expr F .scalar} {ts : List (Token F)} : Spells .unary e ts → Spells .unary (.neg e) (.minus :: ts)
  | not {e : Expr F .scalar} {ts : List (Token F)} :
      Spells .not e ts → Spells .not (.not e) (.ident "not".toList :: ts)
  | left {l : Level} {t : Token F} {op : BinOp} {a b : Expr F .scalar} {ts us : List (Token F)} :
      leftOp l t = some op → Spells l a ts → Spells l.next b us → Spells l (.bin op a b) (ts ++ t :: us)
  | compare {t : Token F} {op : BinOp} {a b : Expr F .scalar} {ts us : List (Token F)} :
      compareOp t = some op → Spells .additive a ts → Spells .additive b us →
        Spells .comparison (.bin op a b) (ts ++ t :: us)
  | between {a low high : Expr F .scalar} {ts us vs : List (Token F)} :
      Spells .additive a ts → Spells .additive low us → Spells .additive high vs →
        Spells .comparison (.between a low high)
          (ts ++ .ident "between".toList :: .lparen :: (us ++ .dotDot :: (vs ++ [.rparen])))
  | inList {a : Expr F .scalar} {values : Expr F .list} {w : Text} {ts us : List (Token F)} :
      w.map Char.toLower = "in".toList → Spells .additive a ts → SpellsValues values us →
        Spells .comparison (.inList a values) (ts ++ .ident w :: .lparen :: (us ++ [.rparen]))
  | up {l : Level} {e : Expr F .scalar} {ts : List (Token F)} : Spells l.next e ts → Spells l e ts
  | duration (d sql : Text) : Spells .atom (.foreign sql) [.duration d]
  | star (sql : Text) : Spells .atom (.foreign sql) [.star]
  | call {name sql : Text} {args : List Text} (ts : List (Token F)) :
      callText name args = some sql → Spells .atom (.foreign sql) (.ident name :: .lparen :: ts)
  | text {w sql : Text} {a b : Expr F .scalar} {ts us : List (Token F)} :
      w ∈ textOps → Spells .additive a ts → Spells .additive b us →
        Spells .comparison (.foreign sql) (ts ++ .ident w :: us)

inductive SpellsValues : Expr F .list → List (Token F) → Prop where
  | one {e : Expr F .scalar} {ts : List (Token F)} : Spells .additive e ts → SpellsValues (.one e) ts
  | more {es : Expr F .list} {e : Expr F .scalar} {ts us : List (Token F)} :
      SpellsValues es ts → Spells .additive e us → SpellsValues (.more es e) (ts ++ .comma :: us)

end

section Soundness

variable (display : F → Text)

def Sound (l : Level) (p : Parser F) : Prop :=
  ∀ toks text rest, p toks = .ok (text, rest) → ∃ e ts, Spells l e ts ∧ toks = ts ++ rest ∧ text = e.lower display

variable {display}

variable {toks rest : List (Token F)}

theorem expectRParen_eq_ok {text text' : Text}
    (h : expectRParen text toks = .ok (text', rest)) : text' = text ∧ toks = .rparen :: rest := by
  unfold expectRParen at h
  split at h
  · cases h
    exact ⟨rfl, rfl⟩
  · cases h

variable {sub : Parser F} {us : List (Token F)}

theorem sound_leftLoop {l : Level} {op : Token F → Option Text} (hsub : Sound display l.next sub)
    (hop : ∀ t o, op t = some o → ∃ b, leftOp l t = some b ∧ sqlOp b = o) {n : ℕ} {a : Expr F .scalar}
    {text : Text} (ha : Spells l a us)
    (h : leftLoop sub op n (a.lower display) toks = .ok (text, rest)) :
    ∃ e ts, Spells l e (us ++ ts) ∧ toks = ts ++ rest ∧ text = e.lower display := by
  induction n generalizing a us toks with
  | zero => cases h
  | succ n ih =>
    cases toks with
    | nil =>
      cases h
      exact ⟨a, [], by rwa [append_nil], rfl, rfl⟩
    | cons t toks =>
      rw [leftLoop] at h
      split at h
      · cases h
        exact ⟨a, [], by rwa [append_nil], rfl, rfl⟩
      · rename_i o ho
        obtain ⟨⟨rhs, rest'⟩, hrhs, hloop⟩ := bind_eq_ok.1 h
        obtain ⟨b, vs, hb, hvs, rfl⟩ := hsub toks rhs rest' hrhs
        obtain ⟨bop, hbop, rfl⟩ := hop t o ho
        obtain ⟨e, ts, he, hts, htext⟩ := ih (a := .bin bop a b) (.left hbop ha hb) hloop
        refine ⟨e, t :: (vs ++ ts), ?_, ?_, htext⟩
        · simpa using he
        · rw [hvs, hts]
          simp

theorem sound_leftAssoc {l : Level} {op : Token F → Option Text} (hsub : Sound display l.next sub)
    (hop : ∀ t o, op t = some o → ∃ b, leftOp l t = some b ∧ sqlOp b = o) : Sound display l (leftAssoc sub op) := by
  intro toks text rest h
  obtain ⟨⟨lhs, rest'⟩, hlhs, hloop⟩ := bind_eq_ok.1 h
  obtain ⟨a, us, ha, hus, rfl⟩ := hsub toks lhs rest' hlhs
  obtain ⟨e, ts, he, hts, htext⟩ := sound_leftLoop hsub hop (.up ha) hloop
  refine ⟨e, us ++ ts, he, ?_, htext⟩
  rw [hus, hts, append_assoc]

variable {values : List Text}

theorem commaList_snoc (h : values ≠ []) (v : Text) :
    commaList (values ++ [v]) = commaList values ++ [',', ' '] ++ v := by
  induction values with
  | nil => exact absurd rfl h
  | cons w values ih =>
    cases values with
    | nil => simp [commaList]
    | cons w' values =>
      have hrest := ih (cons_ne_nil _ _)
      simp only [commaList, cons_append, intersperse_cons_cons, flatten_cons] at hrest ⊢
      rw [hrest]
      simp

def ReadSoFar (display : F → Text) (values : List Text) (us : List (Token F)) : Prop :=
  (values = [] ∧ us = []) ∨ ∃ es us', us = us' ++ [.comma] ∧ SpellsValues es us' ∧ values ≠ [] ∧
      commaList values = es.lower display

theorem ReadSoFar.snoc {vs : List (Token F)} {b : Expr F .scalar} (h : ReadSoFar display values us)
    (hb : Spells .additive b vs) : ∃ e, SpellsValues e (us ++ vs) ∧
      commaList (values ++ [b.lower display]) = e.lower display := by
  rcases h with ⟨rfl, rfl⟩ | ⟨es, us', rfl, hes, hne, htext⟩
  · exact ⟨.one b, .one hb, by simp [commaList, Expr.lower]⟩
  · refine ⟨.more es b, ?_, ?_⟩
    · simpa using SpellsValues.more hes hb
    · rw [commaList_snoc hne, htext, Expr.lower]

theorem sound_valueLoop (hsub : Sound display .additive sub) {n : ℕ} {values' : List Text}
    (hus : ReadSoFar display values us) (h : valueLoop sub n values toks = .ok (values', rest)) :
    ∃ e ts, SpellsValues e (us ++ ts) ∧ toks = ts ++ rest ∧ commaList values' = e.lower display := by
  induction n generalizing values us toks with
  | zero => cases h
  | succ n ih =>
    obtain ⟨⟨v, rest'⟩, hv, hrest⟩ := bind_eq_ok.1 h
    obtain ⟨b, vs, hb, rfl, rfl⟩ := hsub toks v rest' hv
    obtain ⟨e, he, htext⟩ := hus.snoc hb
    dsimp only at hrest
    split at hrest
    · rename_i rest''
      have hmore : ReadSoFar display (values ++ [b.lower display]) (us ++ vs ++ [.comma]) :=
        .inr ⟨e, us ++ vs, rfl, he, by simp, htext⟩
      obtain ⟨e', ts, he', rfl, htext'⟩ := ih hmore hrest
      refine ⟨e', vs ++ .comma :: ts, ?_, by simp, htext'⟩
      simpa using he'
    · cases hrest
      exact ⟨e, vs, he, rfl, htext⟩

def TakesFront (p : Parser F) : Prop := ∀ toks text rest, p toks = .ok (text, rest) → ∃ ts, toks = ts ++ rest

theorem Sound.takesFront {l : Level} {p : Parser F} (h : Sound display l p) : TakesFront p := by
  intro toks text rest hp
  obtain ⟨-, ts, -, hts, -⟩ := h toks text rest hp
  exact ⟨ts, hts⟩

theorem takesFront_valueLoop (hsub : TakesFront sub) {n : ℕ} {values' : List Text}
    (h : valueLoop sub n values toks = .ok (values', rest)) : ∃ ts, toks = ts ++ rest := by
  induction n generalizing values toks with
  | zero => cases h
  | succ n ih =>
    obtain ⟨⟨v, rest'⟩, hv, hrest⟩ := bind_eq_ok.1 h
    obtain ⟨us, rfl⟩ := hsub toks v rest' hv
    dsimp only at hrest
    split at hrest
    · obtain ⟨ts, rfl⟩ := ih hrest
      exact ⟨us ++ .comma :: ts, by simp⟩
    · cases hrest
      exact ⟨us, rfl⟩

theorem takesFront_parseArgs {expr : Parser F} (hexpr : TakesFront expr) {args : List Text}
    (h : parseArgs expr toks = .ok (args, rest)) : ∃ ts, toks = ts ++ rest := by
  unfold parseArgs at h
  split at h
  · cases h
    exact ⟨[.rparen], rfl⟩
  · obtain ⟨⟨args', rest'⟩, hloop, hrest⟩ := bind_eq_ok.1 h
    obtain ⟨⟨_, rest''⟩, hparen, hok⟩ := bind_eq_ok.1 hrest
    obtain ⟨ts, rfl⟩ := takesFront_valueLoop hexpr hloop
    obtain ⟨-, hrest'⟩ := expectRParen_eq_ok hparen
    cases hok
    rw [hrest']
    exact ⟨ts ++ [.rparen], by simp⟩

section Levels

variable {expr : Parser F}

theorem lower_nameExpr (name : Text) : (nameExpr name : Expr F .scalar).lower display = nameText name := by
  unfold nameExpr nameText
  split
  · rfl
  · split
    · rfl
    · split
      · rfl
      · rfl

theorem sound_parseAtom (hexpr : Sound display .or expr) : Sound display .atom (parseAtom display expr) := by
  intro toks text rest
  fun_cases parseAtom display expr toks with
  | case1 | case9 | case11 => exact fun h => by cases h
  | case2 n rest' =>
    intro h
    cases h
    exact ⟨_, _, .int n, rfl, rfl⟩
  | case3 f rest' =>
    intro h
    cases h
    exact ⟨_, _, .real f, rfl, rfl⟩
  | case4 s rest' =>
    intro h
    cases h
    exact ⟨_, _, .str s, rfl, rfl⟩
  | case5 d rest' =>
    intro h
    obtain ⟨sql, -, hok⟩ := bind_eq_ok.1 h
    cases hok
    exact ⟨_, _, .duration d text, rfl, rfl⟩
  | case6 rest' =>
    intro h
    obtain ⟨⟨inner, rest''⟩, hinner, hparen⟩ := bind_eq_ok.1 h
    obtain ⟨e, ts, he, rfl, rfl⟩ := hexpr _ _ _ hinner
    obtain ⟨rfl, rfl⟩ := expectRParen_eq_ok hparen
    exact ⟨_, _, .paren he, by simp, rfl⟩
  | case7 rest' =>
    intro h
    cases h
    exact ⟨.foreign ['*'], _, .star _, rfl, rfl⟩
  | case8 name rest' =>
    intro h
    obtain ⟨⟨args, rest''⟩, hargs, hcall⟩ := bind_eq_ok.1 h
    obtain ⟨ts, rfl⟩ := takesFront_parseArgs hexpr.takesFront hargs
    dsimp only at hcall
    split at hcall
    · rename_i sql hsql
      cases hcall
      exact ⟨_, _, .call ts hsql, rfl, rfl⟩
    · cases hcall
  | case10 name rest' =>
    intro h
    cases h
    exact ⟨_, _, .name name, rfl, (lower_nameExpr name).symm⟩

theorem sound_parseUnary (hexpr : Sound display .or expr) : Sound display .unary (parseUnary display expr) := by
  intro toks
  fun_induction parseUnary display expr toks with
  | case1 toks' ih =>
    intro text rest h
    obtain ⟨⟨inner, rest'⟩, hinner, hok⟩ := bind_eq_ok.1 h
    obtain ⟨e, ts, he, rfl, rfl⟩ := ih inner rest' hinner
    cases hok
    exact ⟨_, _, .neg he, rfl, rfl⟩
  | case2 toks' =>
    intro text rest h
    obtain ⟨e, ts, he, hts, htext⟩ := sound_parseAtom hexpr _ _ _ h
    exact ⟨e, ts, .up he, hts, htext⟩

theorem leftOp_multiplicative (t : Token F) (o : Text) (h : multiplicativeOp t = some o) :
    ∃ b, leftOp .multiplicative t = some b ∧ sqlOp b = o := by
  unfold multiplicativeOp at h
  split at h <;> cases h
  · exact ⟨.mul, rfl, rfl⟩
  · exact ⟨.div, rfl, rfl⟩
  · exact ⟨.mod, rfl, rfl⟩

theorem leftOp_additive (t : Token F) (o : Text) (h : additiveOp t = some o) :
    ∃ b, leftOp .additive t = some b ∧ sqlOp b = o := by
  unfold additiveOp at h
  split at h <;> cases h
  · exact ⟨.add, rfl, rfl⟩
  · exact ⟨.sub, rfl, rfl⟩

theorem leftOp_and (t : Token F) (o : Text) (h : andOp t = some o) : ∃ b, leftOp .and t = some b ∧ sqlOp b = o := by
  unfold andOp at h
  split at h
  · rename_i w
    split at h
    · rename_i hw
      cases h
      exact ⟨.and, by simp [leftOp, hw], rfl⟩
    · cases h
  · cases h

theorem leftOp_or (t : Token F) (o : Text) (h : orOp t = some o) : ∃ b, leftOp .or t = some b ∧ sqlOp b = o := by
  unfold orOp at h
  split at h
  · rename_i w
    split at h
    · rename_i hw
      cases h
      exact ⟨.or, by simp [leftOp, hw], rfl⟩
    · cases h
  · cases h

theorem sound_parseAdditive (hexpr : Sound display .or expr) : Sound display .additive (parseAdditive display expr) :=
  sound_leftAssoc (sound_leftAssoc (sound_parseUnary hexpr) leftOp_multiplicative) leftOp_additive

variable {a : Expr F .scalar} {us toks rest : List (Token F)}

theorem sound_parseBetween (hexpr : Sound display .or expr) (ha : Spells .additive a us) {text : Text}
    (h : parseBetween display expr (a.lower display) toks = .ok (text, rest)) :
    ∃ e ts, Spells .comparison e (us ++ .ident "between".toList :: ts) ∧ toks = ts ++ rest ∧
      text = e.lower display := by
  have hadd := sound_parseAdditive hexpr
  unfold parseBetween at h
  split at h
  · rename_i toks'
    obtain ⟨⟨low, rest'⟩, hlow, htail⟩ := bind_eq_ok.1 h
    obtain ⟨b, vs, hb, rfl, rfl⟩ := hadd _ _ _ hlow
    dsimp only at htail
    split at htail
    · rename_i rest''
      obtain ⟨⟨high, rest₃⟩, hhigh, hparen⟩ := bind_eq_ok.1 htail
      obtain ⟨c, ws, hc, rfl, rfl⟩ := hadd _ _ _ hhigh
      obtain ⟨rfl, rfl⟩ := expectRParen_eq_ok hparen
      exact ⟨_, _, .between ha hb hc, by simp, rfl⟩
    · cases htail
  · cases h

theorem sound_parseIn (hexpr : Sound display .or expr) (ha : Spells .additive a us) {w : Text}
    (hw : w.map Char.toLower = "in".toList) {text : Text}
    (h : parseIn display expr (a.lower display) toks = .ok (text, rest)) :
    ∃ e ts, Spells .comparison e (us ++ .ident w :: ts) ∧ toks = ts ++ rest ∧ text = e.lower display := by
  unfold parseIn at h
  split at h
  · rename_i toks'
    obtain ⟨⟨values, rest'⟩, hvalues, hparen⟩ := bind_eq_ok.1 h
    obtain ⟨vs, ts, hvs, rfl, htext⟩ := sound_valueLoop (sound_parseAdditive hexpr) (.inl ⟨rfl, rfl⟩) hvalues
    obtain ⟨rfl, rfl⟩ := expectRParen_eq_ok hparen
    exact ⟨_, _, .inList hw ha hvs, by simp, by rw [inText, htext, Expr.lower]⟩
  · cases h

theorem comparisonOp_cases {t : Token F} {f : Text → Text → Text} (h : comparisonOp t = some f) :
    (∃ op, compareOp t = some op ∧ f = fun lhs rhs => binary lhs (sqlOp op) rhs) ∨ ∃ w, t = .ident w ∧ w ∈ textOps := by
  unfold comparisonOp at h
  split at h
  case h_7 w =>
    refine .inr ⟨w, rfl, ?_⟩
    split at h
    · rename_i hw
      exact hw ▸ .head _
    · split at h
      · rename_i hw
        exact hw ▸ .tail _ (.head _)
      · split at h
        · rename_i hw
          exact hw ▸ .tail _ (.tail _ (.head _))
        · split at h
          · rename_i hw
            exact hw ▸ .tail _ (.tail _ (.tail _ (.head _)))
          · cases h
  case h_8 => cases h
  all_goals
    cases h
    exact .inl ⟨_, rfl, rfl⟩

theorem sound_compareWith (hexpr : Sound display .or expr) (ha : Spells .additive a us) {t : Token F}
    {text : Text}
    (h : parseComparisonTail.compareWith display expr (a.lower display) (t :: toks) t toks = .ok (text, rest)) :
    ∃ e ts, Spells .comparison e (us ++ ts) ∧ t :: toks = ts ++ rest ∧ text = e.lower display := by
  unfold parseComparisonTail.compareWith at h
  split at h
  · cases h
    exact ⟨a, [], by rw [append_nil]; exact .up ha, rfl, rfl⟩
  · rename_i f hf
    obtain ⟨⟨rhs, rest'⟩, hrhs, hok⟩ := bind_eq_ok.1 h
    obtain ⟨b, vs, hb, rfl, rfl⟩ := sound_parseAdditive hexpr _ _ _ hrhs
    cases hok
    rcases comparisonOp_cases hf with ⟨op, hop, rfl⟩ | ⟨w, rfl, hw⟩
    · exact ⟨_, _, .compare hop ha hb, rfl, rfl⟩
    · exact ⟨.foreign (f (a.lower display) (b.lower display)), _, .text hw ha hb, rfl, rfl⟩

theorem sound_parseComparison (hexpr : Sound display .or expr) :
    Sound display .comparison (parseComparison display expr) := by
  intro toks text rest h
  obtain ⟨⟨lhs, rest'⟩, hlhs, htail⟩ := bind_eq_ok.1 h
  obtain ⟨a, us, ha, rfl, rfl⟩ := sound_parseAdditive hexpr _ _ _ hlhs
  unfold parseComparisonTail at htail
  cases rest' with
  | nil =>
    cases htail
    exact ⟨a, us, .up ha, rfl, rfl⟩
  | cons t toks' =>
    dsimp only at htail
    split at htail
    · rename_i w
      split at htail
      · rename_i hw
        obtain ⟨e, ts, he, rfl, htext⟩ := sound_parseBetween hexpr ha htail
        exact ⟨e, _, hw ▸ he, by simp, htext⟩
      · split at htail
        · rename_i hw
          obtain ⟨e, ts, he, rfl, htext⟩ := sound_parseIn hexpr ha hw htail
          exact ⟨e, _, he, by simp, htext⟩
        · obtain ⟨e, ts, he, hts, htext⟩ := sound_compareWith hexpr ha htail
          exact ⟨e, _, he, by rw [hts, append_assoc], htext⟩
    · obtain ⟨e, ts, he, hts, htext⟩ := sound_compareWith hexpr ha htail
      exact ⟨e, _, he, by rw [hts, append_assoc], htext⟩

theorem sound_parseNot (hexpr : Sound display .or expr) : Sound display .not (parseNot display expr) := by
  intro toks
  fun_induction parseNot display expr toks with
  | case1 toks' ih =>
    intro text rest h
    obtain ⟨⟨inner, rest'⟩, hinner, hok⟩ := bind_eq_ok.1 h
    obtain ⟨e, ts, he, rfl, rfl⟩ := ih inner rest' hinner
    cases hok
    exact ⟨_, _, .not he, rfl, rfl⟩
  | case2 w toks' | case3 toks' =>
    intro text rest h
    obtain ⟨e, ts, he, hts, htext⟩ := sound_parseComparison hexpr _ _ _ h
    exact ⟨e, ts, .up he, hts, htext⟩

theorem sound_parseOr (hexpr : Sound display .or expr) : Sound display .or (parseOr display expr) :=
  sound_leftAssoc (sound_leftAssoc (sound_parseNot hexpr) leftOp_and) leftOp_or

end Levels

theorem sound_parseDepth (n : ℕ) : Sound display .or (parseDepth display n) := by
  induction n with
  | zero => exact fun _ _ _ h => by cases h
  | succ n ih => exact sound_parseOr ih

theorem parseExpr_sound : Sound display .or (parseExpr (F := F) display) := fun toks => sound_parseDepth _ toks

end Soundness

end KqlExpr
