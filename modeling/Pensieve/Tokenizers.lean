/-
**The tokenizers.**

A word is a run of ASCII letters and digits, in lower case, and a token is a word of two bytes or more.  The writer of
an extent, the planner and the index of full text each have a scanner of their own; the tokenizer that is handed to the
index also says where in the text each token stands, in bytes.
-/

import Pensieve.TextPrune

namespace Fts

open List
open Like (words wordsFrom)

/-! ### The scanner of the index -/

def minTokenLen : ℕ := 2

/-- `len` of a string, in bytes. -/
def byteLen (cs : List Char) : ℕ := (cs.map Char.utf8Size).sum

/-- The loop of `tokenize`: the word being read and the tokens so far. -/
def tokenizeLoop : List Char → List String → List Char → List String
  | cur, out, [] => if minTokenLen ≤ byteLen cur then out ++ [String.ofList cur] else out
  | cur, out, c :: cs =>
    if c.isAlphanum then tokenizeLoop (cur ++ [c.toLower]) out cs
    else if cur ≠ [] then
      if minTokenLen ≤ byteLen cur then tokenizeLoop [] (out ++ [String.ofList cur]) cs
      else tokenizeLoop [] out cs
    else tokenizeLoop cur out cs

def tokenize (s : String) : List String := tokenizeLoop [] [] s.toList

/-! ### The stream -/

structure Token where
  offsetFrom : ℕ
  offsetTo : ℕ
  position : ℕ
  text : String
  positionLength : ℕ
  deriving DecidableEq

/-- The variables of `token_stream`. -/
structure Scan where
  tokens : List Token
  pos : ℕ
  cur : List Char
  startByte : ℕ
  byte : ℕ
  deriving DecidableEq

def Scan.start : Scan := ⟨[], 0, [], 0, 0⟩

def Scan.token (s : Scan) : Token := ⟨s.startByte, s.byte, s.pos, String.ofList s.cur, 1⟩

def Scan.read (s : Scan) (c : Char) : Scan :=
  if c.isAlphanum then
    { s with
      startByte := if s.cur = [] then s.byte else s.startByte
      cur := s.cur ++ [c.toLower] }
  else if s.cur ≠ [] then
    if minTokenLen ≤ byteLen s.cur then
      { s with
        tokens := s.tokens ++ [s.token]
        cur := []
        pos := s.pos + 1 }
    else { s with cur := [] }
  else s

def Scan.step (s : Scan) (c : Char) : Scan := { s.read c with byte := s.byte + c.utf8Size }

def Scan.finish (s : Scan) : List Token :=
  if minTokenLen ≤ byteLen s.cur then s.tokens ++ [s.token] else s.tokens

structure VecTokenStream where
  tokens : List Token
  idx : ℕ
  deriving DecidableEq

/-- `PensieveWordTokenizer::token_stream` -/
def tokenStream (text : String) : VecTokenStream := ⟨(text.toList.foldl Scan.step Scan.start).finish, 0⟩

/-- `advance`; `none` is `false`, where the stream stays as it is. -/
def VecTokenStream.advance (s : VecTokenStream) : Option VecTokenStream :=
  if s.idx < s.tokens.length then some { s with idx := s.idx + 1 } else none

/-- `token`, which indexes out of bounds before the first `advance`. -/
def VecTokenStream.token (s : VecTokenStream) : Option Token :=
  if s.idx = 0 then none else s.tokens[s.idx - 1]?

theorem VecTokenStream.advance_eq_some {s s' : VecTokenStream} (h : s.advance = some s') :
    s.idx < s.tokens.length ∧ s' = { s with idx := s.idx + 1 } := by
  unfold advance at h
  split at h
  next hlt => exact ⟨hlt, (Option.some.inj h).symm⟩
  next => cases h

/-- The tokens that `while stream.advance()` comes upon. -/
def VecTokenStream.drain (s : VecTokenStream) : List Token :=
  match _h : s.advance with
  | none => []
  | some s' => s'.token.toList ++ s'.drain
  termination_by s.tokens.length - s.idx
  decreasing_by
    obtain ⟨hlt, rfl⟩ := advance_eq_some _h
    simp only
    omega

theorem VecTokenStream.drain_eq (s : VecTokenStream) : s.drain = s.tokens.drop s.idx := by
  induction hn : s.tokens.length - s.idx generalizing s with
  | zero =>
    have hnone : s.advance = none := if_neg (by omega)
    rw [drain]
    split
    · rw [drop_eq_nil_of_le (by omega)]
    · rename_i h
      rw [hnone] at h
      cases h
  | succ n ih =>
    have hlt : s.idx < s.tokens.length := by omega
    rw [drain]
    split
    · rename_i h
      rw [VecTokenStream.advance, if_pos hlt] at h
      cases h
    · rename_i s' h
      obtain ⟨-, rfl⟩ := advance_eq_some h
      rw [ih _ (by simp only; omega), drop_eq_getElem_cons hlt]
      simp [token, getElem?_eq_getElem hlt]

theorem drain_tokenStream (text : String) :
    (tokenStream text).drain = (text.toList.foldl Scan.step Scan.start).finish := by
  rw [VecTokenStream.drain_eq]
  rfl

/-! ### Words of ASCII -/

theorem byteLen_append (a b : List Char) : byteLen (a ++ b) = byteLen a + byteLen b := by
  simp [byteLen]

theorem utf8Size_of_isAlphanum {c : Char} (h : c.isAlphanum = true) : c.utf8Size = 1 := by
  delta Char.isAlphanum Char.isAlpha Char.isUpper Char.isLower at h
  simp only [Char.isDigit, Bool.or_eq_true, Bool.and_eq_true, decide_eq_true_eq, UInt32.le_iff_toNat_le, ge_iff_le] at h
  rw [Char.utf8Size_eq_one_iff, UInt32.le_iff_toNat_le]
  have hz : 'z'.val.toNat = 122 := rfl
  have hZ : 'Z'.val.toNat = 90 := rfl
  have h9 : '9'.val.toNat = 57 := rfl
  have hmax : (127 : UInt32).toNat = 127 := rfl
  omega

def Plain (cs : List Char) : Prop := ∀ c ∈ cs, c.isAlphanum = true

theorem Plain.append {a b : List Char} (ha : Plain a) (hb : Plain b) : Plain (a ++ b) := by
  intro c hc
  rcases mem_append.1 hc with hc | hc
  · exact ha c hc
  · exact hb c hc

theorem plain_singleton {c : Char} (h : c.isAlphanum = true) : Plain [c] := by
  intro d hd
  rwa [mem_singleton.1 hd]

theorem Plain.byteLen_eq {cs : List Char} (h : Plain cs) : byteLen cs = cs.length := by
  induction cs with
  | nil => rfl
  | cons c cs ih =>
    have hc := utf8Size_of_isAlphanum (h c mem_cons_self)
    have hcs := ih fun d hd => h d (mem_cons_of_mem _ hd)
    unfold byteLen at hcs ⊢
    rw [map_cons, sum_cons, hc, hcs, length_cons]
    omega

theorem isAlphanum_toLower {c : Char} (h : c.isAlphanum = true) : c.toLower.isAlphanum = true := by
  by_cases hc : c.val ≥ 'A'.val ∧ c.val ≤ 'Z'.val
  · unfold Char.toLower
    rw [dif_pos hc]
    delta Char.isAlphanum Char.isAlpha Char.isUpper Char.isLower
    simp only [Char.isDigit, Bool.or_eq_true, Bool.and_eq_true, decide_eq_true_eq, UInt32.le_iff_toNat_le, ge_iff_le,
      UInt32.toNat_add] at hc ⊢
    have hA : 'A'.val.toNat = 65 := rfl
    have hZ : 'Z'.val.toNat = 90 := rfl
    have ha : 'a'.val.toNat = 97 := rfl
    have hz : 'z'.val.toNat = 122 := rfl
    have h32 : ('a'.val - 'A'.val).toNat = 32 := rfl
    omega
  · have hsame : c.toLower = c := by
      unfold Char.toLower
      exact dif_neg hc
    rwa [hsame]

theorem mem_tokenizeLoop {cur : List Char} {out : List String} {cs : List Char} {t : String} (hcur : Plain cur) :
    t ∈ tokenizeLoop cur out cs ↔
      t ∈ out ∨ ∃ w ∈ wordsFrom Char.isAlphanum Char.toLower cur cs, 2 ≤ w.length ∧ t = String.ofList w := by
  induction cs generalizing cur out with
  | nil =>
    rw [tokenizeLoop, hcur.byteLen_eq]
    by_cases hlen : minTokenLen ≤ cur.length
    · have h2 : 2 ≤ cur.length := hlen
      rw [if_pos hlen]
      simp [wordsFrom, h2]
    · have h2 : ¬2 ≤ cur.length := hlen
      rw [if_neg hlen]
      simp [wordsFrom, h2]
  | cons c cs ih =>
    rw [tokenizeLoop, wordsFrom]
    by_cases hc : c.isAlphanum = true
    · rw [if_pos hc, if_pos hc]
      exact ih (hcur.append (plain_singleton (isAlphanum_toLower hc)))
    · have hnil : Plain [] := fun d hd => absurd hd not_mem_nil
      rw [if_neg hc, if_neg hc, hcur.byteLen_eq]
      simp only [exists_mem_cons_iff]
      split
      · split
        next hlen =>
          have h2 : 2 ≤ cur.length := hlen
          rw [ih hnil, mem_append, mem_singleton]
          tauto
        next hlen =>
          have h2 : ¬2 ≤ cur.length := hlen
          rw [ih hnil]
          tauto
      · next hempty =>
          rw [not_not.1 hempty, ih hnil]
          simp

theorem mem_tokenize {s t : String} :
    t ∈ tokenize s ↔ ∃ w ∈ Exec.textWords s.toList, 2 ≤ w.length ∧ t = String.ofList w := by
  rw [tokenize, mem_tokenizeLoop fun d hd => absurd hd not_mem_nil]
  simp [Exec.textWords, words]

/-! ### What the scanner knows -/

theorem map_text_finish (cs : List Char) (s : Scan) :
    ((cs.foldl Scan.step s).finish).map (·.text) = tokenizeLoop s.cur (s.tokens.map (·.text)) cs := by
  induction cs generalizing s with
  | nil =>
    rw [foldl_nil, Scan.finish, tokenizeLoop]
    split <;> simp [Scan.token]
  | cons c cs ih =>
    rw [foldl_cons, ih, tokenizeLoop, Scan.step, Scan.read]
    split
    · rfl
    · split
      · split <;> simp [Scan.token]
      · rfl

def Stands (text : List Char) (t : Token) : Prop :=
  ∃ before w after, text = before ++ (w ++ after) ∧ Plain w ∧ t.text = String.ofList (w.map Char.toLower) ∧
    t.offsetFrom = byteLen before ∧ t.offsetTo = byteLen before + byteLen w

variable {text : List Char}

theorem Stands.append {t : Token} (h : Stands text t) (rest : List Char) : Stands (text ++ rest) t := by
  obtain ⟨before, w, after, rfl, hw⟩ := h
  exact ⟨before, w, after ++ rest, by simp, hw⟩

structure Scanned (text : List Char) (s : Scan) : Prop where
  byte : s.byte = byteLen text
  pos : s.pos = s.tokens.length
  positions : s.tokens.map (·.position) = List.range s.tokens.length
  word : ∃ before w, text = before ++ w ∧ Plain w ∧ s.cur = w.map Char.toLower ∧
    (s.cur ≠ [] → s.startByte = byteLen before)
  stands : ∀ t ∈ s.tokens, Stands text t

theorem Scanned.start : Scanned [] Scan.start where
  byte := rfl
  pos := rfl
  positions := rfl
  word := ⟨[], [], rfl, fun _ hd => absurd hd not_mem_nil, rfl, fun h => absurd rfl h⟩
  stands _ ht := absurd ht not_mem_nil

variable {s : Scan}

theorem Scanned.stands_token (h : Scanned text s) (hcur : s.cur ≠ []) : Stands text s.token := by
  obtain ⟨before, w, rfl, hw, hlower, hstart⟩ := h.word
  refine ⟨before, w, [], by simp, hw, ?_, hstart hcur, ?_⟩
  · rw [Scan.token, hlower]
  · rw [Scan.token, h.byte, byteLen_append]

theorem Scanned.positions_append (h : Scanned text s) :
    (s.tokens ++ [s.token]).map (·.position) = List.range (s.tokens ++ [s.token]).length := by
  rw [map_append, h.positions, length_append, length_singleton, range_succ, map_singleton, Scan.token, h.pos]

theorem Scanned.step (h : Scanned text s) (c : Char) : Scanned (text ++ [c]) (s.step c) := by
  have hbyte : s.byte + c.utf8Size = byteLen (text ++ [c]) := by
    rw [h.byte, byteLen_append]
    rfl
  -- a character that ends a word begins no other one
  have hnone : ∃ before w, text ++ [c] = before ++ w ∧ Plain w ∧ [] = w.map Char.toLower ∧
      (([] : List Char) ≠ [] → s.startByte = byteLen before) :=
    ⟨text ++ [c], [], by simp, fun _ hd => absurd hd not_mem_nil, rfl, fun hne => absurd rfl hne⟩
  unfold Scan.step Scan.read
  by_cases hc : c.isAlphanum = true
  · rw [if_pos hc]
    obtain ⟨before, w, htext, hw, hlower, hstart⟩ := h.word
    refine ⟨hbyte, h.pos, h.positions, ⟨before, w ++ [c], ?_, ?_, ?_, fun _ => ?_⟩, fun t ht => ?_⟩
    · rw [htext, append_assoc]
    · exact hw.append (plain_singleton hc)
    · simp [hlower]
    · by_cases hempty : s.cur = []
      · have hw' : w = [] := by simpa [hempty] using hlower.symm
        rw [if_pos hempty, h.byte, htext, hw', append_nil]
      · rw [if_neg hempty]
        exact hstart hempty
    · exact (h.stands t ht).append [c]
  · rw [if_neg hc]
    by_cases hempty : s.cur = []
    · rw [if_neg (not_not.2 hempty)]
      exact ⟨hbyte, h.pos, h.positions, by simpa only [hempty] using hnone, fun t ht => (h.stands t ht).append [c]⟩
    · rw [if_pos hempty]
      by_cases hlen : minTokenLen ≤ byteLen s.cur
      · rw [if_pos hlen]
        refine ⟨hbyte, ?_, h.positions_append, hnone, fun t ht => ?_⟩
        · rw [length_append, h.pos, length_singleton]
        · rcases mem_append.1 ht with ht | ht
          · exact (h.stands t ht).append [c]
          · rw [mem_singleton.1 ht]
            exact (h.stands_token hempty).append [c]
      · rw [if_neg hlen]
        exact ⟨hbyte, h.pos, h.positions, hnone, fun t ht => (h.stands t ht).append [c]⟩

theorem Scanned.foldl (h : Scanned text s) (cs : List Char) : Scanned (text ++ cs) (cs.foldl Scan.step s) := by
  induction cs generalizing text s with
  | nil => rwa [append_nil]
  | cons c cs ih =>
    have hnext := ih (h.step c)
    rwa [append_assoc, singleton_append] at hnext

theorem Scanned.finish (h : Scanned text s) :
    s.finish.map (·.position) = List.range s.finish.length ∧ ∀ t ∈ s.finish, Stands text t := by
  unfold Scan.finish
  split
  next hlen =>
    have hcur : s.cur ≠ [] := by
      intro hempty
      rw [hempty] at hlen
      exact absurd hlen (by decide)
    refine ⟨h.positions_append, fun t ht => ?_⟩
    rcases mem_append.1 ht with ht | ht
    · exact h.stands t ht
    · rw [mem_singleton.1 ht]
      exact h.stands_token hcur
  next => exact ⟨h.positions, h.stands⟩

/-! ### Slices -/

def dropBytes : ℕ → List Char → Option (List Char)
  | 0, cs => some cs
  | _ + 1, [] => none
  | n + 1, c :: cs => if c.utf8Size ≤ n + 1 then dropBytes (n + 1 - c.utf8Size) cs else none

def takeBytes : ℕ → List Char → Option (List Char)
  | 0, _ => some []
  | _ + 1, [] => none
  | n + 1, c :: cs => if c.utf8Size ≤ n + 1 then (takeBytes (n + 1 - c.utf8Size) cs).map (c :: ·) else none

/-- `str::get`, which gives nothing if an offset is not a boundary. -/
def slice (text : List Char) (offsetFrom offsetTo : ℕ) : Option (List Char) :=
  if offsetFrom ≤ offsetTo then dropBytes offsetFrom text >>= takeBytes (offsetTo - offsetFrom) else none

theorem byteLen_cons (c : Char) (cs : List Char) : byteLen (c :: cs) = c.utf8Size + byteLen cs := by
  simp [byteLen]

theorem dropBytes_append (before cs : List Char) : dropBytes (byteLen before) (before ++ cs) = some cs := by
  induction before with
  | nil => simp [byteLen, dropBytes]
  | cons c before ih =>
    obtain ⟨n, hn⟩ : ∃ n, c.utf8Size = n + 1 := ⟨c.utf8Size - 1, by have := c.utf8Size_pos; omega⟩
    rw [byteLen_cons, hn, Nat.add_right_comm, cons_append, dropBytes, hn, if_pos (by omega),
      show n + byteLen before + 1 - (n + 1) = byteLen before by omega, ih]

theorem takeBytes_append (w after : List Char) : takeBytes (byteLen w) (w ++ after) = some w := by
  induction w with
  | nil => simp [byteLen, takeBytes]
  | cons c w ih =>
    obtain ⟨n, hn⟩ : ∃ n, c.utf8Size = n + 1 := ⟨c.utf8Size - 1, by have := c.utf8Size_pos; omega⟩
    rw [byteLen_cons, hn, Nat.add_right_comm, cons_append, takeBytes, hn, if_pos (by omega),
      show n + byteLen w + 1 - (n + 1) = byteLen w by omega, ih, Option.map_some]

theorem Stands.slice {t : Token} (h : Stands text t) :
    ∃ w, Fts.slice text t.offsetFrom t.offsetTo = some w ∧ Plain w ∧ String.ofList (w.map Char.toLower) = t.text := by
  obtain ⟨before, w, after, rfl, hw, htext, hfrom, hto⟩ := h
  refine ⟨w, ?_, hw, htext.symm⟩
  rw [Fts.slice, hfrom, hto, if_pos (by omega), dropBytes_append, Nat.add_sub_cancel_left]
  exact takeBytes_append w after

/-- **All tokenizers agree**: the sets of the writer and of the planner are the set of the index, the stream hands out
the tokens of the index in their order and at consecutive positions, and the offsets of each cut out of the text the
letters of its word. -/
theorem tokenizers_agree (text : String) : (∀ t, t ∈ Tlm.tokenize text [] ↔ t ∈ tokenize text) ∧
      (∀ t, t ∈ Exec.pensieveFormatTlmTokenizeLike text [] ↔ t ∈ tokenize text) ∧
      (tokenStream text).drain.map (·.text) = tokenize text ∧
      (tokenStream text).drain.map (·.position) = List.range (tokenize text).length ∧
      ∀ t ∈ (tokenStream text).drain, ∃ w, slice text.toList t.offsetFrom t.offsetTo = some w ∧ Plain w ∧
        String.ofList (w.map Char.toLower) = t.text := by
  have hwriter : ∀ t, t ∈ Tlm.tokenize text [] ↔ t ∈ tokenize text := by
    intro t
    rw [Exec.mem_tokenize, mem_tokenize]
    simp
  have htexts : (tokenStream text).drain.map (·.text) = tokenize text := by
    rw [drain_tokenStream, map_text_finish]
    rfl
  have hfinish := (Scanned.start.foldl text.toList).finish
  rw [nil_append, ← drain_tokenStream] at hfinish
  refine ⟨hwriter, fun t => ?_, htexts, ?_, fun t ht => (hfinish.2 t ht).slice⟩
  · rw [Exec.tokenizeLike_eq]
    exact hwriter t
  · rw [hfinish.1, ← htexts, length_map]

end Fts
