/-
**Text pruning.**

A `LIKE` filter on a string column becomes a test of the extent's token set: the extent must contain
every token of the pattern's text.
-/

import Mathlib.Data.List.DropRight
import Pensieve.EqualityPrune

namespace Exec

open List
open Arrow Catalog Like

variable {F : Type} [Field F] [LinearOrder F] [HasSqrt F]

/-! ### Tokens and words -/

def textWords (s : List Char) : List (List Char) := words Char.isAlphanum Char.toLower s

variable {out : List String} {t : String}

theorem mem_insertToken {cur : List Char} :
    t ∈ Tlm.insertToken cur out ↔ t ∈ out ∨ 2 ≤ cur.length ∧ t = String.ofList cur := by
  unfold Tlm.insertToken
  split
  · rename_i hlen
    rw [mem_insert_iff]
    tauto
  · rename_i hlen
    tauto

theorem mem_tokenizeLoop {cur : List Char} {cs : List Char} :
    t ∈ Tlm.tokenizeLoop cur out cs ↔ t ∈ out ∨ ∃ w ∈ wordsFrom Char.isAlphanum Char.toLower cur cs,
        2 ≤ w.length ∧ t = String.ofList w := by
  induction cs generalizing cur out with
  | nil => simp [Tlm.tokenizeLoop, wordsFrom, mem_insertToken]
  | cons c cs ih =>
    rw [Tlm.tokenizeLoop, wordsFrom]
    split
    · exact ih
    · split
      · rw [ih, mem_insertToken]
        simp only [exists_mem_cons_iff]
        tauto
      · rename_i hcur
        rw [not_not.mp hcur, ih]
        simp

theorem mem_tokenize {s : String} :
    t ∈ Tlm.tokenize s out ↔ t ∈ out ∨ ∃ w ∈ textWords s.toList, 2 ≤ w.length ∧ t = String.ofList w :=
  mem_tokenizeLoop

theorem length_insertToken_le (cur : List Char) (out : List String) :
    (Tlm.insertToken cur out).length ≤ out.length + 1 := by
  unfold Tlm.insertToken
  split
  · by_cases h : String.ofList cur ∈ out
    · rw [insert_of_mem h]
      omega
    · rw [length_insert_of_not_mem h]
  · omega

theorem length_tokenizeLoop_le (cur : List Char) (out : List String) (cs : List Char) :
    (Tlm.tokenizeLoop cur out cs).length ≤ out.length + (wordsFrom Char.isAlphanum Char.toLower cur cs).length := by
  induction cs generalizing cur out with
  | nil => simpa [wordsFrom, Tlm.tokenizeLoop] using length_insertToken_le cur out
  | cons c cs ih =>
    rw [Tlm.tokenizeLoop, wordsFrom]
    split
    · exact ih _ _
    · rw [length_cons]
      split
      · have h₁ := ih [] (Tlm.insertToken cur out)
        have h₂ := length_insertToken_le cur out
        omega
      · rename_i hcur
        have h := ih [] out
        rw [not_not.mp hcur]
        omega

/-! ### Trimming wildcards -/

theorem textWords_cons_sep {c : Char} (hc : c.isAlphanum = false) (s : List Char) :
    textWords (c :: s) = [] :: textWords s :=
  words_append_sep hc [] s

theorem mem_textWords_dropWhile {s w : List Char} (hw : w ≠ []) :
    w ∈ textWords (s.dropWhile (· = '%')) ↔ w ∈ textWords s := by
  induction s with
  | nil => rfl
  | cons c s ih =>
    by_cases hc : c = '%'
    · rw [dropWhile_cons_of_pos (by simpa using hc), ih, hc, textWords_cons_sep (by decide), mem_cons]
      tauto
    · rw [dropWhile_cons_of_neg (by simpa using hc)]

theorem mem_textWords_rdropWhile {s w : List Char} (hw : w ≠ []) :
    w ∈ textWords (s.rdropWhile (· = '%')) ↔ w ∈ textWords s := by
  induction s using List.reverseRecOn with
  | nil => rfl
  | append_singleton s c ih =>
    by_cases hc : c = '%'
    · have hsplit : textWords (s ++ [c]) = textWords s ++ textWords [] := words_append_sep (by rw [hc]; decide) s []
      rw [rdropWhile_concat_pos _ _ _ (by simpa using hc), ih, hsplit, mem_append]
      simp [textWords, words, wordsFrom, hw]
    · rw [rdropWhile_concat_neg _ _ _ (by simpa using hc)]

variable {raw : String}

theorem mem_patternTokens : t ∈ patternTokens raw ↔ ∃ w ∈ textWords raw.toList, 2 ≤ w.length ∧ t = String.ofList w := by
  have htrim : ∀ w : List Char, w ≠ [] → (w ∈ textWords (trimMatches '%' raw).toList ↔ w ∈ textWords raw.toList) := by
    intro w hw
    rw [trimMatches, String.toList_ofList]
    exact (mem_textWords_rdropWhile hw).trans (mem_textWords_dropWhile hw)
  rw [patternTokens, mem_insertionSort, tokenizeLike_eq, mem_tokenize]
  constructor
  · intro h
    rcases h with h | ⟨w, hw, hlen, rfl⟩
    · cases h
    · exact ⟨w, (htrim w (by rintro rfl; simp at hlen)).mp hw, hlen, rfl⟩
  · intro h
    obtain ⟨w, hw, hlen, rfl⟩ := h
    exact .inr ⟨w, (htrim w (by rintro rfl; simp at hlen)).mpr hw, hlen, rfl⟩

/-! ### The token set of an extent -/

theorem foldl_pushTokens_none (strs : List String) : strs.foldl Tlm.pushTokens none = none := by
  induction strs with
  | nil => rfl
  | cons s strs ih => exact ih

theorem mem_foldl_pushTokens {strs start set : List String}
    (h : strs.foldl Tlm.pushTokens (some start) = some set) :
    t ∈ set ↔ t ∈ start ∨ ∃ s ∈ strs, t ∈ Tlm.tokenize s [] := by
  induction strs generalizing start with
  | nil =>
    cases h
    simp
  | cons s strs ih =>
    rw [foldl_cons] at h
    by_cases hcap : (Tlm.tokenize s start).length > Tlm.tokenSetCap
    · have hpush : Tlm.pushTokens (some start) s = none := if_pos hcap
      rw [hpush, foldl_pushTokens_none] at h
      cases h
    · have hpush : Tlm.pushTokens (some start) s = some (Tlm.tokenize s start) := if_neg hcap
      rw [hpush] at h
      rw [ih h, mem_tokenize, exists_mem_cons_iff]
      have hs : (∃ w ∈ textWords s.toList, 2 ≤ w.length ∧ t = String.ofList w) ↔ t ∈ Tlm.tokenize s [] := by
        simp [mem_tokenize]
      rw [hs]
      tauto

section Extent

variable {table : TableRef} {schema : Schema} {batches : List (RecordBatch F)}
  {result : Tlm.ExtentWriteResult F}

theorem tokenArray_eq (h : IsExtentOf table schema batches result) {i : ℕ} {f : Field}
    (hf : schema[i]? = some f) (htype : f.dataType = .utf8 ∨ f.dataType = .largeUtf8) :
    tokenArray result.columnStats f.name =
      (((Tlm.colCells batches i).filterMap Tlm.asStr).foldl Tlm.pushTokens (some [])).map
        fun set => (set.insertionSort (· ≤ ·)).map Json.str := by
  have hkind : Tlm.indexableKind f.dataType = some .string := by
    rcases htype with htype | htype <;> rw [htype] <;> rfl
  obtain ⟨a, ha, hrec, hget⟩ := Tlm.writeExtent_get h.distinct h.written hf hkind
  unfold Tlm.ColumnAcc.Records at hrec
  unfold Tlm.ColumnAcc.finish at hget
  rw [ha] at hrec hget
  rw [tokenArray, hget, ← hrec.2]
  cases a.tokens <;> rfl

theorem keepColumn_containsTokens (h : IsExtentOf table schema batches result) {i : ℕ} {f : Field}
    (hf : schema[i]? = some f) (htype : f.dataType = .utf8 ∨ f.dataType = .largeUtf8) {s : String}
    (hs : .str s ∈ Tlm.colCells batches i) {tokens : List String}
    (htokens : ∀ t ∈ tokens, t ∈ Tlm.tokenize s []) :
    keepColumn result.columnStats f.name (.containsTokens tokens) = true := by
  rw [keepColumn, tokenArray_eq h hf htype]
  cases hset : ((Tlm.colCells batches i).filterMap Tlm.asStr).foldl Tlm.pushTokens (some []) with
  | none => rfl
  | some set =>
    refine all_eq_true.mpr ?_
    intro t ht
    refine decide_eq_true (mem_map_of_mem ?_)
    rw [mem_insertionSort, mem_foldl_pushTokens hset]
    exact .inr ⟨s, mem_filterMap.mpr ⟨_, hs, rfl⟩, htokens t ht⟩

end Extent

/-! ### Patterns -/

omit [Field F] [LinearOrder F] [HasSqrt F] in
theorem likeSame_refl (eng : Engine F) (caseInsensitive : Bool) (c : Char) :
    likeSame eng caseInsensitive c c = true := by
  cases caseInsensitive with
  | true => exact eng.sameLetter_refl c
  | false => exact decide_eq_true rfl

theorem patternElem_sat {same : Char → Char → Bool} (hsame : ∀ c, same c c = true) {c : Char}
    {test : Char → Bool} (h : .one test = patternElem same c) : ∃ d, test d = true := by
  unfold patternElem at h
  split at h
  · cases h
  · split at h
    · cases h
      exact ⟨c, rfl⟩
    · cases h
      exact ⟨c, hsame c⟩

theorem parsePattern_sat {same : Char → Char → Bool} (hsame : ∀ c, same c c = true) (escape : Char)
    {l : List Char} {test : Char → Bool} (h : .one test ∈ parsePattern same escape l) :
    ∃ d, test d = true := by
  induction l using parsePattern.induct escape with
  | case1 => cases h
  | case2 =>
    rw [parsePattern, if_pos rfl] at h
    cases mem_singleton.mp h
    exact ⟨escape, hsame escape⟩
  | case3 c hc =>
    rw [parsePattern, if_neg hc] at h
    exact patternElem_sat hsame (mem_singleton.mp h)
  | case4 d rest ih =>
    rw [parsePattern, if_pos rfl] at h
    rcases mem_cons.mp h with h | h
    · cases h
      exact ⟨d, hsame d⟩
    · exact ih h
  | case5 c d rest hc ih =>
    rw [parsePattern, if_neg hc] at h
    rcases mem_cons.mp h with h | h
    · exact patternElem_sat hsame h
    · exact ih h

theorem parsePattern_length_le (same : Char → Char → Bool) (escape : Char) (l : List Char) :
    (parsePattern same escape l).length ≤ l.length := by
  induction l using parsePattern.induct escape with
  | case1 | case2 => simp [parsePattern]
  | case3 c hc => simp [parsePattern, hc]
  | case4 d rest ih =>
    rw [parsePattern, if_pos rfl]
    simp only [length_cons]
    omega
  | case5 c d rest hc ih =>
    rw [parsePattern, if_neg hc]
    simp only [length_cons] at ih ⊢
    omega

/-! ### When text pruning loses no row -/

/-- **Text pruning loses no row under a pattern**: every extent with a matching row passes the test
that the filter becomes. -/
def TextPruningSound (eng : Engine F) (col : String) (pattern : Expr F) (escapeChar : Option Char)
    (caseInsensitive : Bool) : Prop :=
  ∀ (table : TableRef) (schema : Schema) (batches : List (RecordBatch F))
    (result : Tlm.ExtentWriteResult F), IsExtentOf table schema batches result →
    ∀ b ∈ batches, ∀ row prune, extractTextSearch (.like (.column col) pattern false escapeChar caseInsensitive)
        (stringCols table) = some (col, prune) →
      holds eng b row (.like (.column col) pattern false escapeChar caseInsensitive) = some true →
      keepColumn result.columnStats col prune = true

/-- **Every token of a pattern is a whole word of it**: each run of two or more letters and digits in
the text of the pattern stands between ends of the pattern or characters that only separators
match, and no wildcard, escape or other reading of a letter comes in between. -/
def WholeWords (eng : Engine F) (escapeChar : Option Char) (caseInsensitive : Bool) (raw : String) : Prop :=
  ∀ w ∈ textWords raw.toList, 2 ≤ w.length →
    Forced Char.isAlphanum Char.toLower (likePattern eng escapeChar caseInsensitive raw) w

variable {col : String} {pattern : Expr F} {escapeChar : Option Char} {caseInsensitive : Bool}

omit [Field F] [LinearOrder F] [HasSqrt F] in
theorem extractTextSearch_eq_some {cols : List String} {prune : ColumnPrune (Json F) F}
    (hraw : stringLiteral pattern = some raw)
    (h : extractTextSearch (.like (.column col) pattern false escapeChar caseInsensitive) cols = some (col, prune)) :
    col ∈ cols ∧ prune = .containsTokens (patternTokens raw) := by
  unfold extractTextSearch at h
  dsimp only at h
  split at h
  · rename_i hcol
    rw [hraw] at h
    dsimp only [Option.bind_eq_bind, Option.bind_some] at h
    split at h
    · cases h
    · cases h
      exact ⟨hcol, rfl⟩
  · cases h

theorem operand_stringLiteral (eng : Engine F) (b : RecordBatch F) (row : ℕ)
    (h : stringLiteral pattern = some raw) : operand eng b row pattern = .str raw := by
  unfold stringLiteral at h
  split at h <;> cases h <;> rfl

theorem exists_of_holds_like {eng : Engine F} {b : RecordBatch F} {row : ℕ}
    (hraw : stringLiteral pattern = some raw)
    (h : holds eng b row (.like (.column col) pattern false escapeChar caseInsensitive) = some true) :
    ∃ s, columnDatum b row col = .str s ∧
      likeMatches (likePattern eng escapeChar caseInsensitive raw) s.toList = true := by
  rw [holds, operand_stringLiteral eng b row hraw] at h
  split at h
  · rename_i s p hs hp
    cases hp
    exact ⟨s, hs, by simpa [negateIf] using h⟩
  · cases h

theorem textPruningSound_of_wholeWords {eng : Engine F} (hraw : stringLiteral pattern = some raw)
    (hwords : WholeWords eng escapeChar caseInsensitive raw) :
    TextPruningSound eng col pattern escapeChar caseInsensitive := by
  intro table schema batches result hext b hb row prune hextract htrue
  obtain ⟨hcol, rfl⟩ := extractTextSearch_eq_some hraw hextract
  obtain ⟨s, hs, hmatch⟩ := exists_of_holds_like hraw htrue
  have hne : columnDatum b row col ≠ .null := by
    rw [hs]
    intro hnull
    cases hnull
  obtain ⟨i, f, v, hf, rfl, hv, hadmits, hdatum⟩ := hext.columnDatum_ne_null hb hne
  have htype : f.dataType = .utf8 ∨ f.dataType = .largeUtf8 := by
    simpa using (TableRef.mem_names (mem_of_getElem? (hext.getElem? hf))).mp hcol
  have hstr : v = .str s := by
    rw [hs] at hdatum
    rcases htype with htype | htype <;> rw [htype] at hdatum <;> cases v <;> cases hdatum <;> rfl
  rw [hstr] at hv
  refine keepColumn_containsTokens hext hf htype hv ?_
  intro t ht
  obtain ⟨w, hw, hlen, rfl⟩ := mem_patternTokens.mp ht
  exact mem_tokenize.mpr (.inr ⟨w, mem_words_of_forced (hwords w hw hlen) hmatch, hlen, rfl⟩)

/-! ### A row that is lost -/

def oneStringTable (col : String) : TableRef :=
  { schema := [⟨col, .utf8⟩], distinct := nodup_singleton col }

def oneStringBatch (F : Type) (col s : String) : RecordBatch F :=
  { schema := [⟨col, .utf8⟩], columns := [[.str s]], numRows := 1, width := rfl
    height := by simp
    typed := by simp [DataType.admits] }

theorem exists_oneStringExtent (col s : String) :
    ∃ result, IsExtentOf (oneStringTable col) [⟨col, .utf8⟩] [oneStringBatch F col s] result := by
  have hwritten : ∃ result, Tlm.writeExtent [⟨col, .utf8⟩] [oneStringBatch F col s] = some result :=
    Tlm.writeExtent_isSome (by simp [oneStringBatch]) (by simp)
  obtain ⟨result, hresult⟩ := hwritten
  exact ⟨result, prefix_rfl, hresult⟩

omit [Field F] [LinearOrder F] [HasSqrt F] in
theorem columnDatum_oneStringBatch (col s : String) : columnDatum (oneStringBatch F col s) 0 col = .str s := by
  simp [columnDatum, oneStringBatch, RecordBatch.cell, indexOf, RecordBatch.column, cellDatum]

theorem keepColumn_oneString {s : String} {result : Tlm.ExtentWriteResult F}
    (h : IsExtentOf (oneStringTable col) [⟨col, .utf8⟩] [oneStringBatch F col s] result)
    (hcap : (Tlm.tokenize s []).length ≤ Tlm.tokenSetCap) {tokens : List String} (ht : t ∈ tokens)
    (hts : t ∉ Tlm.tokenize s []) : keepColumn result.columnStats col (.containsTokens tokens) = false := by
  have hcells : Tlm.colCells [oneStringBatch F col s] 0 = [.str s] := rfl
  have hpush : Tlm.pushTokens (some []) s = some (Tlm.tokenize s []) := if_neg (by omega)
  have harr : tokenArray result.columnStats col =
      some (((Tlm.tokenize s []).insertionSort (· ≤ ·)).map Json.str) := by
    have htokens := tokenArray_eq h (i := 0) (f := ⟨col, .utf8⟩) rfl (.inl rfl)
    rw [hcells] at htokens
    simpa [Tlm.asStr, hpush] using htokens
  rw [keepColumn, harr]
  refine all_eq_false.mpr ⟨t, ht, ?_⟩
  simpa [mem_insertionSort] using hts

theorem wholeWords_of_textPruningSound {eng : Engine F} (hraw : stringLiteral pattern = some raw)
    (hlong : raw.toList.length < Tlm.tokenSetCap)
    (hsound : TextPruningSound eng col pattern escapeChar caseInsensitive) :
    WholeWords eng escapeChar caseInsensitive raw := by
  intro w hw hlen
  by_contra hforced
  -- a match without the word, in which so few words fit that the token set is kept
  obtain ⟨chars, hmatch, hmissing, hcount⟩ := exists_match_without 'a' (by decide)
    (fun test htest => parsePattern_sat (likeSame_refl eng caseInsensitive) _ htest) hforced
  have hpat : (likePattern eng escapeChar caseInsensitive raw).length ≤ raw.toList.length :=
    parsePattern_length_le _ _ _
  change likeMatches (likePattern eng escapeChar caseInsensitive raw) chars = true at hmatch
  change _ ≤ (likePattern eng escapeChar caseInsensitive raw).length at hcount
  have hlist : (String.ofList chars).toList = chars := String.toList_ofList
  have hcap : (Tlm.tokenize (String.ofList chars) []).length ≤ Tlm.tokenSetCap := by
    have hle := length_tokenizeLoop_le [] [] (String.ofList chars).toList
    rw [wordsFrom_length, hlist, length_nil] at hle
    rw [Tlm.tokenize, hlist]
    omega
  have hnot : String.ofList w ∉ Tlm.tokenize (String.ofList chars) [] := by
    rw [mem_tokenize, hlist]
    intro h
    rcases h with h | ⟨w', hw', -, heq⟩
    · cases h
    · rw [String.ofList_injective heq] at hmissing
      exact hmissing hw'
  obtain ⟨result, hext⟩ := exists_oneStringExtent (F := F) col (String.ofList chars)
  have hmem : String.ofList w ∈ patternTokens raw := mem_patternTokens.mpr ⟨w, hw, hlen, rfl⟩
  have hextract : extractTextSearch (.like (.column col) pattern false escapeChar caseInsensitive)
      (stringCols (oneStringTable col)) = some (col, .containsTokens (patternTokens raw)) := by
    have hne : patternTokens raw ≠ [] := ne_nil_of_mem hmem
    simp [extractTextSearch, stringCols, oneStringTable, hraw, hne]
  have htrue : holds eng (oneStringBatch F col (String.ofList chars)) 0
      (.like (.column col) pattern false escapeChar caseInsensitive) = some true := by
    rw [holds, operand_stringLiteral eng _ 0 hraw, operand, columnDatum_oneStringBatch]
    simp [negateIf, hlist, hmatch]
  have hkept := hsound _ _ _ result hext _ mem_cons_self 0 _ hextract htrue
  rw [keepColumn_oneString hext hcap hmem hnot] at hkept
  cases hkept

/-- **When text pruning loses no row.**  For every column, every pattern and every way of escaping
and of taking case: if every token of the pattern is a whole word of it, no extent with a matching
row is dropped; and for a pattern shorter than the cap on token sets, only then. -/
theorem textPruningSound_iff_wholeWords (eng : Engine F) (col : String) {pattern : Expr F}
    {raw : String} (hraw : stringLiteral pattern = some raw) (escapeChar : Option Char)
    (caseInsensitive : Bool) : (WholeWords eng escapeChar caseInsensitive raw →
      TextPruningSound eng col pattern escapeChar caseInsensitive) ∧ (raw.toList.length < Tlm.tokenSetCap →
      (TextPruningSound eng col pattern escapeChar caseInsensitive ↔ WholeWords eng escapeChar caseInsensitive raw)) :=
  ⟨textPruningSound_of_wholeWords hraw, fun hlong =>
    ⟨wholeWords_of_textPruningSound hraw hlong, textPruningSound_of_wholeWords hraw⟩⟩

/-- The filter `msg LIKE …`. -/
def msgLike (pattern : String) : Expr ℚ := .like (.column "msg") (.literal (.utf8 (some pattern))) false none false

/-- **`LIKE '%err%'` loses a row.**  The row `error` matches, but its only token is `error`. -/
theorem like_err_drops_error : ∃ result, IsExtentOf (oneStringTable "msg") [⟨"msg", .utf8⟩]
        [oneStringBatch ℚ "msg" "error"] result ∧
      extractTextSearch (msgLike "%err%") (stringCols (oneStringTable "msg")) = some ("msg", .containsTokens ["err"]) ∧
      holds plainEngine (oneStringBatch ℚ "msg" "error") 0 (msgLike "%err%") = some true ∧
      keepColumn result.columnStats "msg" (.containsTokens ["err"]) = false := by
  obtain ⟨result, hext⟩ := exists_oneStringExtent (F := ℚ) "msg" "error"
  refine ⟨result, hext, by decide, by decide, ?_⟩
  exact keepColumn_oneString hext (by decide) (mem_singleton.mpr rfl) (by decide)

/-- `LIKE '% error %'` loses no row: the token stands between spaces. -/
theorem like_spaced_error_sound :
    TextPruningSound plainEngine "msg" (.literal (.utf8 (some "% error %"))) none false := by
  have hraw : stringLiteral (.literal (.utf8 (some "% error %")) : Expr ℚ) = some "% error %" := rfl
  refine (textPruningSound_iff_wholeWords plainEngine "msg" hraw none false).1 ?_
  intro w hw hlen
  have hword : w = "error".toList := by
    have hwords : textWords "% error %".toList = [[], [], "error".toList, [], []] := by decide
    rw [hwords] at hw
    simp only [mem_cons, not_mem_nil, or_false] at hw
    rcases hw with rfl | rfl | rfl | rfl | rfl <;> first | rfl | simp at hlen
  refine ⟨[.many, .one (likeSame plainEngine false ' ')],
    "error".toList.map fun c => .one (likeSame plainEngine false c),
    [.one (likeSame plainEngine false ' '), .many], by rfl, ?_, .inr ⟨[.many], _, rfl, ?_⟩,
    .inr ⟨_, [.many], rfl, ?_⟩⟩
  · rw [hword]
    refine forall₂_map_left_iff.mpr (forall₂_same.mpr ?_)
    intro c hc d hd
    have hcd : c = d := by simpa [likeSame] using hd
    subst hcd
    have hletter : c = 'e' ∨ c = 'r' ∨ c = 'o' ∨ c = 'r' := by simpa using hc
    rcases hletter with rfl | rfl | rfl | rfl <;> decide
  · intro d hd
    have hcd : ' ' = d := by simpa [likeSame] using hd
    subst hcd
    decide
  · intro d hd
    have hcd : ' ' = d := by simpa [likeSame] using hd
    subst hcd
    decide

end Exec
