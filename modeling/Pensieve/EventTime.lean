/-
**Event times of NDJSON records.**

A table whose schema has a timestamp column `at` wants every record to carry one.  Before NDJSON is
parsed, each line that is an object without an `at` gets one from the first of its aliases
`timestamp`, `time_unix_nano` and `observed_time_unix_nano` that gives a time.
-/

import Pensieve.SchemaJson

namespace EventTime

open List
open Catalog (Json)
open TableSchema (Schema)

abbrev Bytes := List UInt8

abbrev Map (F : Type) := List (String × Json F)

variable {F : Type}

/-- The libraries: `serde_json::from_slice`, `serde_json::to_writer` on an object, and the RFC 3339 text of a time in
nanoseconds. -/
structure Lib (F : Type) where
  fromSlice : Bytes → Option (Json F)
  toWriter : Map F → Bytes
  toRfc3339 : Int → String

section Times

local instance two : Nat.AtLeastTwo 2 := ⟨le_rfl⟩

local instance ten : Nat.AtLeastTwo 10 := ⟨by decide⟩

variable [Field F] [LinearOrder F] [FloorRing F]

/-- `f as i64`. -/
def toI64 (f : F) : Int := max (-2 ^ 63) (min (2 ^ 63 - 1) (if 0 ≤ f then ⌊f⌋ else ⌈f⌉))

def numericTimestampToNanos (f : F) : Option Int :=
  let abs := if 0 ≤ f then f else -f
  let nanos :=
    if 10 ^ 16 ≤ abs then f
    else if 10 ^ 14 ≤ abs then f * 1000
    else if 10 ^ 11 ≤ abs then f * 1000000
    else f * 1000000000
  -- `i64::MAX as f64` is `2 ^ 63`
  if 2 ^ 63 < nanos ∨ nanos < -2 ^ 63 then none else some (toI64 nanos)

inductive TimestampKey where
  | timestamp
  | unixNano
  deriving DecidableEq

def asI64 : Json F → Option Int
  | .int n => if -2 ^ 63 ≤ n ∧ n < 2 ^ 63 then some n else none
  | _ => none

def tryToRfc3339 (lib : Lib F) (v : Json F) (key : TimestampKey) : Option String :=
  match v with
  | .str s => some s
  | .int _ | .float _ =>
    match key with
    | .unixNano => (asI64 v).map lib.toRfc3339
    | .timestamp => (v.asF64.bind numericTimestampToNanos).map lib.toRfc3339
  | _ => none

def resolveAtFromAliases (lib : Lib F) (obj : Map F) : Option String :=
  (((obj.lookup "timestamp").bind fun v => tryToRfc3339 lib v .timestamp).or
    ((obj.lookup "time_unix_nano").bind fun v => tryToRfc3339 lib v .unixNano)).or
    ((obj.lookup "observed_time_unix_nano").bind fun v => tryToRfc3339 lib v .unixNano)

end Times

/-! ### Lines -/

/-- `Map::insert`: the keys of a map are in order. -/
def insertKey (obj : Map F) (key : String) (value : Json F) : Map F :=
  match obj with
  | [] => [(key, value)]
  | (k, v) :: rest =>
    if k < key then (k, v) :: insertKey rest key value
    else if k = key then (key, value) :: rest
    else (key, value) :: (k, v) :: rest

def isAsciiWhitespace (b : UInt8) : Bool := b = 32 ∨ b = 9 ∨ b = 10 ∨ b = 12 ∨ b = 13

def isBlank (line : Bytes) : Bool := line.all isAsciiWhitespace

def newline : UInt8 := 10

/-- `bytes.split(|&b| b == b'\n')`. -/
def lines (bytes : Bytes) : List Bytes := bytes.splitOn newline

def isNull : Json F → Bool
  | .null => true
  | _ => false

/-- `at` is absent or null. -/
def atMissing (obj : Map F) : Bool := (obj.lookup "at").all isNull

def needsInjection (lib : Lib F) (line : Bytes) : Bool :=
  if isBlank line then false
  else match lib.fromSlice line with
    | some (.obj obj) =>
      if atMissing obj then
        (obj.lookup "timestamp").isSome || (obj.lookup "time_unix_nano").isSome ||
          (obj.lookup "observed_time_unix_nano").isSome
      else false
    | _ => false

def pushNewline (out : Bytes) : Bytes := if out = [] then out else out ++ [newline]

section Rewriting

variable [Field F] [LinearOrder F] [FloorRing F] (lib : Lib F)

def rewriteStep (out line : Bytes) : Bytes :=
  if isBlank line then pushNewline out
  else match lib.fromSlice line with
    | some (.obj obj) =>
      if atMissing obj then
        match resolveAtFromAliases lib obj with
        | some rfc3339 => pushNewline out ++ lib.toWriter (insertKey obj "at" (.str rfc3339))
        | none => pushNewline out ++ line
      else pushNewline out ++ line
    | _ => pushNewline out ++ line

def rewrite (bytes : Bytes) : Bytes := (lines bytes).foldl (rewriteStep lib) []

/-- The schema has a column `at` of a timestamp type. -/
def hasAtTimestamp (schema : Schema) : Bool :=
  schema.any fun f => f.name == "at" && match f.dataType with
    | .timestamp _ _ => true
    | _ => false

def populateAtColumn (bytes : Bytes) (schema : Schema) : Bytes :=
  if ¬ hasAtTimestamp schema then bytes
  else if (lines bytes).any (needsInjection lib) then rewrite lib bytes
  else bytes

/-! ### What becomes of a line -/

def rewriteLine (line : Bytes) : Bytes :=
  match lib.fromSlice line with
  | some (.obj obj) =>
    if atMissing obj then
      match resolveAtFromAliases lib obj with
      | some rfc3339 => lib.toWriter (insertKey obj "at" (.str rfc3339))
      | none => line
    else line
  | _ => line

def piece (line : Bytes) : Bytes := if isBlank line then [] else rewriteLine lib line

end Rewriting

/-- **The line that stands for a line**: it is the line itself or, of an object without an `at`, the object with one. -/
inductive Carried (lib : Lib F) (line line' : Bytes) : Prop where
  | same : line' = line → Carried lib line line'
  | timed {obj obj' : Map F} {time : String} : lib.fromSlice line = some (.obj obj) → atMissing obj = true →
      line' = lib.toWriter obj' → obj'.lookup "at" = some (.str time) →
      (∀ key, key ≠ "at" → obj'.lookup key = obj.lookup key) → Carried lib line line'

/-- An object is written as one line that is not blank, and read back as an object with the same `at`. -/
structure Writes (lib : Lib F) (obj : Map F) : Prop where
  oneLine : newline ∉ lib.toWriter obj
  notBlank : isBlank (lib.toWriter obj) = false
  readBack : ∃ obj', lib.fromSlice (lib.toWriter obj) = some (.obj obj') ∧ obj'.lookup "at" = obj.lookup "at"

/-! ### Objects and lines -/

theorem lookup_insertKey (obj : Map F) (key k : String) (value : Json F) :
    (insertKey obj key value).lookup k = if k = key then some value else obj.lookup k := by
  induction obj with
  | nil =>
    unfold insertKey
    by_cases hk : k = key
    · rw [if_pos hk, lookup_cons, beq_iff_eq.2 hk]
    · rw [if_neg hk, lookup_cons, beq_eq_false_iff_ne.2 hk]
  | cons entry rest ih =>
    obtain ⟨k', v⟩ := entry
    unfold insertKey
    split
    next hlt =>
      by_cases hk : k = k'
      · subst hk
        rw [if_neg fun heq => String.lt_irrefl _ (heq ▸ hlt), lookup_cons_self, lookup_cons_self]
      · rw [lookup_cons, lookup_cons, beq_eq_false_iff_ne.2 hk]
        exact ih
    next =>
      split
      next hkey =>
        subst hkey
        by_cases hk : k = k'
        · subst hk
          rw [if_pos rfl, lookup_cons_self]
        · rw [if_neg hk, lookup_cons, lookup_cons, beq_eq_false_iff_ne.2 hk]
      next =>
        by_cases hk : k = key
        · rw [if_pos hk, lookup_cons, beq_iff_eq.2 hk]
        · rw [if_neg hk, lookup_cons, beq_eq_false_iff_ne.2 hk]

theorem not_mem_of_mem_splitOn {A : Type} [DecidableEq A] {a : A} {xs l : List A} (h : l ∈ xs.splitOn a) : a ∉ l := by
  induction xs generalizing l with
  | nil =>
    rw [splitOn_nil, mem_singleton] at h
    rw [h]
    exact not_mem_nil
  | cons x xs ih =>
    rw [splitOn_cons_eq_if_modifyHead] at h
    split at h
    · rcases mem_cons.1 h with rfl | h
      · exact not_mem_nil
      · exact ih h
    next hx =>
      obtain ⟨first, rest, hcons⟩ := exists_cons_of_ne_nil (splitOn_ne_nil a xs)
      rw [hcons, modifyHead_cons, mem_cons] at h
      rcases h with rfl | h
      · rw [mem_cons]
        rintro (rfl | hmem)
        · simp at hx
        · exact ih (hcons ▸ mem_cons_self) hmem
      · exact ih (hcons ▸ mem_cons_of_mem _ h)

theorem lines_intercalate {ls : List Bytes} (h : ∀ l ∈ ls, newline ∉ l) (hne : ls ≠ []) :
    lines ([newline].intercalate ls) = ls :=
  splitOn_intercalate newline h hne

def nonBlank (ls : List Bytes) : List Bytes := ls.filter fun l => !isBlank l

theorem nonBlank_dropWhile (ls : List Bytes) : nonBlank (ls.dropWhile isBlank) = nonBlank ls := by
  unfold nonBlank
  induction ls with
  | nil => rfl
  | cons l ls ih =>
    by_cases hl : isBlank l = true
    · rw [dropWhile_cons_of_pos hl, ih, filter_cons_of_neg (by simp [hl])]
    · rw [dropWhile_cons_of_neg hl]

section Rewriting

variable [Field F] [LinearOrder F] [FloorRing F] {lib : Lib F}

def WritesAll (lib : Lib F) (ls : List Bytes) : Prop :=
  ∀ line ∈ ls, isBlank line = false → ∀ obj time, lib.fromSlice line = some (.obj obj) → atMissing obj = true →
    resolveAtFromAliases lib obj = some time → Writes lib (insertKey obj "at" (.str time))

theorem rewriteLine_cases (lib : Lib F) (line : Bytes) :
    rewriteLine lib line = line ∨ ∃ obj time, lib.fromSlice line = some (.obj obj) ∧ atMissing obj = true ∧
      resolveAtFromAliases lib obj = some time ∧
      rewriteLine lib line = lib.toWriter (insertKey obj "at" (.str time)) := by
  unfold rewriteLine
  split
  next obj hobj =>
    split
    next hmissing =>
      split
      next time htime => exact .inr ⟨obj, time, hobj, hmissing, htime, rfl⟩
      next => exact .inl rfl
    next => exact .inl rfl
  next => exact .inl rfl

theorem carried_rewriteLine (lib : Lib F) (line : Bytes) : Carried lib line (rewriteLine lib line) := by
  rcases rewriteLine_cases lib line with hsame | ⟨obj, time, hobj, hmissing, -, hline⟩
  · exact .same hsame
  · refine @Carried.timed _ _ _ _ _ _ time hobj hmissing hline ?_ fun key hkey => ?_
    · rw [lookup_insertKey, if_pos rfl]
    · rw [lookup_insertKey, if_neg hkey]

variable {ls : List Bytes} {line : Bytes}

theorem isBlank_rewriteLine (h : WritesAll lib ls) (hmem : line ∈ ls) (hline : isBlank line = false) :
    isBlank (rewriteLine lib line) = false := by
  rcases rewriteLine_cases lib line with hsame | ⟨obj, time, hobj, hmissing, htime, heq⟩
  · rw [hsame]
    exact hline
  · rw [heq]
    exact (h line hmem hline obj time hobj hmissing htime).notBlank

theorem newline_not_mem_piece (h : WritesAll lib ls) (hmem : line ∈ ls) (hline : newline ∉ line) :
    newline ∉ piece lib line := by
  unfold piece
  split
  · exact not_mem_nil
  next hblank =>
    rcases rewriteLine_cases lib line with hsame | ⟨obj, time, hobj, hmissing, htime, heq⟩
    · rw [hsame]
      exact hline
    · rw [heq]
      exact (h line hmem (Bool.eq_false_iff.2 hblank) obj time hobj hmissing htime).oneLine

/-- **A line that was rewritten has its `at` and is left alone.** -/
theorem piece_piece (h : WritesAll lib ls) (hmem : line ∈ ls) : piece lib (piece lib line) = piece lib line := by
  by_cases hblank : isBlank line = true
  · have hpiece : piece lib line = [] := if_pos hblank
    rw [hpiece]
    exact if_pos rfl
  · have hpiece : piece lib line = rewriteLine lib line := if_neg hblank
    have hout := isBlank_rewriteLine h hmem (Bool.eq_false_iff.2 hblank)
    rw [hpiece, piece, if_neg (by simp [hout])]
    rcases rewriteLine_cases lib line with hsame | ⟨obj, time, hobj, hmissing, htime, heq⟩
    · rw [hsame, hsame]
    · obtain ⟨obj', hread, hat⟩ := (h line hmem (Bool.eq_false_iff.2 hblank) obj time hobj hmissing htime).readBack
      rw [lookup_insertKey, if_pos rfl] at hat
      rw [heq, rewriteLine, hread]
      have hthere : atMissing obj' = false := by
        unfold atMissing
        rw [hat]
        rfl
      simp only [hthere, Bool.false_eq_true, if_false]

/-! ### The second pass -/

theorem rewriteStep_eq (lib : Lib F) (out line : Bytes) :
    rewriteStep lib out line = pushNewline out ++ piece lib line := by
  unfold rewriteStep piece rewriteLine
  split
  · exact (append_nil _).symm
  · split
    next obj hobj =>
      split
      · split <;> rfl
      · rfl
    next => rfl

theorem foldl_rewriteStep (lib : Lib F) (ls : List Bytes) {out : Bytes} (hout : out ≠ []) :
    ls.foldl (rewriteStep lib) out = out ++ ls.flatMap fun l => newline :: piece lib l := by
  induction ls generalizing out with
  | nil => exact (append_nil out).symm
  | cons l ls ih =>
    have hstep : rewriteStep lib out l = out ++ newline :: piece lib l := by
      rw [rewriteStep_eq, pushNewline, if_neg hout, append_assoc]
      rfl
    rw [foldl_cons, hstep, ih (by simp), append_assoc]
    rfl

theorem intercalate_cons (sep : UInt8) (p : Bytes) (ps : List Bytes) :
    [sep].intercalate (p :: ps) = p ++ ps.flatMap (sep :: ·) := by
  induction ps generalizing p with
  | nil => rw [intercalate_singleton, flatMap_nil, append_nil]
  | cons q ps ih =>
    rw [intercalate_cons_cons, ih q, flatMap_cons, append_assoc]
    rfl

theorem foldl_rewriteStep_nil (h : WritesAll lib ls) :
    ls.foldl (rewriteStep lib) [] = [newline].intercalate ((ls.dropWhile isBlank).map (piece lib)) := by
  induction ls with
  | nil => rfl
  | cons l ls ih =>
    by_cases hl : isBlank l = true
    · have hstep : rewriteStep lib [] l = [] := if_pos hl
      rw [foldl_cons, hstep, dropWhile_cons_of_pos hl]
      exact ih fun line hmem => h line (mem_cons_of_mem _ hmem)
    · have hpiece : piece lib l = rewriteLine lib l := if_neg hl
      have hne : rewriteLine lib l ≠ [] := by
        intro hnil
        have hout := isBlank_rewriteLine h mem_cons_self (Bool.eq_false_iff.2 hl)
        rw [hnil] at hout
        cases hout
      rw [foldl_cons, rewriteStep_eq, dropWhile_cons_of_neg hl, map_cons, intercalate_cons, flatMap_map, hpiece]
      exact foldl_rewriteStep lib ls hne

variable {bytes : Bytes}

theorem rewrite_eq (h : WritesAll lib (lines bytes)) :
    rewrite lib bytes = [newline].intercalate (((lines bytes).dropWhile isBlank).map (piece lib)) :=
  foldl_rewriteStep_nil h

theorem lines_rewrite (h : WritesAll lib (lines bytes)) (hne : (lines bytes).dropWhile isBlank ≠ []) :
    lines (rewrite lib bytes) = ((lines bytes).dropWhile isBlank).map (piece lib) := by
  rw [rewrite_eq h]
  refine lines_intercalate (fun p hp => ?_) (by simpa using hne)
  obtain ⟨l, hl, rfl⟩ := mem_map.1 hp
  have hmem : l ∈ lines bytes := (dropWhile_sublist _).subset hl
  exact newline_not_mem_piece h hmem (not_mem_of_mem_splitOn hmem)

theorem nonBlank_rewrite (h : WritesAll lib (lines bytes)) :
    nonBlank (lines (rewrite lib bytes)) = (nonBlank (lines bytes)).map (rewriteLine lib) := by
  by_cases hne : (lines bytes).dropWhile isBlank = []
  · rw [rewrite_eq h, hne, ← nonBlank_dropWhile (lines bytes), hne]
    rfl
  · rw [lines_rewrite h hne, ← nonBlank_dropWhile (lines bytes)]
    have hsub : ∀ l ∈ (lines bytes).dropWhile isBlank, l ∈ lines bytes := fun l hl =>
      (dropWhile_sublist _).subset hl
    generalize (lines bytes).dropWhile isBlank = ls at hsub
    induction ls with
    | nil => rfl
    | cons l ls ih =>
      have hrest := ih fun l hl => hsub l (mem_cons_of_mem _ hl)
      unfold nonBlank at hrest ⊢
      by_cases hl : isBlank l = true
      · have hpiece : piece lib l = [] := if_pos hl
        rw [map_cons, hpiece, filter_cons_of_neg (by decide), filter_cons_of_neg (by simp [hl])]
        exact hrest
      · have hpiece : piece lib l = rewriteLine lib l := if_neg hl
        have hout := isBlank_rewriteLine h (hsub l mem_cons_self) (Bool.eq_false_iff.2 hl)
        rw [map_cons, hpiece, filter_cons_of_pos (by simp [hout]), filter_cons_of_pos (by simp [hl]), map_cons, hrest]

theorem WritesAll.map_piece {ls : List Bytes} (h : WritesAll lib ls) : WritesAll lib (ls.map (piece lib)) := by
  intro p hp hblank obj time hobj hmissing htime
  obtain ⟨line, hmem, rfl⟩ := mem_map.1 hp
  have hline : isBlank line = false := by
    by_contra hl
    have hpiece : piece lib line = [] := if_pos (by simpa using hl)
    rw [hpiece] at hblank
    cases hblank
  have hpiece : piece lib line = rewriteLine lib line := if_neg (by simp [hline])
  rw [hpiece] at hobj
  rcases rewriteLine_cases lib line with hsame | ⟨obj', time', hobj', hmissing', htime', heq⟩
  · rw [hsame] at hobj
    exact h line hmem hline obj time hobj hmissing htime
  · obtain ⟨back, hread, hat⟩ := (h line hmem hline obj' time' hobj' hmissing' htime').readBack
    rw [heq, hread] at hobj
    cases hobj
    unfold atMissing at hmissing
    rw [hat, lookup_insertKey, if_pos rfl] at hmissing
    cases hmissing

theorem rewrite_rewrite (h : WritesAll lib (lines bytes)) : rewrite lib (rewrite lib bytes) = rewrite lib bytes := by
  by_cases hne : (lines bytes).dropWhile isBlank = []
  · rw [rewrite_eq h, hne]
    rfl
  · have hkept : WritesAll lib ((lines bytes).dropWhile isBlank) := fun line hline =>
      h line ((dropWhile_sublist _).subset hline)
    have hpieces : (((lines bytes).dropWhile isBlank).map (piece lib)).map (piece lib) =
        ((lines bytes).dropWhile isBlank).map (piece lib) := by
      rw [map_map]
      exact map_congr_left fun line hline => piece_piece hkept hline
    have hhead : (((lines bytes).dropWhile isBlank).map (piece lib)).dropWhile isBlank =
        ((lines bytes).dropWhile isBlank).map (piece lib) := by
      obtain ⟨l, ls, hcons⟩ := exists_cons_of_ne_nil hne
      have hl : isBlank l = false := by
        have hfirst := head?_dropWhile_not isBlank (lines bytes)
        rw [hcons] at hfirst
        simpa using hfirst
      have hpiece : piece lib l = rewriteLine lib l := if_neg (by simp [hl])
      have hout := isBlank_rewriteLine hkept (hcons ▸ mem_cons_self) hl
      rw [hcons, map_cons, hpiece]
      exact dropWhile_cons_of_neg (by simp [hout])
    show (lines (rewrite lib bytes)).foldl (rewriteStep lib) [] = rewrite lib bytes
    rw [lines_rewrite h hne, foldl_rewriteStep_nil hkept.map_piece, hhead, hpieces, rewrite_eq h]

theorem isSome_of_resolve {obj : Map F} {time : String} (h : resolveAtFromAliases lib obj = some time) :
    ((obj.lookup "timestamp").isSome || (obj.lookup "time_unix_nano").isSome ||
      (obj.lookup "observed_time_unix_nano").isSome) = true := by
  unfold resolveAtFromAliases at h
  by_contra hnone
  simp only [Bool.or_eq_true, not_or, Bool.not_eq_true, Option.isSome_eq_false_iff, Option.isNone_iff_eq_none] at hnone
  obtain ⟨⟨h₁, h₂⟩, h₃⟩ := hnone
  rw [h₁, h₂, h₃] at h
  cases h

theorem rewriteLine_of_not_needsInjection (hneed : needsInjection lib line = false) (hblank : isBlank line = false) :
    rewriteLine lib line = line := by
  rcases rewriteLine_cases lib line with hsame | ⟨obj, time, hobj, hmissing, htime, -⟩
  · exact hsame
  · unfold needsInjection at hneed
    rw [if_neg (by simp [hblank]), hobj] at hneed
    simp only [hmissing, if_true] at hneed
    rw [isSome_of_resolve htime] at hneed
    cases hneed

/-! ### What is preserved -/

variable {schema : Schema}

theorem nonBlank_populateAtColumn (h : WritesAll lib (lines bytes)) (hat : hasAtTimestamp schema = true) :
    nonBlank (lines (populateAtColumn lib bytes schema)) = nonBlank (lines (rewrite lib bytes)) := by
  unfold populateAtColumn
  rw [if_neg (by simp [hat])]
  split
  next => rfl
  next hnone =>
    rw [nonBlank_rewrite h]
    refine (map_id _).symm.trans (map_congr_left fun line hline => ?_)
    obtain ⟨hmem, hblank⟩ := mem_filter.1 hline
    have hneed : needsInjection lib line = false := by
      by_contra hneed
      exact hnone (any_eq_true.2 ⟨line, hmem, by simpa using hneed⟩)
    exact (rewriteLine_of_not_needsInjection hneed (by simpa using hblank)).symm

theorem forall₂_carried_map (lib : Lib F) (ls : List Bytes) :
    List.Forall₂ (Carried lib) ls (ls.map (rewriteLine lib)) := by
  rw [forall₂_map_right_iff, forall₂_same]
  exact fun line _ => carried_rewriteLine lib line

/-- **Population preserves records**: line by line the lines that are not blank stay, an object without an `at` may get
one and nothing else changes; both passes leave the same lines, and a second call changes nothing. -/
theorem populateAtColumn_preserves (lib : Lib F) (bytes : Bytes) (schema : Schema) (h : WritesAll lib (lines bytes)) :
    List.Forall₂ (Carried lib) (nonBlank (lines bytes)) (nonBlank (lines (populateAtColumn lib bytes schema))) ∧
      (hasAtTimestamp schema = true →
        nonBlank (lines (populateAtColumn lib bytes schema)) = nonBlank (lines (rewrite lib bytes))) ∧
      populateAtColumn lib (populateAtColumn lib bytes schema) schema = populateAtColumn lib bytes schema := by
  by_cases hat : hasAtTimestamp schema = true
  · refine ⟨?_, nonBlank_populateAtColumn h, ?_⟩
    · rw [nonBlank_populateAtColumn h hat, nonBlank_rewrite h]
      exact forall₂_carried_map lib _
    · -- the first call has returned the bytes or rewritten them, and either is left as it is
      have hpopulate : ∀ b : Bytes, populateAtColumn lib b schema =
          if (lines b).any (needsInjection lib) then rewrite lib b else b := fun b => if_neg (by simp [hat])
      rw [hpopulate bytes]
      split
      next hneed =>
        rw [hpopulate (rewrite lib bytes)]
        split
        · exact rewrite_rewrite h
        · rfl
      next hnone => rw [hpopulate bytes, if_neg hnone]
  · have hsame : ∀ b : Bytes, populateAtColumn lib b schema = b := fun b => if_pos hat
    refine ⟨?_, fun hat' => absurd hat' hat, by rw [hsame, hsame]⟩
    rw [hsame]
    exact forall₂_same.2 fun line _ => .same rfl

end Rewriting

def ascii (s : String) : Bytes := s.toList.map fun c => c.toNat.toUInt8

def exampleLib : Lib ℚ where
  fromSlice line :=
    if line = ascii "\x7b\"timestamp\":\"2026-06-05\"\x7d" then some (.obj [("timestamp", .str "2026-06-05")])
    else if line = ascii "\x7b\"at\":\"2026-06-05\",\"timestamp\":\"2026-06-05\"\x7d" then
      some (.obj [("at", .str "2026-06-05"), ("timestamp", .str "2026-06-05")])
    else if line = ascii "\x7b\x7d" then some (.obj [])
    else none
  toWriter _ := ascii "\x7b\"at\":\"2026-06-05\",\"timestamp\":\"2026-06-05\"\x7d"
  toRfc3339 _ := ""

def atSchema : Schema := [.new "at" (.timestamp .nanosecond none) true]

def exampleBytes : Bytes := ascii "\x7b\"timestamp\":\"2026-06-05\"\x7d\n\nbad-json"

theorem writesAll_exampleBytes : WritesAll exampleLib (lines exampleBytes) := by
  have hlines : lines exampleBytes = [ascii "\x7b\"timestamp\":\"2026-06-05\"\x7d", [], ascii "bad-json"] := by
    decide +kernel
  have hobject : exampleLib.fromSlice (ascii "\x7b\"timestamp\":\"2026-06-05\"\x7d") =
      some (.obj [("timestamp", .str "2026-06-05")]) := by
    decide +kernel
  have hbad : exampleLib.fromSlice (ascii "bad-json") = none := by
    decide +kernel
  intro line hline hblank obj time hobj hmissing htime
  rw [hlines] at hline
  simp only [mem_cons, not_mem_nil, or_false] at hline
  rcases hline with rfl | rfl | rfl
  · rw [hobject] at hobj
    cases hobj
    have htimes : resolveAtFromAliases exampleLib [("timestamp", .str "2026-06-05")] = some "2026-06-05" := by
      decide +kernel
    rw [htimes] at htime
    cases htime
    exact ⟨by decide +kernel, by decide +kernel, [("at", .str "2026-06-05"), ("timestamp", .str "2026-06-05")],
      by decide +kernel, by decide +kernel⟩
  · cases hblank
  · rw [hbad] at hobj
    cases hobj

theorem populateAtColumn_preserves_three_lines : List.Forall₂ (Carried exampleLib) (nonBlank (lines exampleBytes))
      (nonBlank (lines (populateAtColumn exampleLib exampleBytes atSchema))) ∧
    populateAtColumn exampleLib exampleBytes atSchema =
      ascii "\x7b\"at\":\"2026-06-05\",\"timestamp\":\"2026-06-05\"\x7d\n\nbad-json" ∧
    populateAtColumn exampleLib (populateAtColumn exampleLib exampleBytes atSchema) atSchema =
      populateAtColumn exampleLib exampleBytes atSchema := by
  have hpreserves := populateAtColumn_preserves exampleLib exampleBytes atSchema writesAll_exampleBytes
  exact ⟨hpreserves.1, by decide +kernel, hpreserves.2.2⟩

/-- A blank line at the beginning is kept by the first pass, and not by the second. -/
theorem blank_line_dropped :
    ¬∀ (lib : Lib ℚ) (bytes : Bytes) (schema : Schema), WritesAll lib (lines bytes) → hasAtTimestamp schema = true →
      populateAtColumn lib bytes schema = rewrite lib bytes := by
  intro h
  have hwrites : WritesAll exampleLib (lines (ascii "\n\x7b\x7d")) := by
    have hlines : lines (ascii "\n\x7b\x7d") = [[], ascii "\x7b\x7d"] := by
      decide +kernel
    have hobject : exampleLib.fromSlice (ascii "\x7b\x7d") = some (.obj []) := by
      decide +kernel
    intro line hline hblank obj time hobj hmissing htime
    rw [hlines] at hline
    simp only [mem_cons, not_mem_nil, or_false] at hline
    rcases hline with rfl | rfl
    · cases hblank
    · rw [hobject] at hobj
      cases hobj
      cases htime
  have hsame := h exampleLib (ascii "\n\x7b\x7d") atSchema hwrites (by decide)
  revert hsame
  decide +kernel

end EventTime
