/-
**The managed region of a `MEMORY.md`.**

The file belongs to its user, except for the region between two markers, which holds one line for each managed entry.
The lines are written without escapes and read back by splitting them at the delimiters.
-/

import Pensieve.MemoryFilter
import Mathlib.Data.List.DropRight

namespace Ccmem

open List
open Discover (Text isWhitespace)
open Recall (trim)

/-! ### The first occurrence of a text -/

def splitOnce (pat : Text) : Text → Option (Text × Text)
  | [] => if pat = [] then some ([], []) else none
  | c :: s =>
    if pat.isPrefixOf (c :: s) then some ([], (c :: s).drop pat.length)
    else (splitOnce pat s).map fun p => (c :: p.1, p.2)

def find (pat s : Text) : Option ℕ := (splitOnce pat s).map fun p => p.1.length

def stripPrefix (pat s : Text) : Option Text := if pat.isPrefixOf s then some (s.drop pat.length) else none

variable {a : Char} {p s t x y : Text}

theorem infix_append_cons (h : a ∉ t.tail) : t <:+: x ++ a :: y ↔ t <:+: x ∨ t <:+: a :: y := by
  rw [infix_append_iff_ne_nil]
  refine ⟨?_, by tauto⟩
  rintro (hx | hy | ⟨t₁, t₂, ht₁, ht₂, rfl, -, hpre⟩)
  · exact .inl hx
  · exact .inr hy
  · obtain ⟨c, t₁, rfl⟩ := exists_cons_of_ne_nil ht₁
    obtain ⟨d, t₂, rfl⟩ := exists_cons_of_ne_nil ht₂
    obtain ⟨rfl, -⟩ := cons_prefix_cons.1 hpre
    simp at h

theorem prefix_append_cons (h : a ∉ p) {c : Char} (hpre : a :: p <+: (c :: x) ++ a :: y) : a :: p <+: c :: x := by
  obtain ⟨rfl, hp⟩ := cons_prefix_cons.1 hpre
  refine cons_prefix_cons.2 ⟨rfl, ?_⟩
  rcases prefix_or_prefix_of_prefix hp (prefix_append x (a :: y)) with hp' | ⟨z, rfl⟩
  · exact hp'
  · rcases z with - | ⟨d, z⟩
    · simp
    · have hd := (prefix_append_right_inj x).1 hp
      simp [(cons_prefix_cons.1 hd).1] at h

theorem splitOnce_eq_some {pat : Text} (hpat : pat = a :: p) (h : a ∉ p) :
    splitOnce pat s = some (x, y) ↔ s = x ++ pat ++ y ∧ ¬ pat <:+: x := by
  subst hpat
  induction s generalizing x with
  | nil => simp [splitOnce]
  | cons c s ih =>
    rw [splitOnce]
    split
    next hpre =>
      obtain ⟨z, hz⟩ := isPrefixOf_iff_prefix.1 hpre
      rw [← hz, drop_left, Option.some.injEq, Prod.mk.injEq]
      constructor
      · rintro ⟨rfl, rfl⟩
        exact ⟨rfl, by simp⟩
      · rintro ⟨heq, hx⟩
        rcases x with - | ⟨d, x⟩
        · simpa using heq
        · refine absurd (prefix_append_cons (y := p ++ y) h ?_).isInfix hx
          exact ⟨z, by simpa using heq⟩
    next hpre =>
      rw [ isPrefixOf_iff_prefix] at hpre
      rw [Option.map_eq_some_iff]
      constructor
      · rintro ⟨⟨x', y'⟩, hsplit, heq⟩
        cases heq
        obtain ⟨rfl, hx⟩ := ih.1 hsplit
        refine ⟨rfl, fun hinfix => ?_⟩
        rcases infix_cons_iff.1 hinfix with hx' | hx'
        · exact hpre (hx'.trans ⟨a :: p ++ y', by simp⟩)
        · exact hx hx'
      · rintro ⟨heq, hx⟩
        rcases x with - | ⟨d, x⟩
        · exact absurd ⟨y, heq.symm⟩ hpre
        · obtain ⟨rfl, hs⟩ := List.cons.inj heq
          exact ⟨(x, y), ih.2 ⟨hs, fun hx' => hx (infix_cons hx')⟩, rfl⟩

theorem find_eq_some {pat : Text} (hpat : pat = a :: p) (h : a ∉ p) {i : ℕ} :
    find pat s = some i ↔ ∃ x y, (s = x ++ pat ++ y ∧ ¬ pat <:+: x) ∧ x.length = i := by
  simp only [find, Option.map_eq_some_iff, Prod.exists, splitOnce_eq_some hpat h]

theorem not_mem_of_mem_splitOn {l : Text} (h : l ∈ s.splitOn a) : a ∉ l := by
  induction s generalizing l with
  | nil => simp_all
  | cons c s ih =>
    rw [splitOn_cons_eq_if_modifyHead] at h
    split at h
    · rcases mem_cons.1 h with rfl | h
      · simp
      · exact ih h
    next hc =>
      cases hls : s.splitOn a with
      | nil => simp [hls] at h
      | cons l' ls =>
        rw [hls, modifyHead_cons] at h
        rcases mem_cons.1 h with rfl | h
        · have := ih (l := l') (by simp [hls])
          grind
        · exact ih (by simp [hls, h])

/-! ### The file -/

def managedBegin : Text := "<!-- BEGIN pensieve-managed -->".toList

def managedEnd : Text := "<!-- END pensieve-managed -->".toList

structure ManagedEntry where
  title : Text
  file : Text
  hook : Text
  deriving DecidableEq

structure MemoryIndex where
  before : Text
  managed : List ManagedEntry
  after : Text
  hadMarkers : Bool

def trimStart (s : Text) : Text := s.dropWhile isWhitespace

def trimEnd (s : Text) : Text := s.rdropWhile isWhitespace

def parseEntry (line : Text) : Option ManagedEntry := do
  let rest ← stripPrefix "- [".toList (trim line)
  let (title, rest) ← splitOnce "](".toList rest
  let (file, rest) ← splitOnce [')'] rest
  let hook := ((stripPrefix ['—'] (trimStart rest)).map trimStart).getD (trim rest)
  return ⟨title, file, hook⟩

/-- `lines().filter_map(parse_entry)`: a line is trimmed, so that its `\r` makes no difference, and no entry is empty. -/
def parseLines (inner : Text) : List ManagedEntry := (inner.splitOn '\n').filterMap parseEntry

def parse (raw : Text) : MemoryIndex :=
  match find managedBegin raw, find managedEnd raw with
  | some b, some e =>
    if b < e then
      let inner := (raw.take e).drop (b + managedBegin.length)
      ⟨raw.take b, parseLines inner, raw.drop (e + managedEnd.length), true⟩
    else ⟨raw, [], [], false⟩
  | _, _ => ⟨raw, [], [], false⟩

def MemoryIndex.setManaged (index : MemoryIndex) (entries : List ManagedEntry) : MemoryIndex :=
  { index with managed := entries }

def line (e : ManagedEntry) : Text := "- [".toList ++ e.title ++ "](".toList ++ e.file ++ ") — ".toList ++ e.hook

def linesOf (entries : List ManagedEntry) : Text := entries.flatMap fun e => line e ++ ['\n']

def MemoryIndex.render (index : MemoryIndex) : Text :=
  let trimmed := trimEnd index.before
  (if index.hadMarkers then index.before
    else (if trimmed = [] then "# Memory index".toList else trimmed) ++ ['\n', '\n']) ++
  managedBegin ++ '\n' :: linesOf index.managed ++ managedEnd ++ if index.hadMarkers then index.after else ['\n']

def update (raw : Text) (entries : List ManagedEntry) : Text := ((parse raw).setManaged entries).render

/-! ### What an edit is to be -/

/-- The first markers of the file, in their order, and what is around them. -/
structure Region (raw pre inner post : Text) : Prop where
  eq : raw = pre ++ managedBegin ++ inner ++ managedEnd ++ post
  first : ¬ managedBegin <:+: pre
  last : ¬ managedEnd <:+: pre ++ managedBegin ++ inner

/-- **The edit is surgical**: nothing outside the region changes, the entries are read back, what is not edited stays and
a second edit changes nothing. -/
structure Surgical (raw : Text) (entries : List ManagedEntry) : Prop where
  outside : ∀ pre inner post, Region raw pre inner post →
    ∃ inner', update raw entries = pre ++ managedBegin ++ inner' ++ managedEnd ++ post
  appended : (∀ pre inner post, ¬Region raw pre inner post) → raw <+: update raw entries
  readBack : (parse (update raw entries)).managed = entries
  unchanged : (parse raw).render = raw
  twice : update (update raw entries) entries = update raw entries

/-- An entry without delimiters of its own: its line is read as the entry. -/
structure Plain (e : ManagedEntry) : Prop where
  title : ¬ "](".toList <:+: e.title
  file : ')' ∉ e.file
  hook : trim e.hook = e.hook
  newline : '\n' ∉ line e

def Rendered (raw : Text) : Prop :=
  ∃ pre entries post, Region raw pre ('\n' :: linesOf entries) post ∧ ∀ e ∈ entries, Plain e

/-! ### Entries -/

variable {raw pre inner post : Text} {entries : List ManagedEntry} {e : ManagedEntry}

theorem stripPrefix_eq_some {pat : Text} : stripPrefix pat s = some t ↔ s = pat ++ t := by
  unfold stripPrefix
  rw [Option.ite_none_right_eq_some, isPrefixOf_iff_prefix]
  constructor
  · rintro ⟨⟨z, rfl⟩, h⟩
    simpa using h
  · rintro rfl
    simp

theorem trimEnd_of_suffix (hs : trimEnd s = s) (h : t <:+ s) : trimEnd t = t := by
  unfold trimEnd at *
  rw [rdropWhile_eq_self_iff] at *
  intro ht
  rw [h.getLast ht]
  exact hs _

theorem trimEnd_append (hne : t ≠ []) (ht : trimEnd t = t) (s : Text) : trimEnd (s ++ t) = s ++ t := by
  unfold trimEnd at *
  rw [rdropWhile_eq_self_iff] at *
  intro _
  rw [getLast_append_of_ne_nil _ hne]
  exact ht hne

theorem trim_eq (s : Text) : trim s = trimEnd (trimStart s) := rfl

theorem trim_eq_self : trim s = s ↔ trimStart s = s ∧ trimEnd s = s := by
  constructor
  · intro h
    have hsuffix : trimStart s <:+ s := dropWhile_suffix _
    have hprefix : trim s <+: trimStart s := rdropWhile_prefix _ _
    have hstart := hsuffix.eq_of_length_le (by simpa [h] using hprefix.length_le)
    exact ⟨hstart, by rwa [trim_eq, hstart] at h⟩
  · rintro ⟨hstart, hend⟩
    rw [trim_eq, hstart, hend]

theorem trimEnd_trim (s : Text) : trimEnd (trim s) = trim s := rdropWhile_idempotent _ _

theorem trim_trimStart (h : trimEnd t = t) : trim (trimStart t) = trimStart t :=
  trim_eq_self.2 ⟨dropWhile_idempotent _ _, trimEnd_of_suffix h (dropWhile_suffix _)⟩

theorem trim_trim (s : Text) : trim (trim s) = trim s := by
  refine trim_eq_self.2 ⟨?_, trimEnd_trim s⟩
  have hprefix : trim s <+: trimStart s := rdropWhile_prefix _ _
  rcases hs : trim s with - | ⟨c, w⟩
  · rfl
  · obtain ⟨z, hz⟩ := hs ▸ hprefix
    have hidem : trimStart (trimStart s) = trimStart s := dropWhile_idempotent _ _
    rw [← hz] at hidem
    unfold trimStart at hidem ⊢
    rw [cons_append, dropWhile_eq_self_iff] at hidem
    rw [dropWhile_eq_self_iff]
    intro _
    exact hidem (by simp)

theorem parseEntry_eq_some {l : Text} : parseEntry l = some e ↔
    ∃ rest, trim l = "- [".toList ++ (e.title ++ "](".toList ++ (e.file ++ [')'] ++ rest)) ∧
      ¬ "](".toList <:+: e.title ∧ ¬ [')'] <:+: e.file ∧
      ((stripPrefix ['—'] (trimStart rest)).map trimStart).getD (trim rest) = e.hook := by
  have htitle {s x y : Text} := splitOnce_eq_some (a := ']') (p := ['(']) (s := s) (x := x) (y := y) rfl (by decide)
  have hfile {s x y : Text} := splitOnce_eq_some (a := ')') (p := []) (s := s) (x := x) (y := y) rfl (by decide)
  unfold parseEntry
  simp only [Option.bind_eq_bind, Option.bind_eq_some_iff, Prod.exists, stripPrefix_eq_some]
  constructor
  · rintro ⟨rest, hrest, title, rest', ht, file, rest'', hf, he⟩
    cases he
    obtain ⟨rfl, ht'⟩ := htitle.1 ht
    obtain ⟨rfl, hf'⟩ := hfile.1 hf
    exact ⟨rest'', hrest, ht', hf', rfl⟩
  · rintro ⟨rest, hrest, ht, hf, hhook⟩
    exact ⟨_, hrest, e.title, _, htitle.2 ⟨rfl, ht⟩, e.file, rest, hfile.2 ⟨rfl, hf⟩, by rw [hhook]; rfl⟩

theorem trim_line (hhook : trim e.hook = e.hook) : ∃ w, trimStart w = e.hook ∧
    trim (line e) = "- [".toList ++ (e.title ++ "](".toList ++ (e.file ++ [')'] ++ ' ' :: '—' :: w)) := by
  have hstart : trimStart (line e) = line e := rfl
  obtain ⟨hhead, hlast⟩ := trim_eq_self.1 hhook
  rw [trim_eq, hstart]
  by_cases hempty : e.hook = []
  · refine ⟨[], hempty.symm, ?_⟩
    have hline : line e = ("- [".toList ++ e.title ++ "](".toList ++ e.file ++ ") —".toList) ++ [' '] := by
      simp [line, hempty]
    rw [hline, trimEnd, rdropWhile_concat_pos _ _ _ rfl]
    have hdrop := trimEnd_append (t := ") —".toList) (by simp) rfl ("- [".toList ++ e.title ++ "](".toList ++ e.file)
    simpa [trimEnd] using hdrop
  · refine ⟨' ' :: e.hook, hhead, ?_⟩
    rw [line, trimEnd_append hempty hlast]
    simp

theorem parseEntry_line (h : Plain e) : parseEntry (line e) = some e := by
  obtain ⟨w, hw, hline⟩ := trim_line h.hook
  exact parseEntry_eq_some.2 ⟨_, hline, h.title, fun hin => h.file (hin.subset (by simp)), hw⟩

theorem plain_of_parseEntry {l : Text} (h : parseEntry l = some e) (hl : '\n' ∉ l) : Plain e := by
  obtain ⟨rest, htrim, htitle, hfile, hhook⟩ := parseEntry_eq_some.1 h
  have hrest : trimEnd rest = rest := by
    refine trimEnd_of_suffix (trimEnd_trim l) ?_
    rw [htrim]
    exact ⟨"- [".toList ++ (e.title ++ "](".toList ++ (e.file ++ [')'])), by simp⟩
  have hsub : ∀ c ∈ trim l, c ∈ l := fun c hc =>
    (dropWhile_suffix _).subset (( rdropWhile_prefix _ _).subset hc)
  have hchars : e.hook <:+: rest ∧ trim e.hook = e.hook := by
    rw [← hhook]
    cases hdash : stripPrefix ['—'] (trimStart rest) with
    | none => exact ⟨( rdropWhile_prefix _ _).isInfix.trans (dropWhile_suffix _).isInfix, trim_trim rest⟩
    | some w =>
      have hw : w <:+ rest := (List.IsSuffix.trans ⟨['—'], (stripPrefix_eq_some.1 hdash).symm⟩ (dropWhile_suffix _) :)
      exact ⟨((dropWhile_suffix _).trans hw).isInfix, trim_trimStart (trimEnd_of_suffix hrest hw)⟩
  refine ⟨htitle, fun hmem => hfile ((singleton_infix_iff _ _).2 hmem), hchars.2, fun hmem => hl (hsub _ ?_)⟩
  rw [htrim]
  have hook : '\n' ∈ e.hook → '\n' ∈ rest := fun h => hchars.1.subset h
  simp only [line, mem_append] at hmem ⊢
  simp at hmem hook ⊢
  tauto

theorem parseLines_linesOf (h : ∀ e ∈ entries, Plain e) : parseLines ('\n' :: linesOf entries) = entries := by
  unfold parseLines
  rw [← nil_append ('\n' :: linesOf entries), splitOn_append_cons_self_of_not_mem (by simp)]
  induction entries with
  | nil => rfl
  | cons e entries ih =>
    obtain ⟨he, hrest⟩ := forall_mem_cons.1 h
    have hlines : linesOf (e :: entries) = line e ++ '\n' :: linesOf entries := by simp [linesOf]
    rw [hlines, splitOn_append_cons_self_of_not_mem he.newline]
    exact (filterMap_cons_some (parseEntry_line he)).trans (congrArg _ (ih hrest))

theorem plain_of_mem_managed (raw : Text) (h : e ∈ (parse raw).managed) : Plain e := by
  have hlines : ∀ inner, e ∈ parseLines inner → Plain e := by
    intro inner he
    obtain ⟨l, hl, hparse⟩ := mem_filterMap.1 he
    exact plain_of_parseEntry hparse (not_mem_of_mem_splitOn hl)
  unfold parse at h
  split at h
  · split at h
    · exact hlines _ h
    · cases h
  · cases h

/-! ### The region -/

theorem find_begin {i : ℕ} : find managedBegin raw = some i ↔
    ∃ x y, (raw = x ++ managedBegin ++ y ∧ ¬ managedBegin <:+: x) ∧ x.length = i :=
  find_eq_some (a := '<') (p := "!-- BEGIN pensieve-managed -->".toList) rfl (by decide)

theorem find_end {i : ℕ} : find managedEnd raw = some i ↔
    ∃ x y, (raw = x ++ managedEnd ++ y ∧ ¬ managedEnd <:+: x) ∧ x.length = i :=
  find_eq_some (a := '<') (p := "!-- END pensieve-managed -->".toList) rfl (by decide)

theorem Region.parse_eq (h : Region raw pre inner post) : parse raw = ⟨pre, parseLines inner, post, true⟩ := by
  have hbegin : find managedBegin raw = some pre.length :=
    find_begin.2 ⟨pre, inner ++ managedEnd ++ post, ⟨by simp [h.eq], h.first⟩, rfl⟩
  have hend : find managedEnd raw = some (pre ++ managedBegin ++ inner).length :=
    find_end.2 ⟨_, post, ⟨h.eq, h.last⟩, rfl⟩
  have hlt : pre.length < (pre ++ managedBegin ++ inner).length := by
    have hpos : 0 < managedBegin.length := by decide
    simp only [length_append]
    omega
  have htake : raw.take (pre ++ managedBegin ++ inner).length = pre ++ managedBegin ++ inner := by
    rw [h.eq, append_assoc (pre ++ managedBegin ++ inner), take_left]
  have hdrop : raw.drop ((pre ++ managedBegin ++ inner).length + managedEnd.length) = post := by
    rw [h.eq, ← length_append, drop_left]
  have hpre : raw.take pre.length = pre := by simp [h.eq]
  unfold parse
  rw [hbegin, hend]
  simp only [hlt, if_true, htake, hdrop, hpre]
  rw [← length_append, drop_left]

theorem parse_cases (raw : Text) : (∃ pre inner post, Region raw pre inner post) ∨ parse raw = ⟨raw, [], [], false⟩ := by
  unfold parse
  split
  next b e hb he =>
    split
    next hlt =>
      obtain ⟨x, y, ⟨hx, hfirst⟩, rfl⟩ := find_begin.1 hb
      obtain ⟨x', y', ⟨hx', hlast⟩, rfl⟩ := find_end.1 he
      -- the markers do not overlap
      obtain ⟨d, rfl⟩ : x <+: x' := prefix_of_prefix_length_le ⟨_, (append_assoc ..).symm.trans hx.symm⟩
        ⟨_, (append_assoc ..).symm.trans hx'.symm⟩ hlt.le
      have hd : managedBegin ++ y = d ++ (managedEnd ++ y') := by simpa using hx.symm.trans hx'
      rcases append_eq_append_iff.1 hd with ⟨inner, rfl, -⟩ | ⟨c, hc, hend⟩
      · exact .inl ⟨x, inner, y', by simpa using hx', hfirst, by simpa using hlast⟩
      · rcases c with - | ⟨a, c⟩
        · obtain rfl : managedBegin = d := by simpa using hc
          exact .inl ⟨x, [], y', by simpa using hx', hfirst, by simpa using hlast⟩
        · obtain rfl : '<' = a := (List.cons.inj hend).1
          rcases d with - | ⟨a, d⟩
          · simp at hlt
          · have hmem : '<' ∈ managedBegin.tail := by simp [hc]
            exact absurd hmem (by decide)
    next => exact .inr rfl
  next => exact .inr rfl

theorem end_infix_linesOf : managedEnd <:+: '\n' :: linesOf entries ↔ ∃ e ∈ entries, managedEnd <:+: line e := by
  have hnewline : '\n' ∉ managedEnd.tail := by decide
  have hnot : ∀ s, ¬ managedEnd <+: '\n' :: s := fun s hs => by cases (cons_prefix_cons.1 hs).1
  induction entries with
  | nil => simp [linesOf]; decide
  | cons e entries ih =>
    have hlines : linesOf (e :: entries) = line e ++ '\n' :: linesOf entries := by simp [linesOf]
    rw [infix_cons_iff, or_iff_right (hnot _), hlines, infix_append_cons hnewline]
    simp [ih]

theorem end_infix_append : managedEnd <:+: pre ++ managedBegin ++ '\n' :: s ↔
    managedEnd <:+: pre ∨ managedEnd <:+: '\n' :: s := by
  have hnewline : '\n' ∉ managedEnd.tail := by decide
  have hbegin : ¬ managedEnd <:+: managedBegin := by decide
  rw [infix_append_cons hnewline]
  refine or_congr_left ?_
  have hlt : '<' ∉ managedEnd.tail := by decide
  obtain ⟨rest, hrest⟩ : ∃ rest, managedBegin = '<' :: rest := ⟨_, rfl⟩
  rw [hrest] at hbegin ⊢
  rw [infix_append_cons hlt]
  exact or_iff_left hbegin

theorem render_ne (raw : Text) (entries : List ManagedEntry) : (⟨raw, entries, [], false⟩ : MemoryIndex).render ≠ raw := by
  intro h
  obtain ⟨v, hv⟩ : ∃ v, v = (if trimEnd raw = [] then "# Memory index".toList else trimEnd raw) ++ ['\n', '\n'] ++
    managedBegin ++ '\n' :: linesOf entries := ⟨_, rfl⟩
  have hraw : raw = v ++ managedEnd ++ ['\n'] := by
    simp only [MemoryIndex.render, Bool.false_eq_true, if_false] at h
    rw [hv, h]
  have htrim : trimEnd raw = v ++ managedEnd := by
    rw [hraw, trimEnd, rdropWhile_concat_pos _ _ _ rfl]
    exact trimEnd_append (by decide) rfl v
  have hne : v ++ managedEnd ≠ [] := append_ne_nil_of_right_ne_nil v (by decide)
  rw [htrim, if_neg hne] at hv
  have hlength := congrArg List.length hv
  simp only [length_append, length_cons] at hlength
  omega

theorem Region.update_eq (h : Region raw pre inner post) :
    update raw entries = pre ++ managedBegin ++ '\n' :: linesOf entries ++ managedEnd ++ post := by
  simp [update, h.parse_eq, MemoryIndex.setManaged, MemoryIndex.render]

theorem Region.edited (h : Region raw pre inner post) (hends : ∀ e ∈ entries, ¬ managedEnd <:+: line e) :
    Region (update raw entries) pre ('\n' :: linesOf entries) post := by
  refine ⟨h.update_eq, h.first, fun hinfix => ?_⟩
  rcases end_infix_append.1 hinfix with hpre | hlines
  · exact h.last (hpre.trans ⟨[], managedBegin ++ inner, by simp⟩)
  · obtain ⟨e, he, hend⟩ := end_infix_linesOf.1 hlines
    exact hends e he hend

/-- **When an edit is surgical.**  For every file and list of entries: exactly if the file has a region with the lines of
entries without delimiters, and the entries have neither delimiters nor the end marker in their lines. -/
theorem surgical_iff (raw : Text) (entries : List ManagedEntry) : Surgical raw entries ↔
    Rendered raw ∧ ∀ e ∈ entries, Plain e ∧ ¬ managedEnd <:+: line e := by
  constructor
  · intro h
    obtain ⟨pre, inner, post, hregion⟩ := (parse_cases raw).resolve_right fun hnone =>
      render_ne raw [] (by simpa [hnone] using h.unchanged)
    refine ⟨⟨pre, parseLines inner, post, ?_, fun e he => ?_⟩, fun e he => ⟨?_, fun hend => ?_⟩⟩
    · -- the region is written as it was
      have heq := h.unchanged
      rw [hregion.parse_eq] at heq
      have hinner : '\n' :: linesOf (parseLines inner) = inner := by
        simpa only [MemoryIndex.render, if_true, hregion.eq, append_left_inj, append_right_inj] using heq
      rwa [hinner]
    · exact plain_of_mem_managed raw (by rwa [hregion.parse_eq])
    · exact plain_of_mem_managed (update raw entries) (by rwa [h.readBack])
    · obtain ⟨pre', inner', post', hregion'⟩ := (parse_cases (update raw entries)).resolve_right fun hnone =>
        render_ne (update raw entries) entries (by
          have htwice := h.twice
          rwa [update, hnone] at htwice)
      have heq := h.twice
      rw [hregion'.update_eq, hregion'.eq] at heq
      obtain rfl : '\n' :: linesOf entries = inner' := by
        simpa only [append_left_inj, append_right_inj] using heq
      exact hregion'.last (end_infix_append.2 (.inr (end_infix_linesOf.2 ⟨e, he, hend⟩)))
  · rintro ⟨⟨pre, ents, post, hregion, hplain⟩, hentries⟩
    have hedited := hregion.edited fun e he => (hentries e he).2
    refine ⟨?_, fun hnone => absurd hregion (hnone _ _ _), ?_, ?_, ?_⟩
    · intro pre' inner' post' hregion'
      exact ⟨_, hregion'.update_eq⟩
    · rw [hedited.parse_eq]
      exact parseLines_linesOf fun e he => (hentries e he).1
    · rw [hregion.parse_eq, parseLines_linesOf hplain]
      simp [MemoryIndex.render, hregion.eq]
    · rw [hedited.update_eq, hregion.update_eq]

/-- **An entry with a link in its title** is read back as another. -/
theorem not_surgical_of_link : ¬Surgical (managedBegin ++ '\n' :: managedEnd)
    [⟨"see [b](b.md)".toList, "a.md".toList, "hook".toList⟩] := by
  intro h
  exact absurd h.readBack (by decide)

end Ccmem
