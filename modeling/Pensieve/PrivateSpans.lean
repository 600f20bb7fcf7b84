/-
**Private spans.**

The writer and the exporter of memories each look for the spans between two tags, and take them out of a text.  Both
are one loop, with the letter case folded or not; what they take out is compared with the spans of the text.
-/

import Pensieve.ManagedRegion

namespace PrivateSpan

open List
open Discover (Text)
open Ccmem (find splitOnce infix_append_cons)
open Recall (trim)

/-! ### The loop -/

def openTag : Text := ['<', 'p', 'r', 'i', 'v', 'a', 't', 'e', '>']

def closeTag : Text := ['<', '/', 'p', 'r', 'i', 'v', 'a', 't', 'e', '>']

theorem find_nil {pat : Text} (h : pat ≠ []) : find pat [] = none := by simp [find, splitOnce, h]

theorem find_cons {pat s : Text} {c : Char} :
    find pat (c :: s) = if pat.isPrefixOf (c :: s) then some 0 else (find pat s).map (· + 1) := by
  rw [find, splitOnce]
  split
  · rfl
  · rw [find, Option.map_map, Option.map_map]
    rfl

theorem find_le {pat s : Text} {i : ℕ} (hne : pat ≠ []) (h : find pat s = some i) : i + pat.length ≤ s.length := by
  induction s generalizing i with
  | nil => cases (find_nil hne).symm.trans h
  | cons c s ih =>
    rw [find_cons] at h
    split at h
    next hpre =>
      cases h
      rw [Nat.zero_add]
      exact ( isPrefixOf_iff_prefix.1 hpre).length_le
    next =>
      obtain ⟨j, hj, rfl⟩ := Option.map_eq_some_iff.1 h
      have := ih hj
      rw [length_cons]
      omega

/-- The pieces that the loop cuts the text into; those with `false` are its spans. -/
def pieces (fold : Char → Char) (s : Text) : List (Bool × Text) :=
  match _h : find openTag (s.map fold) with
  | none => [(true, s)]
  | some start =>
    match find closeTag ((s.drop (start + 9)).map fold) with
    | none => [(true, s.take start), (false, s.drop start)]
    | some len =>
      (true, s.take start) :: (false, (s.drop start).take (9 + (len + 10))) :: pieces fold (s.drop (start + 9 + (len + 10)))
termination_by s.length
decreasing_by
  have hlen : start + 9 ≤ (s.map fold).length := find_le (by decide) _h
  rw [length_map] at hlen
  rw [length_drop]
  omega

def redacted : Text := ['[', 'r', 'e', 'd', 'a', 'c', 't', 'e', 'd', ']']

def render (marker : Text) (ps : List (Bool × Text)) : Text := ps.flatMap fun p => if p.1 then p.2 else marker

def redactPrivate (s : Text) : Text := render redacted (pieces Char.toLower s)

def stripPrivateSpans (s : Text) : Text := render [] (pieces id s)

def kept (fold : Char → Char) (s : Text) : List Bool := (pieces fold s).flatMap fun p => p.2.map fun _ => p.1

/-! ### Memories -/

structure CreateMemory where
  content : Text
  title : Option Text
  tags : List Text
  topicKey : Option Text
  /-- as JSON text -/
  provenance : Option Text

structure NodeRow where
  title : Option Text
  content : Text
  contentPreview : Text
  tags : Text
  provenance : Option Text
  topicKey : Option Text

def redactCreate (m : CreateMemory) : CreateMemory :=
  { m with
    content := redactPrivate m.content
    title := m.title.map redactPrivate }

def preview (content : Text) : Text :=
  let trimmed := trim content
  if trimmed.length ≤ 280 then trimmed else trimmed.take 280 ++ ['…']

def nodeRow (m : CreateMemory) : NodeRow where
  title := m.title
  content := m.content
  contentPreview := preview m.content
  tags := [','].intercalate m.tags
  provenance := m.provenance
  topicKey := m.topicKey

/-! ### The spans of a text -/

def tagAt (fold : Char → Char) (tag s : Text) : Bool := tag.isPrefixOf (s.map fold)

/-- For each character, whether it is outside the spans: the first number is what is left of a tag, the second how many
open tags are not yet closed.  Without `nest`, an open tag in a span is not counted. -/
def scan (fold : Char → Char) (nest : Bool) : ℕ → ℕ → Text → List Bool
  | _, _, [] => []
  | rest + 1, depth, _ :: s => false :: scan fold nest rest depth s
  | 0, 0, c :: s =>
    if tagAt fold openTag (c :: s) then false :: scan fold nest 8 1 s else true :: scan fold nest 0 0 s
  | 0, depth + 1, c :: s =>
    if tagAt fold closeTag (c :: s) then false :: scan fold nest (if depth = 0 then 9 else 0) depth s
    else if nest && tagAt fold openTag (c :: s) then false :: scan fold nest 0 (depth + 2) s
    else false :: scan fold nest 0 (depth + 1) s

/-- **What is outside the private spans**, whatever the letter case and nesting of the tags. -/
def outside (s : Text) : List Bool := scan Char.toLower true 0 0 s

variable {fold : Char → Char} {nest : Bool} {s t : Text} {c : Char} {i rest depth extra : ℕ}

theorem find_eq_none {pat : Text} (hne : pat ≠ []) : find pat s = none ↔ ¬ pat <:+: s := by
  induction s with
  | nil => simp [find_nil hne, hne]
  | cons c s ih =>
    rw [find_cons, infix_cons_iff, ← isPrefixOf_iff_prefix]
    split
    next hpre => simp [hpre]
    next hpre => simp [hpre, ih]

theorem scan_rest (h : rest ≤ s.length) :
    scan fold nest rest depth s = replicate rest false ++ scan fold nest 0 depth (s.drop rest) := by
  induction rest generalizing s with
  | zero => rfl
  | succ rest ih =>
    cases s with
    | nil => cases h
    | cons c s =>
      rw [scan, ih (by simpa using h)]
      rfl

theorem length_le_of_tagAt {tag : Text} (h : tagAt fold tag s) : tag.length ≤ s.length := by
  simpa using ( isPrefixOf_iff_prefix.1 h).length_le

theorem scan_outside : scan fold nest 0 0 s = match find openTag (s.map fold) with
    | none => replicate s.length true
    | some start => replicate start true ++ (replicate 9 false ++ scan fold nest 0 1 (s.drop (start + 9))) := by
  induction s with
  | nil => rfl
  | cons c s ih =>
    rw [scan, map_cons, find_cons]
    by_cases htag : tagAt fold openTag (c :: s)
    · have hlen : 9 ≤ (c :: s).length := length_le_of_tagAt htag
      rw [if_pos htag, if_pos (by exact htag), scan_rest (by simpa using hlen)]
      rfl
    · rw [if_neg htag, if_neg (by exact htag), ih]
      cases find openTag (s.map fold) with
      | none => rfl
      | some start => simp [replicate_succ, Nat.add_right_comm start 1 9]

theorem scan_inside : scan fold false 0 1 s = match find closeTag (s.map fold) with
    | none => replicate s.length false
    | some len => replicate (len + 10) false ++ scan fold false 0 0 (s.drop (len + 10)) := by
  induction s with
  | nil => rfl
  | cons c s ih =>
    rw [scan, map_cons, find_cons]
    by_cases htag : tagAt fold closeTag (c :: s)
    · have hlen : 10 ≤ (c :: s).length := length_le_of_tagAt htag
      rw [if_pos rfl, if_pos htag, if_pos (by exact htag), scan_rest (by simpa using hlen)]
      rfl
    · rw [Bool.false_and, if_neg Bool.false_ne_true, if_neg htag, if_neg (by exact htag), ih]
      cases find closeTag (s.map fold) with
      | none => rfl
      | some len => simp [replicate_succ, Nat.add_right_comm len 1 10]

theorem kept_eq_scan (fold : Char → Char) (s : Text) : kept fold s = scan fold false 0 0 s := by
  unfold kept
  fun_induction pieces fold s with
  | case1 s hnone =>
    rw [scan_outside, hnone]
    simp
  | case2 s start hstart hnone =>
    have hlen : start + 9 ≤ (s.map fold).length := find_le (by decide) hstart
    rw [length_map] at hlen
    rw [scan_outside, hstart]
    simp only [scan_inside, hnone, replicate_append_replicate, flatMap_cons, flatMap_nil, append_nil, map_const',
      length_take, length_drop]
    congr 2 <;> omega
  | case3 s start hstart len hlen ih =>
    have hstart' : start + 9 ≤ (s.map fold).length := find_le (by decide) hstart
    have hlen' : len + 10 ≤ ((s.drop (start + 9)).map fold).length := find_le (by decide) hlen
    rw [length_map] at hstart'
    rw [length_map, length_drop] at hlen'
    rw [scan_outside, hstart, flatMap_cons, flatMap_cons, ih]
    simp only [scan_inside, hlen, ← append_assoc, replicate_append_replicate, map_const', length_take, length_drop, drop_drop]
    rw [min_eq_left (by omega), min_eq_left (by omega), append_assoc]

/-! ### Two scans -/

/-- Beside the scan of the writer, which is `depth` deep, runs one that is `extra` deeper: an open tag outside all spans
is seen by both, and text outside the writer's spans is outside those of the other. -/
def Alike (fold : Char → Char) (nest : Bool) : ℕ → ℕ → ℕ → Text → Prop
  | _, _, _, [] => True
  | extra, rest + 1, depth, _ :: s => Alike fold nest extra rest depth s
  | extra, 0, 0, c :: s =>
    if tagAt Char.toLower openTag (c :: s) then
      (extra = 0 → tagAt fold openTag (c :: s)) ∧ Alike fold nest (if nest then extra else 0) 8 1 s
    else extra = 0 ∧ Alike fold nest 0 0 0 s
  | extra, 0, _ + 1, c :: s =>
    if tagAt Char.toLower closeTag (c :: s) then
      Alike fold nest (if tagAt fold closeTag (c :: s) then extra else extra + 1) 9 0 s
    else Alike fold nest (if nest && tagAt fold openTag (c :: s) then extra + 1 else extra) 0 1 s

/-- A scan that sees tags where the writer's does, and if it counts open tags, all of them. -/
structure Sees (fold : Char → Char) (nest : Bool) : Prop where
  tag : ∀ {pat s}, pat = openTag ∨ pat = closeTag → tagAt fold pat s → tagAt Char.toLower pat s
  nested : nest → ∀ {s}, tagAt Char.toLower openTag s → tagAt fold openTag s

theorem not_tagAt {pat : Text} (hpat : pat = openTag ∨ pat = closeTag) (hc : c.toLower ≠ '<') :
    ¬ tagAt Char.toLower pat (c :: s) := by
  rintro htag
  have hpre := isPrefixOf_iff_prefix.1 htag
  rcases hpat with rfl | rfl
  · exact hc (cons_prefix_cons.1 hpre).1.symm
  · exact hc (cons_prefix_cons.1 hpre).1.symm

theorem not_both (hopen : tagAt Char.toLower openTag s) : ¬ tagAt Char.toLower closeTag s := by
  intro hclose
  have h := prefix_of_prefix_length_le ( isPrefixOf_iff_prefix.1 hopen) ( isPrefixOf_iff_prefix.1 hclose) (by decide)
  revert h
  decide

theorem quiet_of_tagAt {pat : Text} (hpat : pat = openTag ∨ pat = closeTag) (h : tagAt Char.toLower pat (c :: s)) :
    ∀ x ∈ s.take (pat.length - 1), x.toLower ≠ '<' := by
  intro x hx
  obtain ⟨z, hz⟩ := isPrefixOf_iff_prefix.1 h
  have htail : (s.take (pat.length - 1)).map Char.toLower = pat.tail := by
    rw [map_take]
    rcases hpat with rfl | rfl
    · rw [(List.cons.inj hz).2.symm]
      rfl
    · rw [(List.cons.inj hz).2.symm]
      rfl
  have hmem : x.toLower ∈ pat.tail := htail ▸ mem_map_of_mem hx
  rintro heq
  rw [heq] at hmem
  rcases hpat with rfl | rfl
  · exact absurd hmem (by decide)
  · exact absurd hmem (by decide)

theorem scan_eq_iff (hsees : Sees fold nest) {rest' : ℕ} (hrest : rest' = rest ∨ rest' = 0 ∧ 0 < depth + extra)
    (hquiet : ∀ x ∈ s.take rest, x.toLower ≠ '<') (hdepth : depth ≤ 1) (hextra : nest = false → depth + extra ≤ 1) :
    scan fold nest rest' (depth + extra) s = scan Char.toLower false rest depth s ↔ Alike fold nest extra rest depth s := by
  induction s generalizing rest rest' depth extra with
  | nil => simp [scan, Alike]
  | cons c s ih =>
    have hopen : ¬ tagAt Char.toLower openTag (c :: s) → ¬ tagAt fold openTag (c :: s) := mt (hsees.tag (.inl rfl))
    have hclose : ¬ tagAt Char.toLower closeTag (c :: s) → ¬ tagAt fold closeTag (c :: s) := mt (hsees.tag (.inr rfl))
    rcases rest with - | rest
    · obtain rfl : rest' = 0 := by omega
      rcases depth with - | depth
      · -- the writer is outside
        by_cases htag : tagAt Char.toLower openTag (c :: s)
        · have hq := quiet_of_tagAt (.inl rfl) htag
          rcases extra with - | extra
          · by_cases ht : tagAt fold openTag (c :: s)
            · have h : scan fold nest 8 (1 + 0) s = scan Char.toLower false 8 1 s ↔ Alike fold nest 0 8 1 s :=
                ih (.inl rfl) hq le_rfl fun _ => le_rfl
              simpa [scan, Alike, htag, ht] using h
            · simp [scan, Alike, htag, ht]
          · have hc : ¬ tagAt fold closeTag (c :: s) := hclose (not_both htag)
            cases nest with
            | true =>
              have h : scan fold true 0 (1 + (extra + 1)) s = scan Char.toLower false 8 1 s ↔
                  Alike fold true (extra + 1) 8 1 s := ih (.inr ⟨rfl, by omega⟩) hq le_rfl nofun
              rw [Nat.add_comm 1] at h
              simpa [scan, Alike, htag, hc, hsees.nested rfl htag] using h
            | false =>
              obtain rfl : extra = 0 := by
                have := hextra rfl
                omega
              have h : scan fold false 0 (1 + 0) s = scan Char.toLower false 8 1 s ↔ Alike fold false 0 8 1 s :=
                ih (.inr ⟨rfl, by omega⟩) hq le_rfl fun _ => le_rfl
              simpa [scan, Alike, htag, hc] using h
        · rcases extra with - | extra
          · have h : scan fold nest 0 (0 + 0) s = scan Char.toLower false 0 0 s ↔ Alike fold nest 0 0 0 s :=
              ih (.inl rfl) (by simp) (Nat.zero_le _) fun _ => Nat.zero_le _
            simpa [scan, Alike, htag, hopen htag] using h
          · simp only [scan, Alike, htag]
            split <;> [skip; split] <;> simp
      · obtain rfl : depth = 0 := by omega
        -- the writer is in a span
        rw [Nat.add_comm (0 + 1)] at *
        by_cases htag : tagAt Char.toLower closeTag (c :: s)
        · have hq := quiet_of_tagAt (.inr rfl) htag
          by_cases ht : tagAt fold closeTag (c :: s)
          · have h : scan fold nest (if extra = 0 then 9 else 0) (0 + extra) s = scan Char.toLower false 9 0 s ↔
                Alike fold nest extra 9 0 s := by
              refine ih ?_ hq (Nat.zero_le _) fun hn => ?_
              · split <;> omega
              · have := hextra hn
                omega
            rw [Nat.zero_add] at h
            simpa [scan, Alike, htag, ht] using h
          · have ho : ¬ tagAt fold openTag (c :: s) := hopen fun ho => not_both ho htag
            have h : scan fold nest 0 (0 + (extra + 1)) s = scan Char.toLower false 9 0 s ↔
                Alike fold nest (extra + 1) 9 0 s := ih (.inr ⟨rfl, by omega⟩) hq (Nat.zero_le _) fun hn => by
              have := hextra hn
              omega
            rw [Nat.zero_add] at h
            simpa [scan, Alike, htag, ht, ho] using h
        · by_cases ho : (nest && tagAt fold openTag (c :: s)) = true
          · have h : scan fold nest 0 (1 + (extra + 1)) s = scan Char.toLower false 0 1 s ↔
                Alike fold nest (extra + 1) 0 1 s := ih (.inl rfl) (by simp) le_rfl fun hn => by simp [hn] at ho
            rw [Nat.add_comm 1] at h
            simp only [scan, Alike, if_neg htag, if_neg (hclose htag), ho, if_true]
            simpa using h
          · have h : scan fold nest 0 (1 + extra) s = scan Char.toLower false 0 1 s ↔ Alike fold nest extra 0 1 s :=
              ih (.inl rfl) (by simp) le_rfl fun hn => by
              have := hextra hn
              omega
            rw [Nat.add_comm 1] at h
            simp only [scan, Alike, if_neg htag, if_neg (hclose htag), ho]
            simpa using h
    · -- in the rest of a tag
      rw [take_succ_cons, forall_mem_cons] at hquiet
      rcases hrest with rfl | ⟨rfl, hpos⟩
      · have h := ih (.inl rfl) hquiet.2 hdepth hextra
        simpa [scan, Alike] using h
      · obtain ⟨d, hd⟩ : ∃ d, depth + extra = d + 1 := ⟨depth + extra - 1, by omega⟩
        have h := ih (.inr ⟨rfl, hpos⟩) hquiet.2 hdepth hextra
        have hc := hclose (not_tagAt (.inr rfl) hquiet.1)
        have ho := hopen (not_tagAt (.inl rfl) hquiet.1)
        rw [hd] at h ⊢
        simpa [scan, Alike, hc, ho] using h

theorem sees_nested : Sees Char.toLower true := ⟨fun _ h => h, fun _ _ h => h⟩

theorem sees_exact : Sees id false where
  tag := by
    intro pat s hpat h
    obtain ⟨z, hz⟩ := isPrefixOf_iff_prefix.1 h
    rw [map_id] at hz
    subst hz
    refine isPrefixOf_iff_prefix.2 ?_
    rw [map_append]
    rcases hpat with rfl | rfl
    · exact ⟨_, rfl⟩
    · exact ⟨_, rfl⟩
  nested := nofun

/-! ### The laws of redaction -/

theorem not_infix_marker {x y : Text} (hx : ¬ openTag <:+: x.map Char.toLower) (hy : ¬ openTag <:+: y.map Char.toLower) :
    ¬ openTag <:+: (x ++ (redacted ++ y)).map Char.toLower := by
  have hmap : (x ++ (redacted ++ y)).map Char.toLower =
      x.map Char.toLower ++ '[' :: (redacted.tail.dropLast ++ ']' :: y.map Char.toLower) := by
    rw [map_append, map_append]
    rfl
  rw [hmap, infix_append_cons (by decide), infix_cons_iff, infix_append_cons (by decide), infix_cons_iff]
  rintro (h | h | h | h | h)
  · exact hx h
  · exact absurd (cons_prefix_cons.1 h).1 (by decide)
  · exact absurd h (by decide)
  · exact absurd (cons_prefix_cons.1 h).1 (by decide)
  · exact hy h

theorem not_infix_take {i : ℕ} (h : find openTag (s.map Char.toLower) = some i) :
    ¬ openTag <:+: (s.take i).map Char.toLower := by
  obtain ⟨x, y, ⟨heq, hx⟩, rfl⟩ := (Ccmem.find_eq_some rfl (by decide)).1 h
  rwa [map_take, heq, append_assoc, take_left]

theorem not_infix_redactPrivate (s : Text) : ¬ openTag <:+: (redactPrivate s).map Char.toLower := by
  unfold redactPrivate render
  fun_induction pieces Char.toLower s with
  | case1 s hnone => simpa using (find_eq_none (by decide)).1 hnone
  | case2 s start hstart hnone => exact not_infix_marker (y := []) (not_infix_take hstart) (by decide)
  | case3 s start hstart len hlen ih => exact not_infix_marker (not_infix_take hstart) ih

theorem redactPrivate_redactPrivate (s : Text) : redactPrivate (redactPrivate s) = redactPrivate s := by
  have hnone := (find_eq_none (by decide)).2 (not_infix_redactPrivate s)
  rw [redactPrivate, pieces]
  split
  next => simp [render]
  next hsome =>
    rw [hnone] at hsome
    cases hsome

theorem false_notMem_outside : false ∉ outside s ↔ ¬ openTag <:+: s.map Char.toLower := by
  rw [← find_eq_none (by decide), outside, scan_outside]
  cases find openTag (s.map Char.toLower) <;> simp

/-! ### No private text is stored or exported -/

/-- The redaction takes out the spans of the text, and nothing else; it is done once and leaves no open tag. -/
structure Redacts (s : Text) : Prop where
  spans : kept Char.toLower s = outside s
  clean : ¬ openTag <:+: (redactPrivate s).map Char.toLower
  twice : redactPrivate (redactPrivate s) = redactPrivate s

/-- The content and the title are redacted, and the other texts of the row have no spans. -/
structure Stored (m : CreateMemory) : Prop where
  content : Redacts m.content
  title : ∀ t ∈ m.title, Redacts t
  tags : false ∉ outside (nodeRow (redactCreate m)).tags
  topicKey : ∀ t ∈ (nodeRow (redactCreate m)).topicKey, false ∉ outside t
  provenance : ∀ t ∈ (nodeRow (redactCreate m)).provenance, false ∉ outside t

def Exports (s : Text) : Prop := kept id s = kept Char.toLower s

def Unnested (s : Text) : Prop := Alike Char.toLower true 0 0 0 s

/-- An open tag that starts a span is in lower case, unless the close tag right before it is not; and a close tag that
ends a span is in lower case, or right before an open tag or the end. -/
def LowerCase (s : Text) : Prop := Alike id false 0 0 0 s

def Tagless (s : Text) : Prop := ¬ openTag <:+: s.map Char.toLower

theorem redacts_iff : Redacts s ↔ Unnested s := by
  have hscan : scan Char.toLower true 0 (0 + 0) s = scan Char.toLower false 0 0 s ↔ Unnested s :=
    scan_eq_iff sees_nested (.inl rfl) (by simp) (Nat.zero_le _) nofun
  have h : outside s = kept Char.toLower s ↔ Unnested s := by
    rw [kept_eq_scan]
    exact hscan
  exact ⟨fun hs => h.1 hs.spans.symm, fun hs => ⟨(h.2 hs).symm, not_infix_redactPrivate s, redactPrivate_redactPrivate s⟩⟩

theorem exports_iff : Exports s ↔ LowerCase s := by
  have hscan : scan id false 0 (0 + 0) s = scan Char.toLower false 0 0 s ↔ LowerCase s :=
    scan_eq_iff sees_exact (.inl rfl) (by simp) (Nat.zero_le _) fun _ => Nat.zero_le _
  rw [Exports, kept_eq_scan, kept_eq_scan]
  exact hscan

end PrivateSpan
