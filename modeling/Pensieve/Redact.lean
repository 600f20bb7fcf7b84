/-
**Redacting secrets from a text.**

A guard knows exact values, and patterns.  A text is redacted in passes: the known values first, as
the automaton finds them, and then pattern after pattern, each on the text that the passes before it
have left.

Main results:

* `Redact.SecretGuard.masked_iff` — **when the passes cover every secret of the text**;
* `Redact.secret_left` — a known value that begins with another, and a password behind a known value.
-/

import Pensieve.Masking
import Pensieve.Rows

namespace Redact

open List
open Masking

abbrev Text := List Char

def byteLen (text : Text) : ℕ := (text.map Char.utf8Size).sum

structure Finding where
  kind : String
  deriving DecidableEq

def marker (kind : String) : Text := "[REDACTED:".toList ++ (kind.toList ++ "]".toList)

/-! ### Guards -/

structure Span where
  start : ℕ
  stop : ℕ
  deriving DecidableEq

/-- A match of a pattern, and of the capture group that is declared for it. -/
structure Captures where
  whole : Span
  group : Span
  deriving DecidableEq

def CapturesInOrder : ℕ → ℕ → List Captures → Prop
  | last, len, [] => last ≤ len
  | last, len, c :: cs => last ≤ c.whole.start ∧ c.whole.start ≤ c.group.start ∧
      c.group.start ≤ c.group.stop ∧ c.group.stop ≤ c.whole.stop ∧ CapturesInOrder c.whole.stop len cs

/-- A compiled regular expression: what it matches in a text, from left to right. -/
structure Regex where
  captures : Text → List Captures
  inOrder : ∀ text, CapturesInOrder 0 text.length (captures text)

structure Pattern where
  kind : String
  re : Regex
  /-- the capture group to replace; `0` is the whole match -/
  group : ℕ

def patterns (re : String → Regex) : List Pattern :=
  let p := fun kind group => (⟨kind, re kind, group⟩ : Pattern)
  [p "github-pat" 0, p "github-token" 0, p "anthropic-key" 0, p "api-key" 0, p "aws-key-id" 0,
    p "slack-token" 0, p "jwt" 0, p "url-credential" 1, p "bearer-token" 1, p "private-key" 0]

structure Known where
  kind : String
  value : Text
  deriving DecidableEq

structure SecretGuard where
  patterns : List Pattern
  known : List Known
  long : ∀ k ∈ known, 8 ≤ byteLen k.value
  nodup : (known.map Known.value).Nodup

def SecretGuard.new (re : String → Regex) : SecretGuard := ⟨Redact.patterns re, [], nofun, nodup_nil⟩

def SecretGuard.registerValue (g : SecretGuard) (kind : String) (value : Text) : SecretGuard :=
  if hlen : byteLen value < 8 then g
  else if hmem : value ∈ g.known.map Known.value then g
  else
    { g with
      known := g.known ++ [⟨kind, value⟩]
      long := fun k hk => by
        rcases mem_append.1 hk with hk | hk
        · exact g.long k hk
        · rw [mem_singleton.1 hk]
          exact Nat.le_of_not_lt hlen
      nodup := by
        rw [map_append, map_singleton]
        refine nodup_append.2 ⟨g.nodup, nodup_singleton _, fun x hx y hy heq => hmem ?_⟩
        have hy : y = value := mem_singleton.1 hy
        exact hy ▸ heq ▸ hx }

/-! ### Known values -/

/-- The longest of the values that end here; `seen` is what has been read, the last character first. -/
def longest : List Known → Text → Option Known
  | [], _ => none
  | k :: ks, seen =>
    if k.value.reverse.isPrefixOf seen then
      match longest ks seen with
      | some k' => if k'.value.length ≤ k.value.length then some k else some k'
      | none => some k
    else longest ks seen

/-- **What the automaton reports**, from the place `pos` on: a value as soon as it has been read.  After a
match it starts anew. -/
def findIter (known : List Known) : ℕ → Text → Text → List (Hit String)
  | _, _, [] => []
  | pos, seen, c :: rest =>
    match longest known (c :: seen) with
    | some k => ⟨pos + 1 - k.value.length, pos + 1, k.kind⟩ :: findIter known (pos + 1) [] rest
    | none => findIter known (pos + 1) (c :: seen) rest

def SecretGuard.knownHits (g : SecretGuard) (text : Text) : List (Hit String) := findIter g.known 0 [] text

def SecretGuard.redactKnown (g : SecretGuard) (text : Text) : Text × List Finding :=
  (splice marker text 0 (g.knownHits text), (g.knownHits text).map fun h => ⟨h.kind⟩)

/-! ### Patterns -/

def Pattern.replacement (p : Pattern) (text : Text) (c : Captures) : Text :=
  if p.group = 0 then marker p.kind
  else
    let s := slice text c.whole.start c.whole.stop
    s.take (c.group.start - c.whole.start) ++ (marker p.kind ++ s.drop (c.group.stop - c.whole.start))

/-- `replace_all`, over what has been matched; what stands before `last` has been copied. -/
def Pattern.replaceAll (p : Pattern) (text : Text) : ℕ → List Captures → Text
  | last, [] => text.drop last
  | last, c :: cs =>
    slice text last c.whole.start ++ p.replacement text c ++ p.replaceAll text c.whole.stop cs

def redactPatterns : List Pattern → Text → Text × List Finding
  | [], text => (text, [])
  | p :: ps, text =>
    let found := p.re.captures text
    if found.isEmpty then redactPatterns ps text
    else
      let (out, findings) := redactPatterns ps (p.replaceAll text 0 found)
      (out, found.map (fun _ => ⟨p.kind⟩) ++ findings)

/-- **Redact known values, and what the patterns match.** -/
def SecretGuard.redactText (g : SecretGuard) (text : Text) : Text × List Finding :=
  let (out, findings) := g.redactKnown text
  let (out, findings') := redactPatterns g.patterns out
  (out, findings ++ findings')

/-! ### Secrets -/

def Pattern.secret (p : Pattern) (c : Captures) : Span := if p.group = 0 then c.whole else c.group

def Pattern.hits (p : Pattern) (text : Text) : List (Hit String) :=
  (p.re.captures text).map fun c => ⟨(p.secret c).start, (p.secret c).stop, p.kind⟩

def SecretGuard.InKnown (g : SecretGuard) (text : Text) (i : ℕ) : Prop :=
  ∃ k ∈ g.known, ∃ a, k.value <+: text.drop a ∧ a ≤ i ∧ i < a + k.value.length

def Pattern.Secret (p : Pattern) (text : Text) (i : ℕ) : Prop := ∃ h ∈ p.hits text, h.Has i

def SecretGuard.Secret (g : SecretGuard) (text : Text) (i : ℕ) : Prop :=
  g.InKnown text i ∨ ∃ p ∈ g.patterns, p.Secret text i

/-- **The text, with ranges replaced by markers that cover the places.** -/
def Redacts (secret : ℕ → Prop) (text out : Text) : Prop :=
  ∃ segs : List (Seg Char String), orig segs = text ∧ shown marker segs = out ∧
    ∀ i, secret i → place marker segs i = none

/-! ### The passes on a masked text -/

def Pattern.pass (p : Pattern) (segs : List (Seg Char String)) : Option (List (Seg Char String)) :=
  absorb marker 0 segs (p.hits (shown marker segs))

def passes : List Pattern → List (Seg Char String) → Option (List (Seg Char String))
  | [], segs => some segs
  | p :: ps, segs => (p.pass segs).bind (passes ps)

def SecretGuard.knownPass (g : SecretGuard) (text : Text) : Option (List (Seg Char String)) :=
  absorb marker 0 (plain text) (g.knownHits text)

/-- **The passes cover every secret of the text**, and what they replace are ranges of the text. -/
def SecretGuard.Masked (g : SecretGuard) (text : Text) : Prop :=
  ∃ segs, (g.knownPass text).bind (passes g.patterns) = some segs ∧
    orig segs = text ∧ shown marker segs = (g.redactText text).1 ∧
    ∀ i, g.Secret text i → place marker segs i = none

def Pattern.Takes (p : Pattern) (segs : List (Seg Char String)) (i : ℕ) : Prop :=
  ∃ q, place marker segs i = some q ∧ p.Secret (shown marker segs) q

def Later : List Pattern → List (Seg Char String) → ℕ → Prop
  | [], _, _ => False
  | p :: ps, segs, i => p.Takes segs i ∨ ∃ segs', p.pass segs = some segs' ∧ Later ps segs' i

/-- **The condition on the passes.**  No match cuts through a marker, and a pattern still matches what is
left of the secrets that it matches in the text (or a pattern after it does). -/
def FollowUp (text : Text) : List Pattern → List (Seg Char String) → Prop
  | [], _ => True
  | p :: ps, segs =>
    (∀ i q, p.Secret text i → place marker segs i = some q → Later (p :: ps) segs i) ∧
      ∃ segs', p.pass segs = some segs' ∧ FollowUp text ps segs'

/-- **The condition**: what the automaton leaves of a known value is matched by a pattern, and the patterns
follow up. -/
def SecretGuard.KeepsUp (g : SecretGuard) (text : Text) : Prop :=
  ∃ segs, g.knownPass text = some segs ∧
    (∀ i, g.InKnown text i → (∃ h ∈ g.knownHits text, h.Has i) ∨ Later g.patterns segs i) ∧
    FollowUp text g.patterns segs

/-! ### What the automaton reports -/

theorem longest_mem {ks : List Known} {seen : Text} {k : Known} (h : longest ks seen = some k) :
    k ∈ ks ∧ k.value.reverse <+: seen := by
  induction ks generalizing k with
  | nil => cases h
  | cons x ks ih =>
    rw [longest] at h
    split_ifs at h with hx
    · have hx' := isPrefixOf_iff_prefix.1 hx
      split at h
      · rename_i k' hk'
        split_ifs at h
        · cases h
          exact ⟨mem_cons_self, hx'⟩
        · cases h
          exact (ih hk').imp_left (mem_cons_of_mem _)
      · cases h
        exact ⟨mem_cons_self, hx'⟩
    · exact (ih h).imp_left (mem_cons_of_mem _)

theorem findIter_inOrder (known : List Known) (pos : ℕ) (seen rest : Text) (hseen : seen.length ≤ pos) :
    InOrder (pos - seen.length) (pos + rest.length) (findIter known pos seen rest) := by
  induction rest generalizing pos seen with
  | nil => exact Nat.sub_le pos seen.length
  | cons c rest ih =>
    have hlen : pos + (c :: rest).length = pos + 1 + rest.length := by
      rw [length_cons]
      omega
    rw [findIter, hlen]
    split
    · rename_i k hk
      have hle := (longest_mem hk).2.length_le
      rw [length_reverse, length_cons] at hle
      refine ⟨?_, Nat.sub_le _ _, ih (pos + 1) [] (Nat.zero_le _)⟩
      change pos - seen.length ≤ pos + 1 - k.value.length
      omega
    · have hih := ih (pos + 1) (c :: seen) (Nat.succ_le_succ hseen)
      rwa [length_cons, Nat.add_sub_add_right] at hih

theorem SecretGuard.knownHits_inOrder (g : SecretGuard) (text : Text) : InOrder 0 text.length (g.knownHits text) := by
  have h := findIter_inOrder g.known 0 [] text (Nat.zero_le 0)
  rwa [Nat.zero_add] at h

/-! ### What the passes show -/

variable {last : ℕ} {cs : List Captures}

theorem CapturesInOrder.hits {p : Pattern} {len : ℕ} (h : CapturesInOrder last len cs) :
    InOrder last len (cs.map fun c => ⟨(p.secret c).start, (p.secret c).stop, p.kind⟩) := by
  induction cs generalizing last with
  | nil => exact h
  | cons c cs ih =>
    obtain ⟨h₁, h₂, h₃, h₄, hrest⟩ := h
    rw [map_cons, Pattern.secret]
    split_ifs
    · exact ⟨h₁, h₂.trans (h₃.trans h₄), ih hrest⟩
    · exact ⟨h₁.trans h₂, h₃, (ih hrest).mono h₄⟩

theorem CapturesInOrder.le {len : ℕ} (h : CapturesInOrder last len cs) : last ≤ len := by
  induction cs generalizing last with
  | nil => exact h
  | cons c cs ih =>
    obtain ⟨h₁, h₂, h₃, h₄, hrest⟩ := h
    exact h₁.trans (h₂.trans (h₃.trans (h₄.trans (ih hrest))))

theorem CapturesInOrder.whole_le {len : ℕ} (h : CapturesInOrder last len cs) {c : Captures}
    (hc : c ∈ cs) : c.whole.start ≤ len ∧ c.whole.stop ≤ len := by
  induction cs generalizing last with
  | nil => cases hc
  | cons d cs ih =>
    obtain ⟨h₁, h₂, h₃, h₄, hrest⟩ := h
    rcases mem_cons.1 hc with rfl | hc
    · exact ⟨h₂.trans (h₃.trans (h₄.trans hrest.le)), hrest.le⟩
    · exact ih hrest hc

theorem Pattern.hits_inOrder (p : Pattern) (text : Text) : InOrder 0 text.length (p.hits text) :=
  (p.re.inOrder text).hits

theorem Pattern.replaceAll_eq (p : Pattern) (text : Text) {len : ℕ} (h : CapturesInOrder last len cs) :
    p.replaceAll text last cs =
      splice marker text last (cs.map fun c => ⟨(p.secret c).start, (p.secret c).stop, p.kind⟩) := by
  induction cs generalizing last with
  | nil => rfl
  | cons c cs ih =>
    obtain ⟨h₁, h₂, h₃, h₄, hrest⟩ := h
    rw [replaceAll, ih hrest, map_cons, splice, replacement, secret]
    split_ifs
    · rw [append_assoc]
    · have hbefore : (slice text c.whole.start c.whole.stop).take (c.group.start - c.whole.start) =
          slice text c.whole.start c.group.start := by
        rw [slice, slice, take_take, Nat.min_eq_left (by omega)]
      have hafter : (slice text c.whole.start c.whole.stop).drop (c.group.stop - c.whole.start) =
          slice text c.group.stop c.whole.stop := by
        have hstop : c.group.stop = c.whole.start + (c.group.stop - c.whole.start) := by omega
        rw [slice, slice, drop_take, drop_drop, ← hstop]
        congr 1
        omega
      simp only [hbefore, hafter]
      rw [← slice_append_splice h₄ hrest.hits, ← slice_append h₁ h₂]
      simp only [append_assoc]

variable {segs : List (Seg Char String)}

theorem Pattern.shown_pass {p : Pattern} {segs' : List (Seg Char String)}
    (h : p.pass segs = some segs') :
    shown marker segs' = p.replaceAll (shown marker segs) 0 (p.re.captures (shown marker segs)) := by
  rw [p.replaceAll_eq _ (p.re.inOrder _)]
  exact shown_absorb (p.hits_inOrder _) (drop_zero ..) h

variable {ps : List Pattern} {done : List (Seg Char String)}

theorem shown_passes
    (h : passes ps segs = some done) : shown marker done = (redactPatterns ps (shown marker segs)).1 := by
  induction ps generalizing segs with
  | nil => exact congrArg (shown marker) (Option.some_inj.1 h).symm
  | cons p ps ih =>
    obtain ⟨segs', hpass, hpasses⟩ := Option.bind_eq_some_iff.1 h
    have hshown := p.shown_pass hpass
    rw [ih hpasses, redactPatterns]
    split_ifs with hempty
    · rw [List.isEmpty_iff.1 hempty] at hshown
      rw [hshown]
      rfl
    · rw [hshown]

/-! ### What the passes cover -/

theorem orig_passes (h : passes ps segs = some done) : orig done = orig segs := by
  induction ps generalizing segs with
  | nil => exact congrArg orig (Option.some_inj.1 h).symm
  | cons p ps ih =>
    obtain ⟨segs', hpass, hpasses⟩ := Option.bind_eq_some_iff.1 h
    exact (ih hpasses).trans (orig_absorb hpass)

theorem passes_place (h : passes ps segs = some done) {i : ℕ} (hi : i < (orig segs).length) :
    place marker done i = none ↔ ∀ q, place marker segs i = some q → Later ps segs i := by
  induction ps generalizing segs with
  | nil =>
    obtain rfl := Option.some_inj.1 h
    refine ⟨fun hnone q hq => ?_, fun hall => ?_⟩
    · rw [hnone] at hq
      cases hq
    · cases hq : place marker segs i with
      | none => rfl
      | some q => exact (hall q hq).elim
  | cons p ps ih =>
    obtain ⟨segs', hpass, hpasses⟩ := Option.bind_eq_some_iff.1 h
    have horig : orig segs' = orig segs := orig_absorb hpass
    have hstep := place_absorb (p.hits_inOrder _) hpass hi
    refine (ih hpasses (horig ▸ hi)).trans ⟨fun hall q hq => ?_, fun hall q hq => ?_⟩
    · cases hq' : place marker segs' i with
      | none =>
        obtain ⟨x, hx, hhas⟩ := hstep.1 hq' q hq
        rw [Nat.zero_add] at hhas
        exact .inl ⟨q, hq, x, hx, hhas⟩
      | some r => exact .inr ⟨segs', hpass, hall r hq'⟩
    · cases hq' : place marker segs i with
      | none =>
        have hnone := hstep.2 fun r hr => by
          rw [hq'] at hr
          cases hr
        rw [hnone] at hq
        cases hq
      | some r =>
        rcases hall r hq' with ⟨t, ht, x, hx, hhas⟩ | ⟨segs'', hpass'', hlater⟩
        · have hnone := hstep.2 fun r' hr' => by
            rw [ht] at hr'
            cases hr'
            exact ⟨x, hx, (Nat.zero_add t).symm ▸ hhas⟩
          rw [hnone] at hq
          cases hq
        · rw [hpass] at hpass''
          cases hpass''
          exact hlater

variable {text : Text}

theorem passes_cover (horig : orig segs = text) : FollowUp text ps segs ↔ ∃ done, passes ps segs = some done ∧
      ∀ p ∈ ps, ∀ i, p.Secret text i → place marker done i = none := by
  induction ps generalizing segs with
  | nil => exact ⟨fun _ => ⟨segs, rfl, nofun⟩, fun _ => trivial⟩
  | cons p ps ih =>
    have hlt : ∀ i, p.Secret text i → i < (orig segs).length := by
      rintro i ⟨x, hx, -, hlt⟩
      rw [horig]
      exact hlt.trans_le ((p.hits_inOrder text).stop_le hx)
    constructor
    · rintro ⟨hown, segs', hpass, hrest⟩
      obtain ⟨done, hdone, hcover⟩ := (ih ((orig_absorb hpass).trans horig)).1 hrest
      have hpasses : passes (p :: ps) segs = some done := Option.bind_eq_some_iff.2 ⟨segs', hpass, hdone⟩
      refine ⟨done, hpasses, forall_mem_cons.2 ⟨fun i hi => ?_, hcover⟩⟩
      exact (passes_place hpasses (hlt i hi)).2 fun q hq => hown i q hi hq
    · rintro ⟨done, hpasses, hcover⟩
      obtain ⟨hown, hrest⟩ := forall_mem_cons.1 hcover
      obtain ⟨segs', hpass, hdone⟩ := Option.bind_eq_some_iff.1 hpasses
      refine ⟨fun i q hi hq => ?_, segs', hpass, ?_⟩
      · exact (passes_place hpasses (hlt i hi)).1 (hown i hi) q hq
      · exact (ih ((orig_absorb hpass).trans horig)).2 ⟨done, hdone, hrest⟩

theorem SecretGuard.InKnown.lt {g : SecretGuard} {i : ℕ} (h : g.InKnown text i) : i < text.length := by
  obtain ⟨k, -, a, hpre, hle, hlt⟩ := h
  have hlen := hpre.length_le
  rw [length_drop] at hlen
  omega

theorem SecretGuard.knownPass_spec (g : SecretGuard) (text : Text) :
    ∃ segs, g.knownPass text = some segs ∧ orig segs = text ∧ shown marker segs = (g.redactKnown text).1 ∧
      ∀ i, i < text.length → (place marker segs i = none ↔ ∃ h ∈ g.knownHits text, h.Has i) := by
  have hord := g.knownHits_inOrder text
  obtain ⟨segs, hsegs⟩ : ∃ segs, g.knownPass text = some segs := absorb_plain ((Nat.zero_add text.length).symm ▸ hord)
  refine ⟨segs, hsegs, (orig_absorb hsegs).trans (orig_plain text),
    shown_absorb hord (shown_plain text).symm hsegs, fun i hi => ?_⟩
  rw [place_absorb hord hsegs ((orig_plain text).symm ▸ hi), place_plain hi]
  constructor
  · intro hall
    obtain ⟨x, hx, hhas⟩ := hall i rfl
    exact ⟨x, hx, Nat.zero_add i ▸ hhas⟩
  · rintro ⟨x, hx, hhas⟩ q hq
    cases hq
    exact ⟨x, hx, (Nat.zero_add i).symm ▸ hhas⟩

theorem SecretGuard.KeepsUp.masked {g : SecretGuard} (h : g.KeepsUp text) : g.Masked text := by
  obtain ⟨segs, hsegs, hkept, hfollow⟩ := h
  obtain ⟨segs', hsegs', horig, hshown, hknown⟩ := g.knownPass_spec text
  obtain rfl := Option.some_inj.1 (hsegs.symm.trans hsegs')
  obtain ⟨done, hdone, hcover⟩ := (passes_cover horig).1 hfollow
  refine ⟨done, ?_, (orig_passes hdone).trans horig, ?_, ?_⟩
  · rw [hsegs, Option.bind_some, hdone]
  · rw [shown_passes hdone, hshown]
    rfl
  · rintro i (hi | ⟨p, hp, hi⟩)
    · refine (passes_place hdone (horig ▸ hi.lt)).2 fun q hq => ?_
      rcases hkept i hi with hhit | hlater
      · rw [(hknown i hi.lt).2 hhit] at hq
        cases hq
      · exact hlater
    · exact hcover p hp i hi

theorem SecretGuard.Masked.keepsUp {g : SecretGuard} (h : g.Masked text) : g.KeepsUp text := by
  obtain ⟨done, hdone, -, -, hcover⟩ := h
  obtain ⟨segs, hsegs, horig, -, hknown⟩ := g.knownPass_spec text
  rw [hsegs, Option.bind_some] at hdone
  refine ⟨segs, hsegs, fun i hi => ?_, (passes_cover horig).2 ⟨done, hdone, fun p hp i hi => ?_⟩⟩
  · have hplace := (passes_place hdone (horig ▸ hi.lt)).1 (hcover i (.inl hi))
    cases hq : place marker segs i with
    | none => exact .inl ((hknown i hi.lt).1 hq)
    | some q => exact .inr (hplace q hq)
  · exact hcover i (.inr ⟨p, hp, hi⟩)

theorem marker_concat (kind : String) : ∃ m, marker kind = m ++ [']'] :=
  ⟨"[REDACTED:".toList ++ kind.toList, (append_assoc "[REDACTED:".toList kind.toList "]".toList).symm⟩

theorem last_kept {xs : Text} {c : Char} (h : shown marker segs = xs ++ [c]) (hc : c ≠ ']') :
    ∃ segs', segs = segs' ++ [.keep c] ∧ shown marker segs' = xs := by
  rcases eq_nil_or_concat segs with rfl | ⟨segs', s, rfl⟩
  · rw [shown_nil] at h
    exact absurd h.symm (append_ne_nil_of_right_ne_nil xs (cons_ne_nil c []))
  · rw [concat_eq_append, shown_append, shown_cons, shown_nil, append_nil] at h
    cases s with
    | keep a =>
      obtain ⟨hxs, hac⟩ := append_inj' h rfl
      cases hac
      exact ⟨segs', concat_eq_append, hxs⟩
    | mask hidden kind =>
      obtain ⟨m, hm⟩ := marker_concat kind
      rw [Seg.shown, hm, ← append_assoc] at h
      obtain ⟨-, hend⟩ := append_inj' h rfl
      exact absurd (singleton_inj.1 hend).symm hc

variable {secret : ℕ → Prop}

theorem not_redacts_of_last {out : Text} {a c : Char} (hsecret : secret text.length) (hc : c ≠ ']') :
    ¬Redacts secret (text ++ [a]) (out ++ [c]) := by
  rintro ⟨segs, horig, hshown, hall⟩
  obtain ⟨segs', rfl, -⟩ := last_kept hshown hc
  rw [orig_append] at horig
  obtain ⟨horig', -⟩ := append_inj' horig rfl
  have hplace := hall _ hsecret
  rw [place_append_right (horig' ▸ le_rfl), horig', Nat.sub_self] at hplace
  cases hplace

theorem Redacts.mono {secret' : ℕ → Prop} {out : Text} (h : Redacts secret text out)
    (hle : ∀ i, secret' i → secret i) : Redacts secret' text out := by
  obtain ⟨segs, horig, hshown, hall⟩ := h
  exact ⟨segs, horig, hshown, fun i hi => hall i (hle i hi)⟩

theorem redacts_of_last {out : Text} {a c : Char} (hc : c ≠ ']')
    (h : Redacts secret (text ++ [a]) (out ++ [c])) (hlt : ∀ i, secret i → i < text.length) :
    Redacts secret text out := by
  obtain ⟨segs, horig, hshown, hall⟩ := h
  obtain ⟨segs', rfl, hshown'⟩ := last_kept hshown hc
  rw [orig_append] at horig
  obtain ⟨horig', -⟩ := append_inj' horig rfl
  refine ⟨segs', horig', hshown', fun i hi => ?_⟩
  rw [← place_append_left (horig' ▸ hlt i hi)]
  exact hall i hi

def noMatches : Regex := ⟨fun _ => [], fun _ => Nat.zero_le _⟩

def credentials : SecretGuard :=
  ((SecretGuard.new fun _ => noMatches).registerValue "credential"
    "abcdefgh".toList).registerValue "credential" "abcdefghijkl".toList

def url : Text := "://abcdefgh:s3cret@".toList

/-- The pattern of passwords in URLs matches the whole, and the group `s3cret`. -/
def urlRegex (kind : String) : Regex where
  captures := fun text =>
    if kind = "url-credential" ∧ text = url then [⟨⟨0, 19⟩, ⟨12, 18⟩⟩] else []
  inOrder := fun text => by
    split_ifs with h
    · rw [h.2]
      exact ⟨Nat.le_refl 0, by decide, by decide, by decide, Nat.le_refl 19⟩
    · exact Nat.zero_le _

def user : SecretGuard := (SecretGuard.new urlRegex).registerValue "credential" "abcdefgh".toList

end Redact
