/-
**Scrubbing a stream of deltas.**

A scrubber holds back the last bytes of what it has been fed, so that a secret that comes in pieces
is seen as a whole.  What it lets go is cut off in front, redacted by itself, and emitted.
-/

import Pensieve.Redact

namespace Redact

open List
open Masking

/-! ### Bytes and characters -/

def charIndex : Text → ℕ → Option ℕ
  | _, 0 => some 0
  | [], _ + 1 => none
  | c :: cs, n + 1 =>
    if c.utf8Size ≤ n + 1 then (charIndex cs (n + 1 - c.utf8Size)).map (· + 1) else none

def isCharBoundary (text : Text) (n : ℕ) : Bool := (charIndex text n).isSome

@[simp] theorem byteLen_nil : byteLen [] = 0 := rfl

@[simp] theorem byteLen_cons (c : Char) (cs : Text) : byteLen (c :: cs) = c.utf8Size + byteLen cs := rfl

@[simp] theorem byteLen_append (xs ys : Text) : byteLen (xs ++ ys) = byteLen xs + byteLen ys := by
  rw [byteLen, map_append, sum_append]
  rfl

theorem byteLen_le (text : Text) : byteLen text ≤ 4 * text.length := by
  induction text with
  | nil => exact le_rfl
  | cons c text ih =>
    have hc := c.utf8Size_le_four
    rw [byteLen_cons, length_cons]
    omega

theorem byteLen_take_add_drop (text : Text) (n : ℕ) : byteLen (text.take n) + byteLen (text.drop n) = byteLen text := by
  rw [← byteLen_append, take_append_drop]

theorem byteLen_take_lt {text : Text} {m n : ℕ} (hmn : m < n) (hn : n ≤ text.length) :
    byteLen (text.take m) < byteLen (text.take n) := by
  induction text generalizing m n with
  | nil =>
    rw [length_nil] at hn
    omega
  | cons c text ih =>
    cases n with
    | zero => cases hmn
    | succ n =>
      cases m with
      | zero => exact Nat.add_pos_left c.utf8Size_pos _
      | succ m => exact Nat.add_lt_add_left (ih (Nat.lt_of_succ_lt_succ hmn) (Nat.le_of_succ_le_succ hn)) _

theorem byteLen_take_le {text : Text} {m n : ℕ} (hmn : m ≤ n) : byteLen (text.take m) ≤ byteLen (text.take n) := by
  rw [← byteLen_take_add_drop (text.take n) m, take_take, Nat.min_eq_left hmn]
  exact Nat.le_add_right _ _

theorem charIndex_eq_some {text : Text} {b n : ℕ} :
    charIndex text b = some n ↔ n ≤ text.length ∧ byteLen (text.take n) = b := by
  induction text generalizing b n with
  | nil =>
    cases b with
    | zero =>
      rw [charIndex, Option.some_inj, length_nil]
      exact ⟨fun h => ⟨h.symm.le, by rw [take_nil, byteLen_nil]⟩, fun h => (Nat.le_zero.1 h.1).symm⟩
    | succ b =>
      rw [charIndex, take_nil, byteLen_nil]
      exact ⟨nofun, fun h => absurd h.2 (Nat.succ_ne_zero b).symm⟩
  | cons c text ih =>
    have hc := c.utf8Size_pos
    cases b with
    | zero =>
      rw [charIndex, Option.some_inj]
      constructor
      · rintro rfl
        exact ⟨Nat.zero_le _, rfl⟩
      · rintro ⟨-, hb⟩
        cases n with
        | zero => rfl
        | succ n =>
          rw [take_succ_cons, byteLen_cons] at hb
          omega
    | succ b =>
      rw [charIndex]
      split_ifs with hle
      · rw [Option.map_eq_some_iff]
        constructor
        · rintro ⟨m, hm, rfl⟩
          obtain ⟨hlen, hb⟩ := ih.1 hm
          refine ⟨Nat.succ_le_succ hlen, ?_⟩
          rw [take_succ_cons, byteLen_cons, hb]
          exact Nat.add_sub_cancel' hle
        · rintro ⟨hlen, hb⟩
          cases n with
          | zero => cases hb
          | succ n =>
            rw [take_succ_cons, byteLen_cons] at hb
            exact ⟨n, ih.2 ⟨Nat.le_of_succ_le_succ hlen, by omega⟩, rfl⟩
      · refine ⟨nofun, fun h => absurd h.2 ?_⟩
        cases n with
        | zero => exact (Nat.succ_ne_zero b).symm
        | succ n =>
          rw [take_succ_cons, byteLen_cons]
          omega

theorem isCharBoundary_iff {text : Text} {b : ℕ} :
    isCharBoundary text b = true ↔ ∃ n ≤ text.length, byteLen (text.take n) = b := by
  rw [isCharBoundary, Option.isSome_iff_exists]
  exact exists_congr fun n => charIndex_eq_some

def byteSpan (text : Text) (s : Span) : Span := ⟨byteLen (text.take s.start), byteLen (text.take s.stop)⟩

/-- **Every match in a text**, known values first and then pattern after pattern. -/
def SecretGuard.findSpans (g : SecretGuard) (text : Text) : List Span :=
  (g.knownHits text).map (fun h => ⟨h.start, h.stop⟩) ++
    g.patterns.flatMap fun p => (p.re.captures text).map Captures.whole

/-! ### The scrubber -/

def streamHoldbackBytes : ℕ := 256

structure StreamScrubber where
  guard : SecretGuard
  buf : Text
  findings : List Finding

def StreamScrubber.new (guard : SecretGuard) : StreamScrubber := ⟨guard, [], []⟩

def advance (text : Text) : ℕ → ℕ → ℕ
  | 0, cut => cut
  | fuel + 1, cut => if isCharBoundary text cut then cut else advance text fuel (cut + 1)

def retract (cut : ℕ) (spans : List Span) : ℕ :=
  spans.foldl (fun cut span => if span.start < cut ∧ cut < span.stop then span.start else cut) cut

def snap (text : Text) : ℕ → ℕ
  | 0 => 0
  | cut + 1 => if isCharBoundary text (cut + 1) then cut + 1 else snap text cut

def SecretGuard.cutAt (g : SecretGuard) (buf : Text) : ℕ :=
  let cut := advance buf streamHoldbackBytes (byteLen buf - streamHoldbackBytes)
  snap buf (retract cut ((g.findSpans buf).map (byteSpan buf)))

/-- **Append a delta**, and emit what is safe; `none` is a cut inside a character. -/
def StreamScrubber.push (s : StreamScrubber) (delta : Text) : Option (Text × StreamScrubber) :=
  let buf := s.buf ++ delta
  if byteLen buf ≤ streamHoldbackBytes then some ([], { s with buf := buf })
  else
    let cut := s.guard.cutAt buf
    if cut = 0 then some ([], { s with buf := buf })
    else
      match charIndex buf cut with
      | none => none
      | some n =>
        let (red, f) := s.guard.redactText (buf.take n)
        some (red, { s with buf := buf.drop n, findings := s.findings ++ f })

def StreamScrubber.finish (s : StreamScrubber) : Text × StreamScrubber :=
  let (red, f) := s.guard.redactText s.buf
  (red, { s with buf := [], findings := s.findings ++ f })

def StreamScrubber.emit : StreamScrubber → List Text → Option (List Text)
  | s, [] => some [s.finish.1]
  | s, d :: ds =>
    match s.push d with
    | none => none
    | some (out, s') => (s'.emit ds).map (out :: ·)

/-! ### Where the buffer is cut -/

theorem advance_spec {text : Text} {fuel cut : ℕ} (hle : cut ≤ byteLen text)
    (hfuel : byteLen text ≤ cut + fuel) : ∃ n ≤ text.length, advance text fuel cut = byteLen (text.take n) ∧
      ∀ m < n, byteLen (text.take m) < cut := by
  have hend : isCharBoundary text (byteLen text) = true :=
    isCharBoundary_iff.2 ⟨text.length, le_rfl, by rw [take_length]⟩
  have hat : ∀ c, isCharBoundary text c = true → ∃ n ≤ text.length, c = byteLen (text.take n) ∧
      ∀ m < n, byteLen (text.take m) < c := fun c hc => by
    obtain ⟨n, hn, rfl⟩ := isCharBoundary_iff.1 hc
    exact ⟨n, hn, rfl, fun m hm => byteLen_take_lt hm hn⟩
  induction fuel generalizing cut with
  | zero =>
    have hcut : cut = byteLen text := by omega
    exact hat cut (hcut ▸ hend)
  | succ fuel ih =>
    rw [advance]
    split_ifs with hcut
    · exact hat cut hcut
    · have hne : cut ≠ byteLen text := fun heq => hcut (heq ▸ hend)
      have hlt : cut + 1 ≤ byteLen text := Nat.lt_of_le_of_ne hle hne
      obtain ⟨n, hn, heq, hlt⟩ := @ih (cut + 1) hlt (by omega)
      refine ⟨n, hn, heq, fun m hm => ?_⟩
      have hm' := hlt m hm
      have hne' : byteLen (text.take m) ≠ cut := fun h =>
        hcut (isCharBoundary_iff.2 ⟨m, hm.le.trans hn, h⟩)
      omega

theorem snap_eq {text : Text} {cut : ℕ} (h : isCharBoundary text cut = true) : snap text cut = cut := by
  cases cut with
  | zero => rfl
  | succ cut => rw [snap, if_pos h]

theorem retract_cons (cut : ℕ) (s : Span) (spans : List Span) :
    retract cut (s :: spans) = retract (if s.start < cut ∧ cut < s.stop then s.start else cut) spans := rfl

theorem retract_eq (cut : ℕ) (spans : List Span) :
    retract cut spans ≤ cut ∧ (retract cut spans = cut ∨ ∃ s ∈ spans, retract cut spans = s.start) := by
  induction spans generalizing cut with
  | nil => exact ⟨le_rfl, .inl rfl⟩
  | cons s spans ih =>
    rw [retract_cons]
    split_ifs with hs
    · obtain ⟨hle, heq⟩ := ih s.start
      refine ⟨hle.trans hs.1.le, .inr ?_⟩
      rcases heq with heq | ⟨t, ht, heq⟩
      · exact ⟨s, mem_cons_self, heq⟩
      · exact ⟨t, mem_cons_of_mem _ ht, heq⟩
    · obtain ⟨hle, heq⟩ := ih cut
      refine ⟨hle, heq.imp_right ?_⟩
      rintro ⟨t, ht, heq⟩
      exact ⟨t, mem_cons_of_mem _ ht, heq⟩

def Span.Crosses (s : Span) (n : ℕ) : Prop := s.start < n ∧ n < s.stop

def Orderly (spans : List Span) : Prop := spans.Pairwise fun s t => ¬s.Crosses t.start

theorem not_crosses_retract {spans : List Span} (h : Orderly spans) (cut : ℕ) {s : Span} (hs : s ∈ spans) :
    ¬s.Crosses (retract cut spans) := by
  induction spans generalizing cut with
  | nil => cases hs
  | cons t spans ih =>
    obtain ⟨hhead, htail⟩ := pairwise_cons.1 h
    rcases mem_cons.1 hs with rfl | hs
    · have hnow : ¬s.Crosses (if s.start < cut ∧ cut < s.stop then s.start else cut) := by
        split_ifs with hcross
        · exact fun hc => absurd hc.1 (lt_irrefl _)
        · exact hcross
      rw [retract_cons]
      rcases (retract_eq (if s.start < cut ∧ cut < s.stop then s.start else cut) spans).2 with
        heq | ⟨u, hu, heq⟩
      · rw [heq]
        exact hnow
      · rw [heq]
        exact hhead u hu
    · rw [retract_cons]
      exact ih htail _ hs

theorem byteLen_take_lt_iff {text : Text} {m n : ℕ} (hn : n ≤ text.length) :
    byteLen (text.take m) < byteLen (text.take n) ↔ m < n := by
  refine ⟨fun h => ?_, fun h => byteLen_take_lt h hn⟩
  by_contra hle
  exact absurd (byteLen_take_le (Nat.le_of_not_lt hle)) (Nat.not_le.2 h)

theorem retract_bytes {text : Text} {spans : List Span} {n : ℕ} (hn : n ≤ text.length)
    (h : ∀ s ∈ spans, s.start ≤ text.length ∧ s.stop ≤ text.length) :
    retract (byteLen (text.take n)) (spans.map (byteSpan text)) = byteLen (text.take (retract n spans)) := by
  induction spans generalizing n with
  | nil => rfl
  | cons s spans ih =>
    obtain ⟨⟨hstart, hstop⟩, hrest⟩ := forall_mem_cons.1 h
    rw [map_cons, retract_cons, retract_cons, byteSpan]
    simp only [byteLen_take_lt_iff hn, byteLen_take_lt_iff hstop]
    split_ifs
    · exact ih hstart hrest
    · exact ih hn hrest

theorem SecretGuard.findSpans_le {g : SecretGuard} {text : Text} {s : Span} (h : s ∈ g.findSpans text) :
    s.start ≤ text.length ∧ s.stop ≤ text.length := by
  rcases mem_append.1 h with h | h
  · obtain ⟨x, hx, rfl⟩ := mem_map.1 h
    have hord := g.knownHits_inOrder text
    exact ⟨(hord.start_le_stop hx).trans (hord.stop_le hx), hord.stop_le hx⟩
  · obtain ⟨p, -, hs⟩ := mem_flatMap.1 h
    obtain ⟨c, hc, rfl⟩ := mem_map.1 hs
    exact (p.re.inOrder text).whole_le hc

structure CutOk (g : SecretGuard) (buf : Text) (n : ℕ) : Prop where
  le : n ≤ buf.length
  heldBack : ∀ m < n, streamHoldbackBytes < byteLen (buf.drop m)
  clear : Orderly (g.findSpans buf) → ∀ s ∈ g.findSpans buf, ¬s.Crosses n

theorem SecretGuard.cutAt_eq (g : SecretGuard) {buf : Text} (h : streamHoldbackBytes < byteLen buf) :
    ∃ n, g.cutAt buf = byteLen (buf.take n) ∧ CutOk g buf n := by
  have hle : byteLen buf - streamHoldbackBytes ≤ byteLen buf := Nat.sub_le _ _
  have hfuel : byteLen buf ≤ byteLen buf - streamHoldbackBytes + streamHoldbackBytes := by omega
  obtain ⟨n, hn, hadvance, hlt⟩ := advance_spec hle hfuel
  have hretract := retract_bytes hn fun s hs => g.findSpans_le hs
  obtain ⟨hback, -⟩ := retract_eq n (g.findSpans buf)
  have hboundary : isCharBoundary buf (byteLen (buf.take (retract n (g.findSpans buf)))) = true :=
    isCharBoundary_iff.2 ⟨_, hback.trans hn, rfl⟩
  refine ⟨retract n (g.findSpans buf), ?_, hback.trans hn, fun m hm => ?_, fun horder s hs =>
    not_crosses_retract horder n hs⟩
  · rw [cutAt]
    simp only [hadvance, hretract]
    exact snap_eq hboundary
  · have hlt' := hlt m (hm.trans_le hback)
    have hsum := byteLen_take_add_drop buf m
    omega

/-- **What a push does**: it cuts off a part of the buffer in front, which may be empty, and emits that
part redacted. -/
theorem push_eq (s : StreamScrubber) (delta : Text) : ∃ n f, CutOk s.guard (s.buf ++ delta) n ∧
    s.push delta = some (if n = 0 then [] else (s.guard.redactText ((s.buf ++ delta).take n)).1,
      ⟨s.guard, (s.buf ++ delta).drop n, f⟩) := by
  rw [StreamScrubber.push]
  simp only
  split_ifs with hlen hcut
  · exact ⟨0, s.findings, ⟨Nat.zero_le _, fun _ h => absurd h (Nat.not_lt_zero _), fun _ s _ h => absurd h.1 (Nat.not_lt_zero _)⟩, rfl⟩
  · exact ⟨0, s.findings, ⟨Nat.zero_le _, fun _ h => absurd h (Nat.not_lt_zero _), fun _ s _ h => absurd h.1 (Nat.not_lt_zero _)⟩, rfl⟩
  · obtain ⟨n, hn, hok⟩ := s.guard.cutAt_eq (Nat.lt_of_not_le hlen)
    have hpos : n ≠ 0 := fun hzero => hcut (by rw [hn, hzero, take_zero, byteLen_nil])
    refine ⟨n, s.findings ++ (s.guard.redactText ((s.buf ++ delta).take n)).2, hok, ?_⟩
    rw [hn, charIndex_eq_some.2 ⟨hok.le, rfl⟩, if_neg hpos]

/-! ### Known values on both sides of a cut -/

theorem longest_eq_none {ks : List Known} {seen : Text} :
    longest ks seen = none ↔ ∀ k ∈ ks, ¬k.value.reverse <+: seen := by
  induction ks with
  | nil => exact ⟨fun _ => nofun, fun _ => rfl⟩
  | cons k ks ih =>
    rw [longest, forall_mem_cons]
    split_ifs with hk
    · have hk' := isPrefixOf_iff_prefix.1 hk
      refine ⟨fun h => ?_, fun h => absurd hk' h.1⟩
      split at h
      · split_ifs at h
      · cases h
    · rw [ih]
      exact ⟨fun h => ⟨fun hp => hk ( isPrefixOf_iff_prefix.2 hp), h⟩, fun h => h.2⟩

theorem longest_none_of_append {ks : List Known} {seen old : Text} (h : longest ks (seen ++ old) = none) :
    longest ks seen = none :=
  longest_eq_none.2 fun k hk hp => longest_eq_none.1 h k hk (hp.trans (prefix_append _ _))

theorem longest_of_append {ks : List Known} {seen old : Text} {k : Known}
    (h : longest ks (seen ++ old) = some k) (hle : k.value.length ≤ seen.length) : longest ks seen = some k := by
  have hpre : ∀ k' : Known, k'.value.length ≤ seen.length →
      k'.value.reverse.isPrefixOf (seen ++ old) = k'.value.reverse.isPrefixOf seen := fun k' hk' => by
    refine Bool.eq_iff_iff.2 ?_
    rw [ isPrefixOf_iff_prefix, isPrefixOf_iff_prefix]
    refine ⟨fun hp => ?_, fun hp => hp.trans (prefix_append _ _)⟩
    exact prefix_of_prefix_length_le hp (prefix_append _ _) (by rwa [length_reverse])
  induction ks generalizing k with
  | nil => cases h
  | cons x ks ih =>
    rw [longest] at h ⊢
    cases hx : x.value.reverse.isPrefixOf (seen ++ old) with
    | false =>
      rw [hx, if_neg Bool.false_ne_true] at h
      have hx' : ¬x.value.reverse.isPrefixOf seen = true := fun hp => by
        have hp' := isPrefixOf_iff_prefix.2
          (( isPrefixOf_iff_prefix.1 hp).trans (prefix_append seen old))
        rw [hx] at hp'
        cases hp'
      rw [if_neg hx']
      exact ih h hle
    | true =>
      rw [hx, if_pos rfl] at h
      split at h
      · rename_i k' hk'
        split_ifs at h with hlen
        · cases h
          rw [← hpre _ hle, hx, if_pos rfl, ih hk' (hlen.trans hle)]
          exact if_pos hlen
        · cases h
          have hxle : x.value.length ≤ seen.length := (Nat.le_of_not_le hlen).trans hle
          rw [← hpre _ hxle, hx, if_pos rfl, ih hk' hle]
          exact if_neg hlen
      · rename_i hnone
        cases h
        rw [← hpre _ hle, hx, if_pos rfl, longest_none_of_append hnone]

def pending (known : List Known) : Text → Text → Text
  | seen, [] => seen
  | seen, c :: rest =>
    match longest known (c :: seen) with
    | some _ => pending known [] rest
    | none => pending known (c :: seen) rest

theorem findIter_append (known : List Known) (pos : ℕ) (seen xs ys : Text) :
    findIter known pos seen (xs ++ ys) = findIter known pos seen xs ++
      findIter known (pos + xs.length) (pending known seen xs) ys := by
  induction xs generalizing pos seen with
  | nil => rfl
  | cons c xs ih =>
    have hlen : pos + (c :: xs).length = pos + 1 + xs.length := by
      rw [length_cons]
      omega
    rw [cons_append, findIter, findIter, pending, hlen]
    cases longest known (c :: seen) with
    | some k => exact congrArg (_ :: ·) (ih (pos + 1) [])
    | none => exact ih (pos + 1) (c :: seen)

theorem lt_stop_of_mem_findIter {known : List Known} {pos : ℕ} {seen rest : Text} {h : Hit String}
    (hh : h ∈ findIter known pos seen rest) : pos < h.stop := by
  induction rest generalizing pos seen with
  | nil => cases hh
  | cons c rest ih =>
    rw [findIter] at hh
    split at hh
    · rcases mem_cons.1 hh with rfl | hh
      · exact Nat.lt_succ_self pos
      · exact (Nat.lt_succ_self pos).trans (ih hh)
    · exact (Nat.lt_succ_self pos).trans (ih hh)

theorem occurs_of_mem_findIter {known : List Known} {pos : ℕ} {pre seen rest : Text} {h : Hit String}
    (hpos : pos = (pre ++ seen.reverse).length) (hh : h ∈ findIter known pos seen rest) :
    ∃ k ∈ known, h.stop = h.start + k.value.length ∧ k.value <+: (pre ++ seen.reverse ++ rest).drop h.start := by
  induction rest generalizing pos pre seen with
  | nil => cases hh
  | cons c rest ih =>
    have hread : pre ++ seen.reverse ++ c :: rest = pre ++ (c :: seen).reverse ++ rest := by
      rw [reverse_cons]
      simp only [append_assoc, singleton_append]
    have hpos' : pos + 1 = (pre ++ (c :: seen).reverse).length := by
      rw [hpos, reverse_cons]
      simp only [length_append, length_singleton, Nat.add_assoc]
    rw [hread]
    rw [findIter] at hh
    split at hh
    · rename_i k hk
      rcases mem_cons.1 hh with rfl | hh
      · obtain ⟨hmem, hpre⟩ := longest_mem hk
        obtain ⟨front, hfront⟩ := reverse_suffix.2 hpre
        rw [reverse_reverse] at hfront
        have hlen := congrArg List.length hfront
        rw [length_append] at hlen
        have hstart : pos + 1 - k.value.length = (pre ++ front).length := by
          rw [hpos', length_append, length_append, ← hlen]
          omega
        refine ⟨k, hmem, ?_, ?_⟩
        · change pos + 1 = pos + 1 - k.value.length + k.value.length
          rw [length_append] at hpos'
          omega
        · change k.value <+: List.drop (pos + 1 - k.value.length) _
          rw [hstart, ← hfront, ← append_assoc, append_assoc _ _ rest, drop_left]
          exact prefix_append _ _
      · have hnil : pos + 1 = (pre ++ (c :: seen).reverse ++ ([] : Text).reverse).length := by
          rw [reverse_nil, append_nil]
          exact hpos'
        have hih := ih hnil hh
        rwa [reverse_nil, append_nil] at hih
    · exact ih hpos' hh

theorem findIter_forget {known : List Known} {pos : ℕ} {seen old rest : Text}
    (hseen : (seen ++ old).length ≤ pos)
    (h : ∀ x ∈ findIter known pos (seen ++ old) rest, pos - seen.length ≤ x.start) :
    findIter known pos (seen ++ old) rest = findIter known pos seen rest := by
  induction rest generalizing pos seen with
  | nil => rfl
  | cons c rest ih =>
    rw [findIter] at h ⊢
    rw [findIter]
    cases hk : longest known (c :: (seen ++ old)) with
    | some k =>
      rw [hk] at h
      have hstart : pos - seen.length ≤ pos + 1 - k.value.length := h _ mem_cons_self
      have hle : k.value.length ≤ (c :: seen).length := by
        have hpre := (longest_mem hk).2.length_le
        rw [length_append] at hseen
        rw [length_reverse, length_cons, length_append] at hpre
        rw [length_cons]
        omega
      rw [show longest known (c :: seen) = some k from longest_of_append hk hle]
    | none =>
      rw [hk] at h
      rw [show longest known (c :: seen) = none from longest_none_of_append hk]
      have hseen' : (c :: seen ++ old).length ≤ pos + 1 := Nat.succ_le_succ hseen
      refine ih hseen' fun x hx => ?_
      rw [length_cons, Nat.add_sub_add_right]
      exact h x hx

theorem findIter_shift (known : List Known) (n pos : ℕ) (seen rest : Text) (hseen : seen.length ≤ pos) :
    findIter known (n + pos) seen rest = (findIter known pos seen rest).map (Hit.shift n) := by
  induction rest generalizing pos seen with
  | nil => rfl
  | cons c rest ih =>
    rw [findIter, findIter]
    cases hk : longest known (c :: seen) with
    | some k =>
      have hle := (longest_mem hk).2.length_le
      rw [length_reverse, length_cons] at hle
      have hstart : n + (pos + 1) - k.value.length = n + (pos + 1 - k.value.length) := by omega
      simp only [map_cons, Hit.shift, Nat.add_assoc, hstart, ih (pos + 1) [] (Nat.zero_le _)]
    | none => exact ih (pos + 1) (c :: seen) (Nat.succ_le_succ hseen)

def SecretGuard.Short (g : SecretGuard) (text : Text) : Prop :=
  ∀ k ∈ g.known, k.value <:+: text → byteLen k.value ≤ streamHoldbackBytes

theorem InOrder.orderly {last len : ℕ} {hs : List (Hit String)} (h : InOrder last len hs) :
    Orderly (hs.map fun h => ⟨h.start, h.stop⟩) := by
  induction hs generalizing last with
  | nil => exact List.Pairwise.nil
  | cons x hs ih =>
    refine pairwise_cons.2 ⟨fun s hs' hcross => ?_, ih h.2.2⟩
    obtain ⟨y, hy, rfl⟩ := mem_map.1 hs'
    exact absurd (h.2.2.le_start hy) (Nat.not_le.2 hcross.2)

theorem pending_length (known : List Known) (seen xs : Text) :
    (pending known seen xs).length ≤ seen.length + xs.length := by
  induction xs generalizing seen with
  | nil => exact Nat.le_add_right _ _
  | cons c xs ih =>
    rw [pending, length_cons]
    split
    · have := ih []
      rw [length_nil] at this
      omega
    · have := ih (c :: seen)
      rw [length_cons] at this
      omega

/-- **Known values on both sides of a cut.**  What is held back is enough for the values that begin in
front of the cut to be seen as a whole, and the cut bisects none of them. -/
theorem SecretGuard.redactKnown_append {g : SecretGuard} {buf more : Text} {n : ℕ} (hcut : CutOk g buf n)
    (hpatterns : g.patterns = []) (hshort : g.Short (buf ++ more)) : (g.redactKnown (buf ++ more)).1 =
      (g.redactKnown (buf.take n)).1 ++ (g.redactKnown (buf.drop n ++ more)).1 := by
  have hsplit : buf ++ more = buf.take n ++ (buf.drop n ++ more) := by
    rw [← append_assoc, take_append_drop]
  have hlen : (buf.take n).length = n := length_take_of_le hcut.le
  have hiter := findIter_append g.known 0 [] (buf.take n) (buf.drop n ++ more)
  rw [Nat.zero_add, hlen, ← hsplit] at hiter
  -- no report that begins in front of the cut ends behind it
  have hreach : ∀ x ∈ findIter g.known n (pending g.known [] (buf.take n)) (buf.drop n ++ more), n ≤ x.start := by
    intro x hx
    by_contra hlt
    rw [Nat.not_le] at hlt
    have hmem : x ∈ g.knownHits (buf ++ more) := by
      rw [knownHits, hiter]
      exact mem_append_right _ hx
    obtain ⟨k, hk, hstop, hpre⟩ := @occurs_of_mem_findIter _ 0 [] [] _ _ rfl hmem
    change k.value <+: (buf ++ more).drop x.start at hpre
    have hbytes : byteLen k.value ≤ streamHoldbackBytes := hshort k hk (hpre.isInfix.trans (drop_suffix _ _).isInfix)
    have hheld := hcut.heldBack x.start hlt
    rw [drop_append_of_le_length (hlt.le.trans hcut.le)] at hpre
    have hin : x.stop ≤ buf.length := by
      by_contra hout
      rw [Nat.not_le] at hout
      have hbuf : buf.drop x.start <+: k.value := by
        refine prefix_of_prefix_length_le (prefix_append _ more) hpre ?_
        rw [length_drop]
        omega
      obtain ⟨rest, hrest⟩ := hbuf
      rw [← hrest, byteLen_append] at hbytes
      omega
    have hx' : x ∈ g.knownHits buf := by
      rw [knownHits, findIter_append] at hmem
      rcases mem_append.1 hmem with hmem | hmem
      · exact hmem
      · have := lt_stop_of_mem_findIter hmem
        omega
    have hspans : g.findSpans buf = (g.knownHits buf).map fun h => ⟨h.start, h.stop⟩ := by
      rw [findSpans, hpatterns, flatMap_nil, append_nil]
    refine hcut.clear ?_ ⟨x.start, x.stop⟩ ?_ ⟨hlt, lt_stop_of_mem_findIter hx⟩
    · rw [hspans]
      exact InOrder.orderly (g.knownHits_inOrder buf)
    · rw [hspans]
      exact mem_map_of_mem hx'
  have hforget : findIter g.known n (pending g.known [] (buf.take n)) (buf.drop n ++ more) =
      (g.knownHits (buf.drop n ++ more)).map (Hit.shift n) := by
    have hpending := pending_length g.known [] (buf.take n)
    rw [length_nil, Nat.zero_add, hlen] at hpending
    have hforget := @findIter_forget g.known n [] _ _ hpending fun x hx => hreach x hx
    rw [nil_append] at hforget
    rw [hforget]
    exact findIter_shift g.known n 0 [] _ (Nat.zero_le _)
  have hord := g.knownHits_inOrder (buf.take n)
  have hord' : InOrder n (n + (buf.drop n ++ more).length)
      ((g.knownHits (buf.drop n ++ more)).map (Hit.shift n)) := by
    have h := findIter_inOrder g.known n [] (buf.drop n ++ more) (Nat.zero_le _)
    have hshift := findIter_shift g.known n 0 [] (buf.drop n ++ more) (Nat.zero_le _)
    rw [Nat.add_zero] at hshift
    rw [hshift] at h
    exact h
  have hknown : g.knownHits (buf ++ more) =
      g.knownHits (buf.take n) ++ (g.knownHits (buf.drop n ++ more)).map (Hit.shift n) := by
    rw [← hforget]
    exact hiter
  have hord'' : InOrder (buf.take n).length (n + (buf.drop n ++ more).length)
      ((g.knownHits (buf.drop n ++ more)).map (Hit.shift n)) := by rwa [hlen]
  have hshift := @splice_shift _ _ marker (buf.take n) (buf.drop n ++ more) 0
    (g.knownHits (buf.drop n ++ more))
  rw [hlen, Nat.add_zero] at hshift
  calc (g.redactKnown (buf ++ more)).1
      = splice marker (buf.take n ++ (buf.drop n ++ more)) 0
          (g.knownHits (buf.take n) ++ (g.knownHits (buf.drop n ++ more)).map (Hit.shift n)) := by
        rw [← hsplit, ← hknown]
        rfl
    _ = splice marker (buf.take n) 0 (g.knownHits (buf.take n)) ++ splice marker (buf.take n ++ (buf.drop n ++ more)) n
            ((g.knownHits (buf.drop n ++ more)).map (Hit.shift n)) := by
        rw [splice_append hord hord'', hlen]
    _ = (g.redactKnown (buf.take n)).1 ++ (g.redactKnown (buf.drop n ++ more)).1 := by
        rw [hshift]
        rfl

theorem SecretGuard.Short.mono {g : SecretGuard} {text text' : Text} (h : g.Short text)
    (hle : text' <:+ text) : g.Short text' :=
  fun k hk hin => h k hk (hin.trans hle.isInfix)

theorem emit_cons {s s' : StreamScrubber} {d out : Text} {ds pieces : List Text}
    (hpush : s.push d = some (out, s')) (h : s'.emit ds = some pieces) : s.emit (d :: ds) = some (out :: pieces) := by
  rw [StreamScrubber.emit, hpush]
  exact Option.map_eq_some_iff.2 ⟨pieces, h, rfl⟩

theorem emit_total (s : StreamScrubber) (ds : List Text) : ∃ pieces, s.emit ds = some pieces := by
  induction ds generalizing s with
  | nil => exact ⟨_, rfl⟩
  | cons d ds ih =>
    obtain ⟨n, f, -, hpush⟩ := push_eq s d
    obtain ⟨pieces, hemit⟩ := ih ⟨s.guard, (s.buf ++ d).drop n, f⟩
    exact ⟨_, emit_cons hpush hemit⟩

theorem emit_known {s : StreamScrubber} {ds : List Text} (hpatterns : s.guard.patterns = [])
    (hshort : s.guard.Short (s.buf ++ ds.flatten)) : ∃ pieces, s.emit ds = some pieces ∧
      pieces.flatten = (s.guard.redactKnown (s.buf ++ ds.flatten)).1 := by
  have hredact : ∀ text, (s.guard.redactText text).1 = (s.guard.redactKnown text).1 := fun text => by
    rw [SecretGuard.redactText, hpatterns]
    rfl
  induction ds generalizing s with
  | nil =>
    refine ⟨_, rfl, ?_⟩
    rw [flatten_singleton, flatten_nil, append_nil]
    exact hredact s.buf
  | cons d ds ih =>
    obtain ⟨n, f, hcut, hpush⟩ := push_eq s d
    have hwhole : s.buf ++ (d :: ds).flatten = s.buf ++ d ++ ds.flatten := by
      rw [flatten_cons, append_assoc]
    rw [hwhole] at hshort ⊢
    have hrest : (s.buf ++ d).drop n ++ ds.flatten <:+ s.buf ++ d ++ ds.flatten := by
      refine ⟨(s.buf ++ d).take n, ?_⟩
      rw [← append_assoc, take_append_drop]
    obtain ⟨pieces, hemit, hflat⟩ := @ih ⟨s.guard, (s.buf ++ d).drop n, f⟩ hpatterns (hshort.mono hrest) hredact
    refine ⟨_, emit_cons hpush hemit, ?_⟩
    rw [flatten_cons, hflat, SecretGuard.redactKnown_append hcut hpatterns hshort]
    split_ifs with hn
    · have hnil : (s.guard.redactKnown ((s.buf ++ d).take 0)).1 = [] := rfl
      rw [hn, hnil]
    · rw [hredact]

/-! ### What is emitted -/

def SecretGuard.SecretSpan (g : SecretGuard) (text : Text) (s : Span) : Prop :=
  (∃ k ∈ g.known, k.value <+: text.drop s.start ∧ s.stop = s.start + k.value.length) ∨
    ∃ p ∈ g.patterns, ∃ h ∈ p.hits text, s = ⟨h.start, h.stop⟩

def SecretGuard.Fits (g : SecretGuard) (text : Text) : Prop :=
  ∀ s, g.SecretSpan text s → byteLen (slice text s.start s.stop) ≤ streamHoldbackBytes

/-- The secrets of the text that lie in a buffer, from the place `o` on, are matched in it. -/
def Reported (g : SecretGuard) (text : Text) (o : ℕ) (buf : Text) : Prop :=
  ∀ s, g.SecretSpan text s → o ≤ s.start → s.stop ≤ o + buf.length →
    ∃ x ∈ g.findSpans buf, o + x.start ≤ s.start ∧ s.stop ≤ o + x.stop

/-- A piece of the text, from the place `o` on, is matched by the patterns as in the text, and the passes
keep up with it. -/
def Kept (g : SecretGuard) (text : Text) (o : ℕ) (piece : Text) : Prop :=
  (∀ p ∈ g.patterns, ∀ h ∈ p.hits text, o ≤ h.start → h.stop ≤ o + piece.length →
    ∀ i, h.Has (o + i) → p.Secret piece i) ∧ g.KeepsUp piece

/-- **The condition on the pushes**; `o` is how much has been cut off. -/
def Smooth (text : Text) : ℕ → StreamScrubber → List Text → Prop
  | o, s, [] => Kept s.guard text o s.buf
  | o, s, d :: ds =>
    (streamHoldbackBytes < byteLen (s.buf ++ d) →
      Reported s.guard text o (s.buf ++ d) ∧ Orderly (s.guard.findSpans (s.buf ++ d))) ∧
    ∀ out s', s.push d = some (out, s') → let n := (s.buf ++ d).length - s'.buf.length
      (0 < n → Kept s.guard text o ((s.buf ++ d).take n)) ∧ Smooth text (o + n) s' ds

theorem SecretGuard.secret_iff {g : SecretGuard} {text : Text} {i : ℕ} :
    g.Secret text i ↔ ∃ s, g.SecretSpan text s ∧ s.start ≤ i ∧ i < s.stop := by
  constructor
  · rintro (⟨k, hk, a, hpre, hle, hlt⟩ | ⟨p, hp, h, hh, hle, hlt⟩)
    · exact ⟨⟨a, a + k.value.length⟩, .inl ⟨k, hk, hpre, rfl⟩, hle, hlt⟩
    · exact ⟨⟨h.start, h.stop⟩, .inr ⟨p, hp, h, hh, rfl⟩, hle, hlt⟩
  · rintro ⟨s, ⟨k, hk, hpre, hstop⟩ | ⟨p, hp, h, hh, rfl⟩, hle, hlt⟩
    · exact .inl ⟨k, hk, s.start, hpre, hle, hstop ▸ hlt⟩
    · exact .inr ⟨p, hp, h, hh, hle, hlt⟩

theorem SecretGuard.SecretSpan.stop_le {g : SecretGuard} {text : Text} {s : Span}
    (h : g.SecretSpan text s) : s.stop ≤ max s.start text.length := by
  rcases h with ⟨k, -, hpre, hstop⟩ | ⟨p, -, x, hx, rfl⟩
  · have hlen := hpre.length_le
    rw [length_drop] at hlen
    omega
  · exact le_max_of_le_right ((p.hits_inOrder text).stop_le hx)

theorem Redacts.append {secret : ℕ → Prop} {xs ys out out' : Text} (h : Redacts secret xs out)
    (h' : Redacts (fun i => secret (xs.length + i)) ys out') : Redacts secret (xs ++ ys) (out ++ out') := by
  obtain ⟨segs, rfl, rfl, hall⟩ := h
  obtain ⟨segs', rfl, rfl, hall'⟩ := h'
  refine ⟨segs ++ segs', orig_append _ _, shown_append _ _, fun i hi => ?_⟩
  rcases Nat.lt_or_ge i (orig segs).length with hlt | hge
  · rw [place_append_left hlt]
    exact hall i hi
  · rw [place_append_right hge, Option.map_eq_none_iff]
    refine hall' (i - (orig segs).length) ?_
    change secret ((orig segs).length + (i - (orig segs).length))
    rwa [Nat.add_sub_cancel' hge]

theorem redacts_piece {g : SecretGuard} {text piece rest : Text} {o : ℕ}
    (hpiece : text.drop o = piece ++ rest) (hkept : Kept g text o piece)
    (hleft : ∀ s, g.SecretSpan text s → ¬s.Crosses o)
    (hright : ∀ s, g.SecretSpan text s → ¬s.Crosses (o + piece.length)) :
    Redacts (fun i => g.Secret text (o + i)) piece (g.redactText piece).1 := by
  obtain ⟨done, -, horig, hshown, hcover⟩ := hkept.2.masked
  refine ⟨done, horig, hshown, fun i hi => ?_⟩
  rcases Nat.lt_or_ge i piece.length with hlt | hge
  · obtain ⟨s, hs, hstart, hstop⟩ := SecretGuard.secret_iff.1 hi
    have ho : o ≤ s.start := by
      by_contra hlt'
      exact hleft s hs ⟨Nat.lt_of_not_le hlt', by omega⟩
    have hend : s.stop ≤ o + piece.length := by
      by_contra hlt'
      exact hright s hs ⟨by omega, Nat.lt_of_not_le hlt'⟩
    rcases hs with ⟨k, hk, hpre, hlen⟩ | ⟨p, hp, h, hh, rfl⟩
    · refine hcover i (.inl ⟨k, hk, s.start - o, ?_, by omega, by omega⟩)
      have hdrop : text.drop s.start = piece.drop (s.start - o) ++ rest := by
        rw [← drop_append_of_le_length (by omega), ← hpiece, drop_drop, Nat.add_sub_cancel' ho]
      rw [hdrop] at hpre
      refine prefix_of_prefix_length_le hpre (prefix_append _ _) ?_
      rw [length_drop]
      omega
    · exact hcover i (.inr ⟨p, hp, hkept.1 p hp h hh ho hend i ⟨hstart, hstop⟩⟩)
  · exact place_of_le (horig ▸ hge)

theorem not_crosses_cut {g : SecretGuard} {text buf more : Text} {o n : ℕ}
    (hbuf : text.drop o = buf ++ more) (hfits : g.Fits text) (hcut : CutOk g buf n)
    (hreported : streamHoldbackBytes < byteLen buf → Reported g text o buf ∧ Orderly (g.findSpans buf))
    (hold : ∀ s, g.SecretSpan text s → ¬s.Crosses o) {s : Span} (hs : g.SecretSpan text s) :
    ¬s.Crosses (o + n) := by
  rintro ⟨hstart, hstop⟩
  have ho : o ≤ s.start := by
    by_contra hlt
    exact hold s hs ⟨Nat.lt_of_not_le hlt, by omega⟩
  have hheld := hcut.heldBack (s.start - o) (by omega)
  have hsum := byteLen_take_add_drop buf (s.start - o)
  obtain ⟨hrep, horder⟩ := hreported (by omega)
  have hle := hcut.le
  -- what is held back from where the secret begins is longer than the secret
  have hin : s.stop ≤ o + buf.length := by
    by_contra hout
    have hslice : slice text s.start s.stop = buf.drop (s.start - o) ++ more.take (s.stop - (o + buf.length)) := by
      have hdrop : text.drop s.start = buf.drop (s.start - o) ++ more := by
        rw [← drop_append_of_le_length (by omega), ← hbuf, drop_drop, Nat.add_sub_cancel' ho]
      have hcount : s.stop - s.start = (buf.drop (s.start - o)).length + (s.stop - (o + buf.length)) := by
        rw [length_drop]
        omega
      rw [slice, hdrop, hcount, take_length_add_append]
    have hbytes := hfits s hs
    rw [hslice, byteLen_append] at hbytes
    omega
  obtain ⟨x, hx, hxs, hxe⟩ := hrep s hs ho hin
  exact hcut.clear horder x hx ⟨by omega, by omega⟩

theorem emit_redacts {text done : Text} {s : StreamScrubber} {ds : List Text}
    (htext : text = done ++ (s.buf ++ ds.flatten)) (hfits : s.guard.Fits text) (hsmooth : Smooth text done.length s ds)
    (hold : ∀ x, s.guard.SecretSpan text x → ¬x.Crosses done.length) : ∃ pieces, s.emit ds = some pieces ∧
      Redacts (fun i => s.guard.Secret text (done.length + i)) (s.buf ++ ds.flatten) pieces.flatten := by
  induction ds generalizing s done with
  | nil =>
    refine ⟨_, rfl, ?_⟩
    rw [flatten_nil, append_nil] at htext ⊢
    rw [flatten_singleton]
    have hpiece : text.drop done.length = s.buf ++ [] := by rw [htext, drop_left, append_nil]
    refine redacts_piece hpiece hsmooth hold fun x hx hcross => ?_
    have hend := hx.stop_le
    rw [htext, length_append] at hend
    obtain ⟨hstart, hstop⟩ := hcross
    omega
  | cons d ds ih =>
    obtain ⟨n, f, hcut, hpush⟩ := push_eq s d
    obtain ⟨hbefore, hafter⟩ := hsmooth
    obtain ⟨hkept, hrest⟩ := hafter _ _ hpush
    have hlen : (s.buf ++ d).length - ((s.buf ++ d).drop n).length = n := by
      have := hcut.le
      rw [length_drop]
      omega
    simp only [hlen] at hkept hrest
    have hwhole : s.buf ++ (d :: ds).flatten = s.buf ++ d ++ ds.flatten := by
      rw [flatten_cons, append_assoc]
    have hsplit : s.buf ++ d ++ ds.flatten = (s.buf ++ d).take n ++ ((s.buf ++ d).drop n ++ ds.flatten) := by
      rw [← append_assoc, take_append_drop]
    have htake : ((s.buf ++ d).take n).length = n := length_take_of_le hcut.le
    have hbuf : text.drop done.length = s.buf ++ d ++ ds.flatten := by
      rw [htext, drop_left, hwhole]
    have hnew : ∀ x, s.guard.SecretSpan text x → ¬x.Crosses (done.length + n) :=
      fun x hx => not_crosses_cut hbuf hfits hcut hbefore hold hx
    have hdone : (done ++ (s.buf ++ d).take n).length = done.length + n := by
      rw [length_append, htake]
    obtain ⟨pieces, hemit, hred⟩ := @ih (done ++ (s.buf ++ d).take n) ⟨s.guard, (s.buf ++ d).drop n, f⟩
      (by rw [append_assoc, ← hsplit, ← hwhole, htext]) hfits (hdone ▸ hrest) (hdone ▸ hnew)
    refine ⟨_, emit_cons hpush hemit, ?_⟩
    rw [hwhole, hsplit, flatten_cons]
    refine Redacts.append ?_ ?_
    · split_ifs with hn
      · rw [hn, take_zero]
        exact ⟨[], rfl, rfl, fun i _ => rfl⟩
      · rw [hsplit] at hbuf
        exact redacts_piece hbuf (hkept (Nat.pos_of_ne_zero hn)) hold (htake.symm ▸ hnew)
    · refine hred.mono fun i hi => ?_
      rw [hdone, Nat.add_assoc]
      rwa [htake] at hi

theorem fits_of_length {g : SecretGuard} {text : Text}
    (h : ∀ s, g.SecretSpan text s → s.stop ≤ s.start + 64) : g.Fits text := by
  intro s hs
  have hle := byteLen_le (slice text s.start s.stop)
  have hlen : (slice text s.start s.stop).length ≤ s.stop - s.start := length_take_le _ _
  have hshort := h s hs
  change _ ≤ 256
  omega

theorem long_nil (k : Known) (hk : k ∈ []) : 8 ≤ byteLen k.value := nomatch hk

def lone : SecretGuard := (⟨[], [], long_nil, nodup_nil⟩ : SecretGuard).registerValue "credential" "abcdefgh".toList

def overlap : Text := "token=sk-abcdefghijklmnopqrstuvwx".toList ++ List.replicate 243 ' '

theorem overlap_length : overlap.length = 276 := by decide +kernel

/-- The pattern of keys matches `sk-abcdefghijklmnopqrstuvwx`. -/
def keyRegex (kind : String) : Regex where
  captures := fun text =>
    if kind = "api-key" then
      if text = overlap then [⟨⟨6, 33⟩, ⟨6, 33⟩⟩]
      else if text = overlap.drop 6 then [⟨⟨0, 27⟩, ⟨0, 27⟩⟩]
      else []
    else []
  inOrder := fun text => by
    split_ifs with h₁ h₂ h₃
    · rw [h₂, overlap_length]
      exact ⟨Nat.zero_le _, Nat.le_refl 6, by decide, Nat.le_refl 33, Nat.le_of_ble_eq_true rfl⟩
    · rw [h₃, length_drop, overlap_length]
      exact ⟨Nat.zero_le _, Nat.le_refl 0, by decide, Nat.le_refl 27, Nat.le_of_ble_eq_true rfl⟩
    · exact Nat.zero_le _
    · exact Nat.zero_le _

def tokens : SecretGuard := (SecretGuard.new keyRegex).registerValue "credential" "token=sk-ab".toList

theorem mem_patterns {re : String → Regex} {p : Pattern} (h : p ∈ patterns re) : p.re = re p.kind := by
  simp only [patterns, mem_cons, not_mem_nil, or_false] at h
  rcases h with rfl | rfl | rfl | rfl | rfl | rfl | rfl | rfl | rfl | rfl <;> rfl

theorem fits_overlap : tokens.Fits overlap := by
  refine fits_of_length fun s hs => ?_
  rcases hs with ⟨k, hk, -, hstop⟩ | ⟨p, hp, h, hh, rfl⟩
  · have hvalue : k.value.length = 11 := by
      rw [mem_singleton.1 hk]
      rfl
    omega
  · obtain ⟨c, hc, rfl⟩ := mem_map.1 hh
    have hone : c = ⟨⟨6, 33⟩, ⟨6, 33⟩⟩ := by
      rw [mem_patterns hp, keyRegex] at hc
      simp only [if_true] at hc
      split_ifs at hc
      · exact mem_singleton.1 hc
      · cases hc
    subst hone
    simp only [Pattern.secret, ite_self]
    decide

theorem not_redacts_of_first {secret : ℕ → Prop} {text out : Text} {c : Char} (hsecret : secret 0)
    (hc : c ≠ '[') : ¬Redacts secret text (c :: out) := by
  rintro ⟨segs, -, hshown, hall⟩
  cases segs with
  | nil => cases hshown
  | cons s segs =>
    cases s with
    | keep a => exact absurd (hall 0 hsecret) nofun
    | mask hidden kind => exact hc (cons_eq_cons.1 hshown).1.symm

end Redact
