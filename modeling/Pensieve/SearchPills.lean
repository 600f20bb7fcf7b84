/-
**Pills back to a search string.**

The search bar of the client reads its text into pills and writes the pills back when one of them is
edited.  A value is written in quotes if it has a blank; a field and the value of a comparison are
written as they are, and so is a leading minus.
-/

import Pensieve.SearchGrammar

namespace Discover

open List

/-! ### The serializer -/

def needsQuotes (s : List CodeUnit) : Bool := s.any isSpace

def quoteIfNeeded (s : List CodeUnit) : List CodeUnit :=
  if needsQuotes s then '"'.toNat :: s ++ ['"'.toNat] else s

def CmpOp.units : CmpOp → List CodeUnit
  | .gt => ['>'.toNat]
  | .ge => ['>'.toNat, '='.toNat]
  | .lt => ['<'.toNat]
  | .le => ['<'.toNat, '='.toNat]

def pillToToken : Pill → List CodeUnit
  | .substring value => quoteIfNeeded value
  | .eq field value => field ++ ':'.toNat :: quoteIfNeeded value
  | .neq field value => '-'.toNat :: field ++ ':'.toNat :: quoteIfNeeded value
  | .exists_ field => field ++ [':'.toNat, '*'.toNat]
  | .cmp field op value => field ++ ':'.toNat :: op.units ++ value

def serializePills (pills : List Pill) : List CodeUnit := [' '.toNat].intercalate (pills.map pillToToken)

/-! ### The parts of a token -/

def Clause.front : Pill → List CodeUnit
  | .substring _ => []
  | .eq field _ | .neq field _ => field ++ [':'.toNat]
  | .exists_ field => field ++ [':'.toNat, '*'.toNat]
  | .cmp field op value => field ++ ':'.toNat :: op.units ++ value

def Clause.back : Pill → List CodeUnit
  | .substring value | .eq _ value | .neq _ value => value
  | .exists_ _ | .cmp _ _ _ => []

def Clause.isNeq : Pill → Bool
  | .neq _ _ => true
  | _ => false

def Clause.raw (p : Pill) : List CodeUnit := p.front ++ p.back

/-- **A pill that can be read back**: what is written as it is has no blank, and nothing but a negation begins with a
minus. -/
def Tidy (p : Pill) : Prop :=
  (∀ u ∈ p.front, ¬isSpace u = true) ∧ (p.isNeq = true ∨ (pillToToken p).head? ≠ some '-'.toNat)

instance (p : Pill) : Decidable (Tidy p) := inferInstanceAs (Decidable (_ ∧ _))

theorem pillToToken_eq (p : Pill) :
    pillToToken p = (if p.isNeq then ['-'.toNat] else []) ++ (p.front ++ quoteIfNeeded p.back) := by
  cases p <;> simp [pillToToken, Clause.isNeq, Clause.front, Clause.back, quoteIfNeeded, needsQuotes]

theorem raw_valueToPill (field value : List CodeUnit) (neg : Bool) :
    (valueToPill field value neg).raw = field ++ ':'.toNat :: value := by
  have hdrop : ∀ {as : List CodeUnit}, as.isPrefixOf value = true → as ++ value.drop as.length = value := by
    intro as h
    obtain ⟨rest, rfl⟩ := isPrefixOf_iff_prefix.1 h
    rw [drop_left]
  unfold valueToPill
  split_ifs with h₁ h₂ h₃ h₄ h₅
  · simp [Clause.raw, Clause.front, Clause.back, h₁]
  · simpa [Clause.raw, Clause.front, Clause.back, CmpOp.units] using hdrop h₂
  · simpa [Clause.raw, Clause.front, Clause.back, CmpOp.units] using hdrop h₃
  · simpa [Clause.raw, Clause.front, Clause.back, CmpOp.units] using hdrop h₄
  · simpa [Clause.raw, Clause.front, Clause.back, CmpOp.units] using hdrop h₅
  · simp [Clause.raw, Clause.front, Clause.back]
  · simp [Clause.raw, Clause.front, Clause.back]

theorem valueToPill_isNeq (field value : List CodeUnit) (neg : Bool) :
    valueToPill field value (valueToPill field value neg).isNeq = valueToPill field value neg := by
  unfold valueToPill
  split_ifs <;> simp_all [Clause.isNeq]

theorem tokenToPill_ok {token : List CodeUnit} {neg : Bool} {p : Pill} (h : tokenToPill token neg = .ok p) :
    p.raw = token ∧ tokenToPill token p.isNeq = .ok p := by
  rcases hfind : token.findIdx? (· = ':'.toNat) with - | c
  · cases neg <;> rw [tokenToPill, hfind] at h <;> cases h
    refine ⟨rfl, ?_⟩
    rw [tokenToPill, hfind]
    rfl
  · by_cases hc : c = 0
    · subst hc
      cases neg <;> rw [tokenToPill, hfind] at h <;> cases h
      refine ⟨rfl, ?_⟩
      rw [tokenToPill, hfind]
      rfl
    · rw [tokenToPill_some hfind hc] at h ⊢
      cases h
      obtain ⟨hlt, hcolon, -⟩ := findIdx?_eq_some_iff_getElem.1 hfind
      rw [decide_eq_true_eq] at hcolon
      refine ⟨?_, congrArg Except.ok (valueToPill_isNeq _ _ neg)⟩
      rw [raw_valueToPill, ← hcolon, getElem_cons_drop, take_append_drop]

/-! ### What the scanner produces -/

def Read (p : Pill) : Prop := '"'.toNat ∉ p.raw ∧ p.raw ≠ [] ∧ tokenToPill p.raw p.isNeq = .ok p

theorem notMem_readRaw {raw us token rest : List CodeUnit} {quoted : Bool}
    (h : readRaw raw quoted us = .ok (token, rest)) (hraw : '"'.toNat ∉ raw) : '"'.toNat ∉ token := by
  have hsnoc : ∀ {u} {raw : List CodeUnit}, '"'.toNat ∉ raw → ¬u = '"'.toNat → '"'.toNat ∉ raw ++ [u] :=
    fun hraw hu hmem => (mem_append.1 hmem).elim hraw fun hmem => hu (mem_singleton.1 hmem).symm
  induction us generalizing raw quoted with
  | nil =>
    cases quoted <;> cases h
    exact hraw
  | cons u us ih =>
    cases quoted <;> rw [readRaw] at h <;> split_ifs at h
    · cases h
      exact hraw
    · exact ih h hraw
    · exact ih h (hsnoc hraw (by assumption))
    · exact ih h hraw
    · exact ih h (hsnoc hraw (by assumption))

theorem read_of_parseSearch {s : List CodeUnit} {pills : List Pill} (h : parseSearch s = .ok pills) :
    ∀ p ∈ pills, Read p := by
  induction hn : s.length using Nat.strong_induction_on generalizing s pills with
  | _ n ih =>
    cases hskip : s.dropWhile isSpace with
    | nil =>
      rw [parseSearch_nil hskip] at h
      cases h
      exact nofun
    | cons u us =>
      rw [parseSearch_token hskip] at h
      split at h
      · cases h
      · rename_i raw rest hread
        have hlt := hn ▸ readRaw_lt hskip hread
        split_ifs at h with hempty
        · exact ih _ hlt h rfl
        · split at h
          · cases h
          · rename_i pill hpill
            obtain ⟨hraw, hneg⟩ := tokenToPill_ok hpill
            cases hrest : parseSearch rest with
            | error e =>
              rw [hrest] at h
              cases h
            | ok pills' =>
              rw [hrest] at h
              cases h
              refine forall_mem_cons.2 ⟨?_, ih _ hlt hrest rfl⟩
              unfold Read
              rw [hraw]
              exact ⟨notMem_readRaw hread not_mem_nil, fun hnil => hempty (List.isEmpty_iff.2 hnil), hneg⟩

/-! ### Reading a token back -/

variable {us front back sep token rest : List CodeUnit}

def Ends (sep : List CodeUnit) : Prop := ∀ u ∈ sep.head?, isSpace u = true

theorem readRaw_ends (h : Ends sep) (raw : List CodeUnit) : readRaw raw false sep = .ok (raw, sep) := by
  cases sep with
  | nil => rfl
  | cons u us =>
    rw [readRaw]
    exact if_pos (h u rfl)

theorem readRaw_plain (hquote : '"'.toNat ∉ us) (hspace : ∀ u ∈ us, ¬isSpace u = true) (raw : List CodeUnit) :
    readRaw raw false (us ++ rest) = readRaw (raw ++ us) false rest := by
  induction us generalizing raw with
  | nil => rw [append_nil, nil_append]
  | cons u us ih =>
    have hu : ¬u = '"'.toNat := fun heq => hquote (heq ▸ mem_cons_self)
    rw [cons_append, readRaw, if_neg (hspace u mem_cons_self), if_neg hu,
      ih (fun hmem => hquote (mem_cons_of_mem _ hmem)) fun v hv => hspace v (mem_cons_of_mem _ hv),
      append_assoc, singleton_append]

theorem readRaw_quoted (hquote : '"'.toNat ∉ us) (raw : List CodeUnit) :
    readRaw raw true (us ++ '"'.toNat :: rest) = readRaw (raw ++ us) false rest := by
  induction us generalizing raw with
  | nil =>
    rw [nil_append, append_nil, readRaw]
    exact if_pos rfl
  | cons u us ih =>
    have hu : ¬u = '"'.toNat := fun heq => hquote (heq ▸ mem_cons_self)
    rw [cons_append, readRaw, if_neg hu, ih fun hmem => hquote (mem_cons_of_mem _ hmem), append_assoc, singleton_append]

theorem readRaw_back (hquote : '"'.toNat ∉ back) (hsep : Ends sep) (raw : List CodeUnit) :
    readRaw raw false (quoteIfNeeded back ++ sep) = .ok (raw ++ back, sep) := by
  rw [quoteIfNeeded]
  split
  · rw [append_assoc, cons_append, readRaw, if_neg (by decide), if_pos rfl, singleton_append,
      readRaw_quoted hquote, readRaw_ends hsep]
  · rename_i hneeds
    rw [needsQuotes, any_eq_true] at hneeds
    rw [readRaw_plain hquote fun u hu hspace => hneeds ⟨u, hu, hspace⟩, readRaw_ends hsep]

theorem length_readRaw {raw : List CodeUnit} (hfront : '"'.toNat ∉ front) (hback : '"'.toNat ∉ back) (hsep : Ends sep)
    (h : readRaw raw false (front ++ (quoteIfNeeded back ++ sep)) = .ok (token, rest)) :
    raw.length ≤ token.length ∧ token.length ≤ raw.length + (front.length + back.length) ∧
      ((∃ u ∈ front, isSpace u = true) → token.length < raw.length + (front.length + back.length)) := by
  induction front generalizing raw with
  | nil =>
    rw [nil_append, readRaw_back hback hsep] at h
    cases h
    simp
  | cons u us ih =>
    rw [cons_append, readRaw] at h
    have hu : ¬u = '"'.toNat := fun heq => hfront (heq ▸ mem_cons_self)
    rw [if_neg hu] at h
    split_ifs at h with hspace
    · cases h
      simp only [length_cons]
      omega
    · obtain ⟨hraw, hle, hlt⟩ := ih (fun hmem => hfront (mem_cons_of_mem _ hmem)) h
      rw [length_append, length_singleton] at hraw hle hlt
      rw [length_cons]
      refine ⟨by omega, by omega, ?_⟩
      rintro ⟨v, hv, hvs⟩
      rcases mem_cons.1 hv with rfl | hv
      · exact absurd hvs hspace
      · have := hlt ⟨v, hv, hvs⟩
        omega

theorem parseSearch_blank {u : CodeUnit} (hu : isSpace u = true) (us : List CodeUnit) :
    parseSearch (u :: us) = parseSearch us := by
  have hdrop : (u :: us).dropWhile isSpace = us.dropWhile isSpace := dropWhile_cons_of_pos hu
  cases hskip : us.dropWhile isSpace with
  | nil => rw [parseSearch_nil hskip, parseSearch_nil (hdrop.trans hskip)]
  | cons v vs => rw [parseSearch_token hskip, parseSearch_token (hdrop.trans hskip)]

theorem parseSearch_tidy {p : Pill} (hp : Read p) (htidy : Tidy p) (hsep : Ends sep) :
    parseSearch (pillToToken p ++ sep) = (parseSearch sep).map (p :: ·) := by
  obtain ⟨hquote, hne, hpill⟩ := hp
  obtain ⟨hspace, hsign⟩ := htidy
  have hfront : '"'.toNat ∉ p.front := fun hmem => hquote (mem_append_left _ hmem)
  have hback : '"'.toNat ∉ p.back := fun hmem => hquote (mem_append_right _ hmem)
  have hread : readRaw [] false (p.front ++ (quoteIfNeeded p.back ++ sep)) = .ok (p.raw, sep) := by
    rw [readRaw_plain hfront hspace, readRaw_back hback hsep]
    rfl
  have hempty : p.raw.isEmpty = false := isEmpty_eq_false_iff.2 hne
  rw [pillToToken_eq] at hsign ⊢
  cases hneq : p.isNeq with
  | true =>
    rw [if_pos rfl, append_assoc, append_assoc, singleton_append,
      parseSearch_token (dropWhile_cons_of_neg (by decide)), if_pos rfl, hread]
    rw [hneq] at hpill
    simp only [hempty, Bool.false_eq_true, if_false, decide_true, hpill]
  | false =>
    rw [hneq] at hsign
    rw [if_neg Bool.false_ne_true, nil_append] at hsign ⊢
    replace hsign := hsign.resolve_left Bool.false_ne_true
    rw [append_assoc]
    cases htext : p.front ++ quoteIfNeeded p.back with
    | nil =>
      rw [← append_assoc, htext] at hread
      rw [nil_append, readRaw_ends hsep] at hread
      exact absurd (congrArg Prod.fst (Except.ok.inj hread)).symm hne
    | cons u us =>
      have hu : ¬isSpace u = true := by
        cases hf : p.front with
        | cons v vs =>
          rw [hf, cons_append] at htext
          cases htext
          exact hspace _ (hf ▸ mem_cons_self)
        | nil =>
          rw [hf, nil_append, quoteIfNeeded] at htext
          split at htext
          · cases htext
            decide
          · rename_i hneeds
            rw [needsQuotes, any_eq_true] at hneeds
            exact fun hs => hneeds ⟨u, htext ▸ mem_cons_self, hs⟩
      have hminus : ¬u = '-'.toNat := fun heq => hsign (by rw [htext, heq]; rfl)
      rw [← append_assoc, htext] at hread ⊢
      rw [cons_append, parseSearch_token (dropWhile_cons_of_neg hu), if_neg hminus, ← cons_append, hread]
      rw [hneq] at hpill
      simp only [hempty, Bool.false_eq_true, if_false, hminus, decide_false, hpill]

/-- `1` for a minus in front. -/
def minus (us : List CodeUnit) : ℕ := if us.head? = some '-'.toNat then 1 else 0

theorem length_first {q : Pill} {qs : List Pill} (hfront : '"'.toNat ∉ front) (hback : '"'.toNat ∉ back)
    (hsep : Ends sep) (hne : ∃ u ∈ front, ¬isSpace u = true)
    (h : parseSearch (front ++ (quoteIfNeeded back ++ sep)) = .ok (q :: qs)) :
    q.raw.length + minus front ≤ front.length + back.length ∧
      ((∃ u ∈ front, isSpace u = true) → q.raw.length + minus front < front.length + back.length) := by
  induction front with
  | nil => exact absurd hne nofun
  | cons u us ih =>
    have hus : '"'.toNat ∉ us := fun hmem => hfront (mem_cons_of_mem _ hmem)
    by_cases hu : isSpace u = true
    · rw [cons_append, parseSearch_blank hu] at h
      have hne' : ∃ v ∈ us, ¬isSpace v = true := by
        obtain ⟨v, hv, hvs⟩ := hne
        rcases mem_cons.1 hv with rfl | hv
        · exact absurd hu hvs
        · exact ⟨v, hv, hvs⟩
      have hle := (ih hus hne' h).1
      have hminus : minus (u :: us) = 0 := if_neg fun heq => by
        rw [Option.some.inj heq] at hu
        exact absurd hu (by decide)
      rw [hminus, length_cons]
      exact ⟨by omega, fun _ => by omega⟩
    · rw [cons_append, parseSearch_token (dropWhile_cons_of_neg hu)] at h
      have hspaces : (∃ v ∈ u :: us, isSpace v = true) → ∃ v ∈ us, isSpace v = true := by
        rintro ⟨v, hv, hvs⟩
        rcases mem_cons.1 hv with rfl | hv
        · exact absurd hvs hu
        · exact ⟨v, hv, hvs⟩
      split at h
      · cases h
      · rename_i raw rest hread
        have hraw : raw ≠ [] → q.raw = raw := by
          intro hne
          rw [if_neg (by rwa [List.isEmpty_iff])] at h
          split at h
          · cases h
          · rename_i pill hpill
            cases hrest : parseSearch rest with
            | error e =>
              rw [hrest] at h
              cases h
            | ok pills =>
              rw [hrest] at h
              cases h
              exact (tokenToPill_ok hpill).1
        by_cases hm : u = '-'.toNat
        · rw [if_pos hm] at hread
          obtain ⟨-, hle, hlt⟩ := length_readRaw hus hback hsep hread
          rw [length_nil, Nat.zero_add] at hle hlt
          have hminus : minus (u :: us) = 1 := if_pos (congrArg some hm)
          have hq : q.raw = raw := hraw fun hnil => by
            subst hnil
            rw [if_pos isEmpty_nil, if_pos hm] at h
            cases h
          rw [hq, hminus, length_cons]
          exact ⟨by omega, fun hs => by have := hlt (hspaces hs); omega⟩
        · have hu' : ¬u = '"'.toNat := fun heq => hfront (heq ▸ mem_cons_self)
          rw [if_neg hm, readRaw, if_neg hu, if_neg hu'] at hread
          obtain ⟨hge, hle, hlt⟩ := length_readRaw hus hback hsep hread
          rw [nil_append, length_singleton] at hge hle hlt
          have hminus : minus (u :: us) = 0 := if_neg fun heq => hm (Option.some.inj heq)
          have hq : q.raw = raw := hraw fun hnil => by
            subst hnil
            exact absurd hge (by decide)
          rw [hq, hminus, length_cons]
          exact ⟨by omega, fun hs => by have := hlt (hspaces hs); omega⟩

theorem parseSearch_untidy {p q : Pill} {qs : List Pill} (hp : Read p) (htidy : ¬Tidy p) (hsep : Ends sep)
    (h : parseSearch (pillToToken p ++ sep) = .ok (q :: qs)) : q.raw.length < p.raw.length := by
  obtain ⟨hquote, hne, -⟩ := hp
  have hfront : '"'.toNat ∉ p.front := fun hmem => hquote (mem_append_left _ hmem)
  have hback : '"'.toNat ∉ p.back := fun hmem => hquote (mem_append_right _ hmem)
  have hlen : p.raw.length = p.front.length + p.back.length := length_append
  rw [Tidy, not_and_or, not_or] at htidy
  rw [pillToToken_eq] at htidy h
  cases hneq : p.isNeq with
  | true =>
    rw [hneq, if_pos rfl, append_assoc, append_assoc] at h
    change parseSearch (('-'.toNat :: p.front) ++ (quoteIfNeeded p.back ++ sep)) = _ at h
    rcases htidy with hblank | ⟨hneg, -⟩
    · push Not at hblank
      obtain ⟨v, hv, hvs⟩ := hblank
      have hfront' : '"'.toNat ∉ '-'.toNat :: p.front := not_mem_cons_of_ne_of_not_mem (by decide) hfront
      have hlt := (length_first hfront' hback hsep ⟨_, mem_cons_self, by decide⟩ h).2
        ⟨v, mem_cons_of_mem _ hv, hvs⟩
      have hminus : minus ('-'.toNat :: p.front) = 1 := rfl
      rw [hminus, length_cons] at hlt
      omega
    · exact absurd hneq hneg
  | false =>
    rw [hneq, if_neg Bool.false_ne_true, nil_append] at h htidy
    rw [append_assoc] at h
    cases hf : p.front with
    | nil =>
      -- a substring that is written without quotes, and begins with a minus
      rw [hf] at htidy h hlen
      obtain ⟨-, hhead⟩ := htidy.resolve_left fun hblank => hblank nofun
      rw [nil_append, not_not, quoteIfNeeded] at hhead
      split at hhead
      · cases hhead
      · rename_i hneeds
        rw [nil_append, quoteIfNeeded, if_neg hneeds] at h
        have hle := (length_first hback not_mem_nil hsep
          ⟨_, mem_of_mem_head? hhead, by decide⟩ h).1
        rw [minus, if_pos hhead] at hle
        rw [hlen, length_nil] at *
        omega
    | cons u us =>
      have hcolon : ':'.toNat ∈ p.front := by
        revert hf
        cases p <;> simp [Clause.front]
      have hbounds := length_first hfront hback hsep ⟨_, hcolon, by decide⟩ h
      rcases htidy with hblank | ⟨-, hhead⟩
      · push Not at hblank
        have hlt := hbounds.2 hblank
        omega
      · have hminus : minus p.front = 1 := if_pos (by rw [hf] at hhead ⊢; exact not_not.1 hhead)
        have hle := hbounds.1
        omega

/-! ### Texts -/

theorem serializePills_cons (p : Pill) (ps : List Pill) :
    ∃ sep, serializePills (p :: ps) = pillToToken p ++ sep ∧ Ends sep ∧
      parseSearch sep = parseSearch (serializePills ps) := by
  cases ps with
  | nil => exact ⟨[], by simp [serializePills], nofun, rfl⟩
  | cons q qs =>
    refine ⟨' '.toNat :: serializePills (q :: qs), ?_, ?_, parseSearch_blank (by decide) _⟩
    · simp [serializePills, intercalate_cons_cons]
    · intro u hu
      cases hu
      decide

/-- **The pills of a text come back if and only if all of them are tidy.** -/
theorem pills_round_trip_iff {s : List CodeUnit} {pills : List Pill} (h : parseSearch s = .ok pills) :
    parseSearch (serializePills pills) = .ok pills ↔ ∀ p ∈ pills, Tidy p := by
  have hread := read_of_parseSearch h
  clear h
  induction pills with
  | nil => exact iff_of_true (parseSearch_nil rfl) nofun
  | cons p ps ih =>
    obtain ⟨hp, hps⟩ := forall_mem_cons.1 hread
    obtain ⟨sep, htext, hsep, hrest⟩ := serializePills_cons p ps
    replace ih := ih hps
    rw [← hrest] at ih
    rw [htext, forall_mem_cons]
    by_cases htidy : Tidy p
    · rw [parseSearch_tidy hp htidy hsep, and_iff_right htidy]
      refine Iff.trans ?_ ih
      cases parseSearch sep with
      | error e => exact iff_of_false nofun nofun
      | ok qs => simp [Except.map]
    · exact iff_of_false (fun h => lt_irrefl _ (parseSearch_untidy hp htidy hsep h)) fun h => htidy h.1

/-- A word that is quoted for its minus: the pill is written without the quotes, and cannot be read back. -/
theorem quoted_minus_lost : ∃ s pills, parseSearch s = .ok pills ∧
    parseSearch (serializePills pills) = .error "negation requires a field — substrings cannot be negated" := by
  let pills : List Pill := [.substring (encode "-a".toList)]
  have hread : parseSearch (encode "\"-a\"".toList) = .ok pills := by
    have hskip : (encode "\"-a\"".toList).dropWhile isSpace = 34 :: encode "-a\"".toList := by decide
    rw [parseSearch_token hskip]
    exact congrArg (Except.map _) (parseSearch_nil rfl)
  refine ⟨_, pills, hread, ?_⟩
  have hskip : (serializePills pills).dropWhile isSpace = 45 :: encode "a".toList := by decide
  rw [parseSearch_token hskip]
  rfl

/-- A field and a value with a blank. -/
theorem pills_round_trip_blank :
    let pills : List Pill := [.eq (encode "a".toList) (encode "b c".toList)]
    parseSearch (serializePills pills) = .ok pills := by
  intro pills
  let p : Pill := .eq (encode "a".toList) (encode "b c".toList)
  have hread : Read p := ⟨by decide, by decide, rfl⟩
  have hparse : parseSearch (pillToToken p ++ []) = .ok pills := by
    rw [parseSearch_tidy hread (by decide) fun u hu => by cases hu]
    exact congrArg (Except.map _) (parseSearch_nil rfl)
  exact (pills_round_trip_iff hparse).2 (by decide)

end Discover
