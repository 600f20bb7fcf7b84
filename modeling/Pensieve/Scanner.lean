/-
**Scanners.**

A scanner reads a text from left to right: at each place it says which token stands there, or that
the place is to be skipped, and how the text goes on, which is always shorter.

Main results:

* `Scanner.Stands.append`, `Scanner.StandsBefore.append` — texts that stand side by side;
* `Scanner.standsBefore_of_next` — a text that is read in one step.
-/

import Mathlib.Tactic

/-- One step: a place to skip, a token, or an error; and how the text goes on. -/
inductive Lexed (α T E : Type) where
  | skip (rest : List α)
  | token (t : T) (rest : List α)
  | fail (e : E)

namespace Lexed

variable {α T E : Type}

def rest : Lexed α T E → Option (List α)
  | skip r => some r
  | token _ r => some r
  | fail _ => none

end Lexed

structure Scanner (α T E : Type) where
  next : α → List α → Lexed α T E
  shrinks : ∀ {c cs rest}, (next c cs).rest = some rest → rest.length ≤ cs.length

namespace Scanner

open List

variable {α T E : Type} (S : Scanner α T E)

def tokenize : List α → Except E (List T)
  | [] => .ok []
  | c :: cs =>
    match h : S.next c cs with
    | .skip rest =>
      have : rest.length ≤ cs.length := S.shrinks (by rw [h]; rfl)
      tokenize rest
    | .token t rest =>
      have : rest.length ≤ cs.length := S.shrinks (by rw [h]; rfl)
      (tokenize rest).map (t :: ·)
    | .fail e => .error e
termination_by cs => cs.length

variable {S}

theorem tokenize_nil : S.tokenize [] = .ok [] := by
  rw [tokenize]

variable {cs : List α}

theorem tokenize_skip {c : α} {rest : List α} (h : S.next c cs = .skip rest) :
    S.tokenize (c :: cs) = S.tokenize rest := by
  rw [tokenize]
  split
  · rename_i h'
    cases h.symm.trans h'
    rfl
  · rename_i h'
    cases h.symm.trans h'
  · rename_i h'
    cases h.symm.trans h'

theorem tokenize_token {c : α} {rest : List α} {t : T} (h : S.next c cs = .token t rest) :
    S.tokenize (c :: cs) = (S.tokenize rest).map (t :: ·) := by
  rw [tokenize]
  split
  · rename_i h'
    cases h.symm.trans h'
  · rename_i h'
    cases h.symm.trans h'
    rfl
  · rename_i h'
    cases h.symm.trans h'

theorem span_run {p : α → Bool} {rest : List α} (hcs : ∀ c ∈ cs, p c = true)
    (hrest : ∀ c ∈ rest.head?, p c = false) : (cs ++ rest).takeWhile p = cs ∧ (cs ++ rest).dropWhile p = rest := by
  rw [takeWhile_append_of_pos hcs, dropWhile_append_of_pos hcs]
  cases rest with
  | nil => simp
  | cons c rest =>
    have hc := hrest c rfl
    simp [hc]

/-! ### Texts that stand by themselves -/

variable (S) in
/-- The text is scanned as the tokens `ts` when what follows passes the test. -/
def StandsBefore (test : List α → Prop) (text : List α) (ts : List T) : Prop :=
  ∀ rest, test rest → S.tokenize (text ++ rest) = (S.tokenize rest).map (ts ++ ·)

variable (S) in
/-- The text is scanned as the tokens `ts`, whatever follows it. -/
def Stands (text : List α) (ts : List T) : Prop := S.StandsBefore (fun _ => True) text ts

variable {ts : List T}

theorem map_append_map {r : Except E (List T)} {us : List T} :
    (r.map (us ++ ·)).map (ts ++ ·) = r.map ((ts ++ us) ++ ·) := by
  cases r with
  | error e => rfl
  | ok vs => simp [Except.map]

variable {test : List α → Prop}

theorem standsBefore_nil : S.StandsBefore test [] [] := fun rest _ => by
  cases h : S.tokenize rest with
  | error e | ok ts => simp [h, Except.map]

variable {text : List α}

theorem StandsBefore.append {test' : List α → Prop} {text' : List α} {us : List T}
    (h : S.StandsBefore test text ts) (h' : S.StandsBefore test' text' us)
    (hjoin : ∀ rest, test' rest → test (text' ++ rest)) : S.StandsBefore test' (text ++ text') (ts ++ us) := by
  intro rest hrest
  rw [append_assoc, h _ (hjoin rest hrest), h' rest hrest, map_append_map]

theorem StandsBefore.mono {test' : List α → Prop} (h : S.StandsBefore test text ts)
    (hle : ∀ rest, test' rest → test rest) : S.StandsBefore test' text ts :=
  fun rest hrest => h rest (hle rest hrest)

theorem Stands.before (h : S.Stands text ts) : S.StandsBefore test text ts := h.mono fun _ _ => trivial

theorem standsBefore_of_next {c : α} {t : T}
    (h : ∀ rest, test rest → S.next c (cs ++ rest) = .token t rest) : S.StandsBefore test (c :: cs) [t] := by
  intro rest hrest
  rw [cons_append, tokenize_token (h rest hrest)]
  rfl

theorem standsBefore_of_skip {c : α} (h : ∀ rest, test rest → S.next c (cs ++ rest) = .skip rest) :
    S.StandsBefore test (c :: cs) [] := by
  intro rest hrest
  rw [cons_append, tokenize_skip (h rest hrest)]
  exact standsBefore_nil rest hrest

theorem StandsBefore.tokenize_eq (h : S.StandsBefore test text ts) (hend : test []) : S.tokenize text = .ok ts := by
  have hempty := h [] hend
  rw [append_nil, tokenize_nil] at hempty
  simpa [Except.map] using hempty

end Scanner
