/-
**The links of a vault.**

A pass over a vault of Obsidian notes reads their wikilinks and appends an edge for each link to
another note, unless neither of the two has changed.
-/

import Pensieve.MemoryFilter
import Pensieve.Rows
import Pensieve.Runs

namespace Vault

open List
open Discover (Text)
open Recall (trim)

/-! ### Wikilinks -/

/-- The text before the first `cc` and the text after it. -/
def cutAt (c : Char) : Text → Option (Text × Text)
  | a :: b :: rest => if a = c ∧ b = c then some ([], rest) else (cutAt c (b :: rest)).map fun p => (a :: p.1, p.2)
  | _ => none

def push (out : List Text) (target : Text) : List Text :=
  if target ≠ [] ∧ target ∉ out then out ++ [target] else out

def extractLoop : ℕ → Text → List Text → List Text
  | 0, _, out => out
  | fuel + 1, rest, out =>
    match cutAt '[' rest with
    | none => out
    | some (_, after) =>
      match cutAt ']' after with
      | none => out
      | some (raw, rest) => extractLoop fuel rest (push out (trim raw))

def extract (body : Text) : List Text := extractLoop body.length body []

def bare (raw : Text) : Text := trim (raw.takeWhile fun c => c ∉ ['|', '#', '^'])

def extractNormalized (body : Text) : List Text := (extract body).foldl (fun out raw => push out (bare raw)) []

/-- The text encloses `raw` in brackets: between the first opening ones and the first closing ones after them, or behind
these. -/
inductive Encloses : Text → Text → Prop where
  | first {body pre after raw rest : Text} : cutAt '[' body = some (pre, after) → cutAt ']' after = some (raw, rest) →
      Encloses body raw
  | later {body pre after raw rest raw' : Text} : cutAt '[' body = some (pre, after) →
      cutAt ']' after = some (raw, rest) → Encloses rest raw' → Encloses body raw'

/-- The body links to the name `t`. -/
def HasLink (body t : Text) : Prop := t ≠ [] ∧ ∃ raw, Encloses body raw ∧ bare (trim raw) = t

theorem length_cutAt {c : Char} {s pre rest : Text} (h : cutAt c s = some (pre, rest)) : rest.length < s.length := by
  induction s generalizing pre with
  | nil => cases h
  | cons a s ih =>
    cases s with
    | nil => cases h
    | cons b s =>
      rw [cutAt] at h
      split at h
      · cases h
        simp
      · obtain ⟨p, hp, heq⟩ := Option.map_eq_some_iff.1 h
        cases heq
        exact (ih hp).trans (Nat.lt_succ_self _)

@[simp] theorem mem_push {out : List Text} {x t : Text} : x ∈ push out t ↔ x ∈ out ∨ x ≠ [] ∧ x = t := by
  unfold push
  split <;> grind

theorem mem_foldl_push {f : Text → Text} {raws out : List Text} {x : Text} :
    x ∈ raws.foldl (fun out raw => push out (f raw)) out ↔ x ∈ out ∨ x ≠ [] ∧ ∃ raw ∈ raws, x = f raw := by
  induction raws generalizing out with
  | nil => simp
  | cons raw raws ih => grind [mem_push]

theorem encloses_iff (body : Text) {raw' : Text} : Encloses body raw' ↔ ∃ pre after raw rest,
    cutAt '[' body = some (pre, after) ∧ cutAt ']' after = some (raw, rest) ∧ (raw' = raw ∨ Encloses rest raw') := by
  constructor
  · rintro (⟨hopen, hclose⟩ | ⟨hopen, hclose, hrest⟩)
    · exact ⟨_, _, _, _, hopen, hclose, .inl rfl⟩
    · exact ⟨_, _, _, _, hopen, hclose, .inr hrest⟩
  · rintro ⟨pre, after, raw, rest, hopen, hclose, rfl | hrest⟩
    · exact .first hopen hclose
    · exact .later hopen hclose hrest

theorem mem_extractLoop {fuel : ℕ} {rest t : Text} {out : List Text} (h : rest.length ≤ fuel) :
    t ∈ extractLoop fuel rest out ↔ t ∈ out ∨ t ≠ [] ∧ ∃ raw, Encloses rest raw ∧ t = trim raw := by
  induction fuel generalizing rest out with
  | zero =>
    obtain rfl := eq_nil_of_length_eq_zero (Nat.le_zero.1 h)
    simp [extractLoop, encloses_iff [], cutAt]
  | succ fuel ih =>
    rw [extractLoop]
    split
    next hopen => simp [encloses_iff rest, hopen]
    next pre after hopen =>
      split
      next hclose => simp [encloses_iff rest, hopen, hclose]
      next raw rest' hclose =>
        have hlt := (length_cutAt hclose).trans (length_cutAt hopen)
        rw [ih (by omega), mem_push]
        simp only [encloses_iff rest, hopen]
        grind

theorem mem_extractNormalized {body t : Text} : t ∈ extractNormalized body ↔ HasLink body t := by
  have hbare : ∀ raw, trim raw = [] → bare (trim raw) = [] := fun raw h => by rw [h]; rfl
  unfold extractNormalized extract HasLink
  simp only [mem_foldl_push, mem_extractLoop le_rfl]
  grind

/-! ### A pass -/

structure File where
  folder : Text
  name : Text
  body : Text
  deriving DecidableEq

abbrev Path := Text × Text

def File.path (f : File) : Path := (f.folder, f.name)

structure ScanEntry where
  path : Path
  name : Text
  wikilinks : List Text
  changed : Bool

/-- What the sync has left: the files of the last pass, with their hashes, and the edges. -/
structure State where
  files : List File
  edges : List (Path × Path)

def State.init : State := ⟨[], []⟩

section Pass

variable {H : Type} [DecidableEq H] (lower : Text → Text) (contentHash : Text → Text → H)

def State.hash (s : State) (p : Path) : Option H :=
  (s.files.find? (·.path = p)).map fun f => contentHash f.name f.body

def State.changed (s : State) (f : File) : Bool := s.hash contentHash f.path ≠ some (contentHash f.name f.body)

def State.scan (s : State) (f : File) : ScanEntry :=
  ⟨f.path, f.name, extractNormalized f.body, s.changed contentHash f⟩

def byName (entries : List ScanEntry) (key : Text) : Option ScanEntry :=
  entries.reverse.find? fun e => lower e.name = key

def linkPairs (entries : List ScanEntry) : List (Text × Text) :=
  entries.flatMap fun e => e.wikilinks.filterMap fun target =>
    if lower target = lower e.name then none
    else
      match byName lower entries (lower target) with
      | none => none
      | some dst => if e.changed || dst.changed then some (lower e.name, lower target) else none

def linkWikilinks (entries : List ScanEntry) : List (Path × Path) :=
  (linkPairs lower entries).filterMap fun pair =>
    match byName lower entries pair.1, byName lower entries pair.2 with
    | some src, some dst => some (src.path, dst.path)
    | _, _ => none

/-- `run_once`: edges are only appended. -/
def runOnce (s : State) (files : List File) : Option State :=
  some ⟨files, s.edges ++ linkWikilinks lower (files.map (s.scan contentHash))⟩

/-! ### The links of the files -/

def resolve (files : List File) (key : Text) : Option File := files.reverse.find? fun f => lower f.name = key

def LinkPair (files : List File) (e : Path × Path) : Prop :=
  ∃ f ∈ files, ∃ t g, HasLink f.body t ∧ resolve lower files (lower t) = some g ∧ e = (f.path, g.path)

/-- **The condition on a pass**: a note with a link is the one that its name stands for, no link of the last pass is gone,
and a note whose hash is the same has no new links. -/
structure Heeds (s : State) (files : List File) : Prop where
  holds : ∀ f ∈ files, ∀ t g, HasLink f.body t → resolve lower files (lower t) = some g →
    resolve lower files (lower f.name) = some f
  kept : ∀ e, LinkPair lower s.files e → LinkPair lower files e
  same : ∀ f ∈ files, s.changed contentHash f = false → ∀ f' ∈ s.files, f'.path = f.path →
    ∀ t, HasLink f.body t → HasLink f'.body t

variable {lower} {contentHash} {s : State} {files : List File}

theorem byName_map (key : Text) :
    byName lower (files.map (s.scan contentHash)) key = (resolve lower files key).map (s.scan contentHash) := by
  unfold byName resolve
  rw [← map_reverse, find?_map]
  rfl

theorem resolve_spec {key : Text} {f : File} (h : resolve lower files key = some f) : f ∈ files ∧ lower f.name = key := by
  refine ⟨by simpa using mem_of_find?_eq_some h, by simpa using find?_some h⟩

theorem mem_linkWikilinks {e : Path × Path} : e ∈ linkWikilinks lower (files.map (s.scan contentHash)) ↔
    ∃ f ∈ files, ∃ t g h, HasLink f.body t ∧ lower t ≠ lower f.name ∧ resolve lower files (lower t) = some g ∧
      (s.changed contentHash f = true ∨ s.changed contentHash g = true) ∧
      resolve lower files (lower f.name) = some h ∧ e = (h.path, g.path) := by
  simp only [linkWikilinks, linkPairs, mem_filterMap, mem_flatMap, mem_map, byName_map]
  constructor
  · rintro ⟨pair, ⟨_, ⟨f, hf, rfl⟩, t, ht, hpair⟩, he⟩
    split at hpair
    · cases hpair
    next hself =>
      cases hg : resolve lower files (lower t) with
      | none => simp [hg] at hpair
      | some g =>
        simp only [hg, Option.map_some, Option.ite_none_right_eq_some] at hpair
        obtain ⟨hchanged, hpair⟩ := hpair
        cases hpair
        cases hh : resolve lower files (lower f.name) with
        | none => simp [State.scan, hh] at he
        | some h =>
          refine ⟨f, hf, t, g, h, mem_extractNormalized.1 ht, hself, hg, by simpa [State.scan] using hchanged, hh, ?_⟩
          simpa [State.scan, hg, hh, eq_comm] using he
  · rintro ⟨f, hf, t, g, h, hlink, hself, hg, hchanged, hh, rfl⟩
    refine ⟨(lower f.name, lower t), ⟨_, ⟨f, hf, rfl⟩, t, mem_extractNormalized.2 hlink, ?_⟩, ?_⟩
    · simpa [State.scan, hself, hg, or_iff_not_imp_left] using hchanged
    · simp [hg, hh, State.scan]

theorem exists_of_not_changed {f : File} (h : s.changed contentHash f = false) : ∃ f' ∈ s.files, f'.path = f.path := by
  unfold State.changed State.hash at h
  cases hfind : s.files.find? (·.path = f.path) with
  | none => simp [hfind] at h
  | some f' => exact ⟨f', mem_of_find?_eq_some hfind, by simpa using find?_some hfind⟩

theorem Heeds.linked (h : Heeds lower contentHash s files) {f g : File} {t : Text} (hf : f ∈ files)
    (hfsame : s.changed contentHash f = false) (hgsame : s.changed contentHash g = false) (hlink : HasLink f.body t)
    (hg : resolve lower files (lower t) = some g) : LinkPair lower s.files (f.path, g.path) := by
  obtain ⟨f', hf', hpath⟩ := exists_of_not_changed hfsame
  obtain ⟨g', hg', hgpath⟩ := exists_of_not_changed hgsame
  have hname : lower g'.name = lower t := by
    rw [← (resolve_spec hg).2]
    exact congrArg (fun p : Path => lower p.2) hgpath
  obtain ⟨k, hk⟩ : ∃ k, resolve lower s.files (lower t) = some k := by
    rw [← Option.isSome_iff_exists]
    exact find?_isSome.2 ⟨g', mem_reverse.2 hg', decide_eq_true hname⟩
  have hold : LinkPair lower s.files (f.path, k.path) :=
    ⟨f', hf', t, k, h.same f hf hfsame f' hf' hpath t hlink, hk, by rw [hpath]⟩
  -- the pair is there still, so the name stands for the same note
  obtain ⟨f₂, -, t₂, g₂, -, hg₂, heq⟩ := h.kept _ hold
  have hkpath : k.path = g₂.path := congrArg Prod.snd heq
  have ht : lower t₂ = lower t := by
    rw [← (resolve_spec hg₂).2, ← (resolve_spec hk).2]
    exact congrArg (fun p : Path => lower p.2) hkpath.symm
  rw [ht, hg] at hg₂
  rwa [hkpath, ← Option.some.inj hg₂] at hold

end Pass

def ascii (s : Text) : Text := s.map Char.toLower

def linking : File := ⟨"a".toList, "Plan".toList, "see [[goals|our goals]]".toList⟩

def goals : File := ⟨"b".toList, "Goals".toList, []⟩

end Vault
