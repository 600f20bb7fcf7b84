/-
**The cache of laid-out graphs, and its pages.**

A laid-out graph is kept under the key of the request that it was computed for, and under a layout
id that a cursor names.
-/

import Mathlib.Data.List.Nodup
import Mathlib.Data.Nat.Digits.Defs

namespace GraphExport

open Function
open List

abbrev Text := List Char

/-! ### The cache -/

inductive LayoutAlgorithm
  | force
  | tree
  | grid
  | radial
  deriving DecidableEq

structure CacheKey where
  database : Text
  graph : Text
  realm : Option Text
  algorithm : LayoutAlgorithm
  deriving DecidableEq

structure LaidOutGraph (N E : Type) where
  layoutId : Text
  fingerprint : ℕ × ℕ
  nodes : List N
  edges : List E
  allowed : Option (List Text)

inductive CacheState (N E : Type)
  | computing
  | ready (laid : LaidOutGraph N E)

structure CacheInner (N E : Type) where
  map : CacheKey → Option (CacheState N E)
  lru : List CacheKey
  byId : Text → Option (LaidOutGraph N E)

def maxEntries : ℕ := 8

variable {N E : Type}

namespace CacheInner

def empty : CacheInner N E := ⟨fun _ => none, [], fun _ => none⟩

def withoutKey (lru : List CacheKey) (key : CacheKey) : List CacheKey := lru.filter (· ≠ key)

def getFresh (c : CacheInner N E) (key : CacheKey) (fingerprint : ℕ × ℕ) : Option (CacheState N E) × CacheInner N E :=
  match c.map key with
  | some .computing => (some .computing, c)
  | some (.ready l) =>
    if l.fingerprint = fingerprint then (some (.ready l), { c with lru := withoutKey c.lru key ++ [key] })
    else
      (none,
        { map := Function.update c.map key none
          lru := withoutKey c.lru key
          byId := Function.update c.byId l.layoutId none })
  | none => (none, c)

def beginCompute (c : CacheInner N E) (key : CacheKey) : Bool × CacheInner N E :=
  match c.map key with
  | some .computing => (false, c)
  | _ => (true, { c with map := Function.update c.map key (some .computing) })

def evictOldest (map : CacheKey → Option (CacheState N E)) (byId : Text → Option (LaidOutGraph N E)) :
    List CacheKey → CacheInner N E
  | [] => ⟨map, [], byId⟩
  | key :: lru =>
    if (key :: lru).length > maxEntries then
      match map key with
      | some (.ready l) => evictOldest (Function.update map key none) (Function.update byId l.layoutId none) lru
      | _ => evictOldest (Function.update map key none) byId lru
    else ⟨map, key :: lru, byId⟩

def insertReady (c : CacheInner N E) (key : CacheKey) (laid : LaidOutGraph N E) : CacheInner N E :=
  evictOldest (Function.update c.map key (some (.ready laid))) (Function.update c.byId laid.layoutId (some laid))
    (withoutKey c.lru key ++ [key])

def abortCompute (c : CacheInner N E) (key : CacheKey) : CacheInner N E :=
  match c.map key with
  | some .computing => { c with map := Function.update c.map key none }
  | _ => c

/-! ### What fits together -/

def Lists (map : CacheKey → Option (CacheState N E)) (lru : List CacheKey) : Prop :=
  lru.Nodup ∧ ∀ key, key ∈ lru ↔ ∃ l, map key = some (.ready l)

def Points (map : CacheKey → Option (CacheState N E)) (byId : Text → Option (LaidOutGraph N E)) : Prop :=
  ∀ id l, byId id = some l → l.layoutId = id ∧ ∃ key, map key = some (.ready l)

structure Kept (c : CacheInner N E) : Prop where
  points : Points c.map c.byId
  lists : Lists c.map c.lru
  bounded : c.lru.length ≤ maxEntries

theorem Kept.empty : (empty : CacheInner N E).Kept where
  points id l h := by cases h
  lists := ⟨nodup_nil, fun key => by simp [CacheInner.empty]⟩
  bounded := by simp [CacheInner.empty, maxEntries]

theorem mem_withoutKey {lru : List CacheKey} {key k : CacheKey} : k ∈ withoutKey lru key ↔ k ∈ lru ∧ k ≠ key := by
  simp [withoutKey]

theorem length_withoutKey_le (lru : List CacheKey) (key : CacheKey) : (withoutKey lru key).length ≤ lru.length :=
  length_filter_le _ _

section Parts

variable {map : CacheKey → Option (CacheState N E)} {byId : Text → Option (LaidOutGraph N E)} {lru : List CacheKey}
  {key : CacheKey}

theorem Lists.use (h : Lists map lru) {l : LaidOutGraph N E} :
    Lists (Function.update map key (some (.ready l))) (withoutKey lru key ++ [key]) := by
  obtain ⟨hnodup, hmem⟩ := h
  refine ⟨?_, fun k => ?_⟩
  · refine nodup_append.2 ⟨hnodup.filter _, nodup_singleton key, fun a ha b hb => ?_⟩
    rw [mem_singleton.1 hb]
    exact (mem_withoutKey.1 ha).2
  · rw [mem_append, mem_singleton, mem_withoutKey]
    by_cases hk : k = key
    · subst hk
      rw [update_self]
      exact ⟨fun _ => ⟨l, rfl⟩, fun _ => .inr rfl⟩
    · rw [update_of_ne hk, ← hmem]
      exact ⟨fun h => (h.resolve_right hk).1, fun h => .inl ⟨h, hk⟩⟩

variable {s : Option (CacheState N E)}

theorem Lists.remove (h : Lists map lru) (hs : ∀ l, s ≠ some (.ready l)) :
    Lists (Function.update map key s) (withoutKey lru key) := by
  obtain ⟨hnodup, hmem⟩ := h
  refine ⟨hnodup.filter _, fun k => ?_⟩
  rw [mem_withoutKey]
  by_cases hk : k = key
  · subst hk
    rw [update_self]
    constructor
    · intro h
      exact absurd rfl h.2
    · rintro ⟨l, hl⟩
      exact absurd hl (hs l)
  · rw [update_of_ne hk, hmem]
    exact ⟨fun h => h.1, fun h => ⟨h, hk⟩⟩

theorem Lists.update (h : Lists map lru) (hmap : ∀ l, map key ≠ some (.ready l))
    (hs : ∀ l, s ≠ some (.ready l)) : Lists (Function.update map key s) lru := by
  have hnot : key ∉ lru := fun hkey => by
    obtain ⟨l, hl⟩ := (h.2 key).1 hkey
    exact hmap l hl
  have hsame : withoutKey lru key = lru := filter_eq_self.2 fun k hk => decide_eq_true fun heq => hnot (heq ▸ hk)
  have hremoved : Lists (Function.update map key s) (withoutKey lru key) := h.remove hs
  rwa [hsame] at hremoved

theorem Points.update (h : Points map byId) (hmap : ∀ l, map key ≠ some (.ready l)) :
    Points (Function.update map key s) byId := by
  intro id l hid
  obtain ⟨hl, k, hk⟩ := h id l hid
  have hne : k ≠ key := fun heq => hmap l (heq ▸ hk)
  exact ⟨hl, k, by rw [update_of_ne hne, hk]⟩

theorem Points.remove (h : Points map byId) {l : LaidOutGraph N E} (hl : map key = some (.ready l)) :
    Points (Function.update map key none) (Function.update byId l.layoutId none) := by
  intro id l' hid
  by_cases hne : id = l.layoutId
  · rw [hne, update_self] at hid
    cases hid
  · rw [update_of_ne hne] at hid
    obtain ⟨hl', k, hk⟩ := h id l' hid
    have hkey : k ≠ key := by
      rintro rfl
      rw [hl] at hk
      cases hk
      exact hne hl'.symm
    exact ⟨hl', k, by rw [update_of_ne hkey, hk]⟩

theorem Points.insert (h : Points map byId) {laid : LaidOutGraph N E}
    (hsame : ∀ l, map key = some (.ready l) → l.layoutId = laid.layoutId) :
    Points (Function.update map key (some (.ready laid))) (Function.update byId laid.layoutId (some laid)) := by
  intro id l hid
  by_cases hne : id = laid.layoutId
  · subst hne
    rw [update_self] at hid
    cases hid
    exact ⟨rfl, key, update_self ..⟩
  · rw [update_of_ne hne] at hid
    obtain ⟨hl, k, hk⟩ := h id l hid
    have hkey : k ≠ key := by
      rintro rfl
      exact hne (hl.symm.trans (hsame l hk))
    exact ⟨hl, k, by rw [update_of_ne hkey, hk]⟩

theorem Kept.evictOldest (hpoints : Points map byId) (hlists : Lists map lru) : (evictOldest map byId lru).Kept := by
  induction lru generalizing map byId with
  | nil => exact ⟨hpoints, hlists, Nat.zero_le _⟩
  | cons key lru ih =>
    unfold CacheInner.evictOldest
    split
    · obtain ⟨l, hl⟩ := (hlists.2 key).1 mem_cons_self
      rw [hl]
      have hrest : withoutKey (key :: lru) key = lru := by
        have hnot := (nodup_cons.1 hlists.1).1
        rw [withoutKey, filter_cons_of_neg (by simp)]
        exact filter_eq_self.2 fun k hk => decide_eq_true fun heq => hnot (heq ▸ hk)
      have hremoved : Lists (Function.update map key none) (withoutKey (key :: lru) key) :=
        hlists.remove fun l h => by cases h
      rw [hrest] at hremoved
      exact ih (hpoints.remove hl) hremoved
    · rename_i hfew
      exact ⟨hpoints, hlists, Nat.le_of_not_lt hfew⟩

end Parts

/-! #### Operations -/

variable {c : CacheInner N E}

theorem Kept.getFresh (h : c.Kept) (key : CacheKey) (fingerprint : ℕ × ℕ) : (c.getFresh key fingerprint).2.Kept := by
  unfold CacheInner.getFresh
  split
  · exact h
  · rename_i l hl
    split
    · -- the key is in the list already, and comes last now
      have hlists : Lists (Function.update c.map key (some (.ready l))) (withoutKey c.lru key ++ [key]) := h.lists.use
      have hmap : Function.update c.map key (some (.ready l)) = c.map := by rw [← hl, update_eq_self]
      rw [hmap] at hlists
      refine ⟨h.points, hlists, ?_⟩
      have hmem : key ∈ c.lru := (h.lists.2 key).2 ⟨l, hl⟩
      have hlt : (withoutKey c.lru key).length < c.lru.length :=
        length_filter_lt_length_iff_exists.2 ⟨key, hmem, by simp⟩
      have hbounded := h.bounded
      dsimp only
      rw [length_append, length_singleton]
      omega
    · refine ⟨h.points.remove hl, h.lists.remove (fun l hl' => by cases hl'), ?_⟩
      exact (length_withoutKey_le c.lru key).trans h.bounded
  · exact h

theorem Kept.beginCompute (h : c.Kept) {key : CacheKey} (hnot : ∀ l, c.map key ≠ some (.ready l)) :
    (c.beginCompute key).2.Kept := by
  unfold CacheInner.beginCompute
  split
  · exact h
  · exact ⟨h.points.update hnot, h.lists.update hnot (by rintro l ⟨⟩), h.bounded⟩

theorem Kept.insertReady (h : c.Kept) {key : CacheKey} {laid : LaidOutGraph N E}
    (hsame : ∀ l, c.map key = some (.ready l) → l.layoutId = laid.layoutId) : (c.insertReady key laid).Kept :=
  Kept.evictOldest (h.points.insert hsame) h.lists.use

theorem Kept.abortCompute (h : c.Kept) (key : CacheKey) : (c.abortCompute key).Kept := by
  unfold CacheInner.abortCompute
  split
  · rename_i hcomputing
    have hnot : ∀ l, c.map key ≠ some (.ready l) := fun l hl => by cases hcomputing.symm.trans hl
    exact ⟨h.points.update hnot, h.lists.update hnot (by rintro l ⟨⟩), h.bounded⟩
  · exact h

/-! #### What is in the cache afterwards -/

theorem evictOldest_le (map : CacheKey → Option (CacheState N E)) (byId : Text → Option (LaidOutGraph N E))
    (lru : List CacheKey) : (∀ key s, (evictOldest map byId lru).map key = some s → map key = some s) ∧
      ∀ id l, (evictOldest map byId lru).byId id = some l → byId id = some l := by
  have hupdate : ∀ {A B : Type} [DecidableEq A] {f : A → Option B} {a a' : A} {b : B},
      Function.update f a none a' = some b → f a' = some b := by
    intro A B _ f a a' b h
    by_cases ha : a' = a
    · rw [ha, update_self] at h
      cases h
    · rwa [update_of_ne ha] at h
  induction lru generalizing map byId with
  | nil => exact ⟨fun _ _ h => h, fun _ _ h => h⟩
  | cons key lru ih =>
    unfold evictOldest
    split
    · split
      · rename_i l hl
        obtain ⟨hmap, hbyId⟩ := ih (Function.update map key none) (Function.update byId l.layoutId none)
        exact ⟨fun k s h => hupdate (hmap k s h), fun id l h => hupdate (hbyId id l h)⟩
      · obtain ⟨hmap, hbyId⟩ := ih (Function.update map key none) byId
        exact ⟨fun k s h => hupdate (hmap k s h), hbyId⟩
    · exact ⟨fun _ _ h => h, fun _ _ h => h⟩

structure Le (c' c : CacheInner N E) : Prop where
  ready : ∀ key l, c'.map key = some (.ready l) → c.map key = some (.ready l)
  byId : ∀ id l, c'.byId id = some l → c.byId id = some l

theorem update_ready {map : CacheKey → Option (CacheState N E)} {key k : CacheKey} {s : Option (CacheState N E)}
    {l : LaidOutGraph N E} (hs : ∀ l, s ≠ some (.ready l)) (h : Function.update map key s k = some (.ready l)) :
    map k = some (.ready l) := by
  by_cases hk : k = key
  · rw [hk, update_self] at h
    exact absurd h (hs l)
  · rwa [update_of_ne hk] at h

theorem Le.getFresh (key : CacheKey) (fingerprint : ℕ × ℕ) : (c.getFresh key fingerprint).2.Le c := by
  unfold CacheInner.getFresh
  split
  · exact ⟨fun _ _ h => h, fun _ _ h => h⟩
  · rename_i l hl
    split
    · exact ⟨fun _ _ h => h, fun _ _ h => h⟩
    · refine ⟨fun k l' h => update_ready (fun l h => by cases h) h, fun id l' h => ?_⟩
      by_cases hid : id = l.layoutId
      · rw [hid] at h
        dsimp only at h
        rw [update_self] at h
        cases h
      · exact (update_of_ne hid none c.byId).symm.trans h
  · exact ⟨fun _ _ h => h, fun _ _ h => h⟩

theorem getFresh_ready {key : CacheKey} {fingerprint : ℕ × ℕ} {l : LaidOutGraph N E} {c' : CacheInner N E}
    (h : c.getFresh key fingerprint = (some (.ready l), c')) : c.map key = some (.ready l) ∧ l.fingerprint = fingerprint := by
  unfold CacheInner.getFresh at h
  split at h
  · cases h
  · rename_i l' hl
    split at h
    · rename_i hfingerprint
      cases h
      exact ⟨hl, hfingerprint⟩
    · cases h
  · cases h

theorem Le.beginCompute (key : CacheKey) : (c.beginCompute key).2.Le c := by
  unfold CacheInner.beginCompute
  split
  · exact ⟨fun _ _ h => h, fun _ _ h => h⟩
  · exact ⟨fun k l h => update_ready (fun l h => by cases h) h, fun _ _ h => h⟩

theorem Le.abortCompute (key : CacheKey) : (c.abortCompute key).Le c := by
  unfold CacheInner.abortCompute
  split
  · exact ⟨fun k l h => update_ready (fun l h => by cases h) h, fun _ _ h => h⟩
  · exact ⟨fun _ _ h => h, fun _ _ h => h⟩

theorem insertReady_le (key : CacheKey) (laid : LaidOutGraph N E) :
    (∀ k l, (c.insertReady key laid).map k = some (.ready l) → (k = key ∧ l = laid) ∨ (k ≠ key ∧ c.map k = some (.ready l))) ∧
      ∀ id l, (c.insertReady key laid).byId id = some l →
        (id = laid.layoutId ∧ l = laid) ∨ (id ≠ laid.layoutId ∧ c.byId id = some l) := by
  obtain ⟨hmap, hbyId⟩ := evictOldest_le (Function.update c.map key (some (.ready laid)))
    (Function.update c.byId laid.layoutId (some laid)) (withoutKey c.lru key ++ [key])
  constructor
  · intro k l h
    have hk := hmap k _ h
    by_cases heq : k = key
    · rw [heq, update_self] at hk
      cases hk
      exact .inl ⟨heq, rfl⟩
    · rw [update_of_ne heq] at hk
      exact .inr ⟨heq, hk⟩
  · intro id l h
    have hid := hbyId id l h
    by_cases heq : id = laid.layoutId
    · rw [heq, update_self] at hid
      exact .inl ⟨heq, (Option.some.inj hid).symm⟩
    · rw [update_of_ne heq] at hid
      exact .inr ⟨heq, hid⟩

end CacheInner

/-! ### Cursors -/

/-- The text before the last `:`, and the text after it. -/
def rsplitColon (s : Text) : Option (Text × Text) :=
  match s.reverse.dropWhile (· ≠ ':') with
  | [] => none
  | _ :: before => some (before.reverse, (s.reverse.takeWhile (· ≠ ':')).reverse)

def withoutPlus : Text → Text
  | '+' :: rest => rest
  | s => s

def parseUsize (s : Text) : Option ℕ :=
  let digits := withoutPlus s
  if digits ≠ [] ∧ digits.all Char.isDigit = true ∧ Nat.ofDigitChars 10 digits 0 < 2 ^ 64 then
    some (Nat.ofDigitChars 10 digits 0)
  else none

def parseCursor (cursor : Text) : Option (Text × Char × ℕ) := do
  let (rest, offset) ← rsplitColon cursor
  let offset ← parseUsize offset
  let (id, kinds) ← rsplitColon rest
  let kind ← kinds.head?.filter fun c => c = 'n' ∨ c = 'e'
  if id = [] then none else some (id, kind, offset)

/-- `"{layout_id}:{kind}:{offset}"` -/
def cursorText (layoutId : Text) (kind : Char) (offset : ℕ) : Text :=
  layoutId ++ ':' :: kind :: ':' :: Nat.toDigits 10 offset

theorem rsplitColon_append (before : Text) {after : Text} (h : ':' ∉ after) :
    rsplitColon (before ++ ':' :: after) = some (before, after) := by
  have hall : ∀ c ∈ after.reverse, (decide (c ≠ ':')) = true := by
    intro c hc
    refine decide_eq_true fun heq => h ?_
    rw [← heq]
    exact mem_reverse.1 hc
  have hreverse : (before ++ ':' :: after).reverse = after.reverse ++ ':' :: before.reverse := by simp
  unfold rsplitColon
  rw [hreverse, dropWhile_append_of_pos hall, takeWhile_append_of_pos hall,
    dropWhile_cons_of_neg (by simp), takeWhile_cons_of_neg (by simp)]
  simp

theorem colon_notMem_toDigits (n : ℕ) : ':' ∉ Nat.toDigits 10 n := fun h =>
  absurd (Nat.isDigit_of_mem_toDigits (by decide) (by decide) h) (by decide)

theorem eq_of_parseUsize_toDigits {n m : ℕ} (h : parseUsize (Nat.toDigits 10 n) = some m) : m = n := by
  have hplus : withoutPlus (Nat.toDigits 10 n) = Nat.toDigits 10 n := by
    unfold withoutPlus
    split
    · rename_i rest heq
      have hmem : '+' ∈ Nat.toDigits 10 n := by
        rw [heq]
        exact mem_cons_self
      exact absurd (Nat.isDigit_of_mem_toDigits (by decide) (by decide) hmem) (by decide)
    · rfl
  unfold parseUsize at h
  dsimp only at h
  rw [hplus, Nat.ofDigitChars_ten_toDigits] at h
  split at h
  · exact (Option.some.inj h).symm
  · cases h

theorem eq_of_parseCursor {layoutId : Text} {kind : Char} {offset : ℕ} {c : Text × Char × ℕ} (hkind : kind ≠ ':')
    (h : parseCursor (cursorText layoutId kind offset) = some c) : c = (layoutId, kind, offset) := by
  have hlast : rsplitColon (cursorText layoutId kind offset) =
      some (layoutId ++ ':' :: [kind], Nat.toDigits 10 offset) := by
    rw [← rsplitColon_append _ (colon_notMem_toDigits offset)]
    simp [cursorText]
  have hmiddle : rsplitColon (layoutId ++ ':' :: [kind]) = some (layoutId, [kind]) :=
    rsplitColon_append layoutId (by simpa using hkind.symm)
  unfold parseCursor at h
  obtain ⟨⟨rest, digits⟩, hrest, h₁⟩ := Option.bind_eq_some_iff.1 h
  rw [hlast] at hrest
  cases hrest
  obtain ⟨n, hn, h₂⟩ := Option.bind_eq_some_iff.1 h₁
  obtain ⟨⟨id, kinds⟩, hkinds, h₃⟩ := Option.bind_eq_some_iff.1 h₂
  rw [hmiddle] at hkinds
  cases hkinds
  obtain ⟨k, hk, h₄⟩ := Option.bind_eq_some_iff.1 h₃
  have hkind' : k = kind := (Option.some.inj (Option.filter_eq_some_iff.1 hk).1).symm
  split at h₄
  · cases h₄
  · rw [← Option.some.inj h₄, hkind', eq_of_parseUsize_toDigits hn]

/-! ### Pages -/

structure GraphExportPage (N E : Type) where
  layoutStatus : Text
  layoutId : Text
  totalNodes : ℕ
  totalEdges : ℕ
  nodes : List N
  edges : List E
  nextCursor : Option Text

def saturatingAdd (a b : ℕ) : ℕ := min (a + b) (2 ^ 64 - 1)

/-- Where the slice that begins at `start` ends, of so many items. -/
def sliceEnd (length offset pageSize : ℕ) : ℕ := max (min (saturatingAdd offset pageSize) length) (min offset length)

def slice {A : Type} (l : List A) (start stop : ℕ) : List A := (l.take stop).drop start

def slicePage (g : LaidOutGraph N E) (kind : Char) (offset pageSize : ℕ) : GraphExportPage N E :=
  let page : GraphExportPage N E := ⟨"ready".toList, g.layoutId, g.nodes.length, g.edges.length, [], [], none⟩
  if kind = 'n' then
    let stop := sliceEnd g.nodes.length offset pageSize
    { page with
      nodes := slice g.nodes (min offset g.nodes.length) stop
      nextCursor :=
        if stop < g.nodes.length then some (cursorText g.layoutId 'n' stop)
        else if g.edges ≠ [] then some (cursorText g.layoutId 'e' 0)
        else none }
  else
    let stop := sliceEnd g.edges.length offset pageSize
    { page with
      edges := slice g.edges (min offset g.edges.length) stop
      nextCursor := if stop < g.edges.length then some (cursorText g.layoutId 'e' stop) else none }

theorem mem_of_mem_slice {A : Type} {l : List A} {start stop : ℕ} {a : A} (h : a ∈ slice l start stop) : a ∈ l :=
  mem_of_mem_take (mem_of_mem_drop h)

theorem mem_of_mem_slicePage (g : LaidOutGraph N E) (kind : Char) (offset pageSize : ℕ) :
    (∀ n ∈ (slicePage g kind offset pageSize).nodes, n ∈ g.nodes) ∧
      ∀ e ∈ (slicePage g kind offset pageSize).edges, e ∈ g.edges := by
  unfold slicePage
  dsimp only
  split
  · exact ⟨fun n hn => mem_of_mem_slice hn, fun e he => absurd he not_mem_nil⟩
  · exact ⟨fun n hn => absurd hn not_mem_nil, fun e he => mem_of_mem_slice he⟩

theorem slicePage_congr {g g' : LaidOutGraph N E} (hid : g.layoutId = g'.layoutId) (hnodes : g.nodes = g'.nodes)
    (hedges : g.edges = g'.edges) (kind : Char) (offset pageSize : ℕ) :
    slicePage g kind offset pageSize = slicePage g' kind offset pageSize := by
  unfold slicePage
  rw [hid, hnodes, hedges]

def GraphExportPage.items (p : GraphExportPage N E) : List (N ⊕ E) := p.nodes.map .inl ++ p.edges.map .inr

def LaidOutGraph.items (g : LaidOutGraph N E) : List (N ⊕ E) := g.nodes.map .inl ++ g.edges.map .inr

/-- **What was shown**, up to a cursor. -/
def Follows (g : LaidOutGraph N E) (shown : List (N ⊕ E)) : Option Text → Prop
  | none => shown = g.items
  | some cursor =>
    (∃ k ≤ g.nodes.length, cursor = cursorText g.layoutId 'n' k ∧ shown = (g.nodes.take k).map .inl) ∨
    ∃ k ≤ g.edges.length, cursor = cursorText g.layoutId 'e' k ∧ shown = g.nodes.map .inl ++ (g.edges.take k).map .inr

theorem sliceEnd_bounds {length offset : ℕ} (pageSize : ℕ) (h : offset ≤ length) :
    offset ≤ sliceEnd length offset pageSize ∧ sliceEnd length offset pageSize ≤ length := by
  unfold sliceEnd
  omega

theorem take_append_slice {A : Type} (l : List A) {start stop : ℕ} (h : start ≤ stop) :
    l.take start ++ slice l start stop = l.take stop := by
  have htake : l.take start = (l.take stop).take start := by rw [take_take, Nat.min_eq_left h]
  rw [slice, htake, take_append_drop]

theorem Follows.nodes (g : LaidOutGraph N E) {k : ℕ} (hk : k ≤ g.nodes.length) (pageSize : ℕ) :
    Follows g ((g.nodes.take k).map .inl ++ (slicePage g 'n' k pageSize).items) (slicePage g 'n' k pageSize).nextCursor := by
  obtain ⟨hle, hlength⟩ := sliceEnd_bounds pageSize hk
  have hshown : (g.nodes.take k).map Sum.inl ++ (slicePage g 'n' k pageSize).items =
      ((g.nodes.take (sliceEnd g.nodes.length k pageSize)).map .inl : List (N ⊕ E)) := by
    rw [← take_append_slice g.nodes hle]
    simp [GraphExportPage.items, slicePage, Nat.min_eq_left hk]
  rw [hshown]
  have hnext : (slicePage g 'n' k pageSize).nextCursor = if sliceEnd g.nodes.length k pageSize < g.nodes.length then
        some (cursorText g.layoutId 'n' (sliceEnd g.nodes.length k pageSize))
      else if g.edges ≠ [] then some (cursorText g.layoutId 'e' 0) else none := rfl
  rw [hnext]
  split
  · exact .inl ⟨_, hlength, rfl, rfl⟩
  · rename_i hend
    rw [take_of_length_le (Nat.le_of_not_lt hend)]
    split
    · exact .inr ⟨0, Nat.zero_le _, rfl, by simp⟩
    · rename_i hedges
      rw [not_not] at hedges
      simp [Follows, LaidOutGraph.items, hedges]

theorem Follows.edges (g : LaidOutGraph N E) {k : ℕ} (hk : k ≤ g.edges.length) (pageSize : ℕ) :
    Follows g (g.nodes.map .inl ++ (g.edges.take k).map .inr ++ (slicePage g 'e' k pageSize).items)
      (slicePage g 'e' k pageSize).nextCursor := by
  obtain ⟨hle, hlength⟩ := sliceEnd_bounds pageSize hk
  have hshown : g.nodes.map .inl ++ (g.edges.take k).map .inr ++ (slicePage g 'e' k pageSize).items =
      (g.nodes.map .inl ++ (g.edges.take (sliceEnd g.edges.length k pageSize)).map .inr : List (N ⊕ E)) := by
    rw [← take_append_slice g.edges hle]
    simp [GraphExportPage.items, slicePage, Nat.min_eq_left hk]
  rw [hshown]
  have hnext : (slicePage g 'e' k pageSize).nextCursor = if sliceEnd g.edges.length k pageSize < g.edges.length then
        some (cursorText g.layoutId 'e' (sliceEnd g.edges.length k pageSize)) else none := rfl
  rw [hnext]
  split
  · exact .inr ⟨_, hlength, rfl, rfl⟩
  · rename_i hend
    rw [take_of_length_le (Nat.le_of_not_lt hend)]
    rfl

theorem Follows.first (g : LaidOutGraph N E) (pageSize : ℕ) :
    Follows g (slicePage g 'n' 0 pageSize).items (slicePage g 'n' 0 pageSize).nextCursor := by
  simpa using Follows.nodes g (Nat.zero_le _) pageSize

theorem Follows.next {g : LaidOutGraph N E} {shown : List (N ⊕ E)} {cursor id : Text} {kind : Char} {offset : ℕ}
    (h : Follows g shown (some cursor)) (hparse : parseCursor cursor = some (id, kind, offset)) (pageSize : ℕ) :
    id = g.layoutId ∧
      Follows g (shown ++ (slicePage g kind offset pageSize).items) (slicePage g kind offset pageSize).nextCursor := by
  rcases h with ⟨k, hk, rfl, rfl⟩ | ⟨k, hk, rfl, rfl⟩
  · obtain ⟨rfl, rfl, rfl⟩ := by simpa using eq_of_parseCursor (by decide) hparse
    exact ⟨rfl, Follows.nodes g hk pageSize⟩
  · obtain ⟨rfl, rfl, rfl⟩ := by simpa using eq_of_parseCursor (by decide) hparse
    exact ⟨rfl, Follows.edges g hk pageSize⟩

end GraphExport
