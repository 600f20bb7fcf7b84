/-
**Memories and what a recall asks of them.**

The rows of `memory_nodes` are versions of memories: each write of a memory appends a row, and a
reader numbers the rows of an id from the newest on and keeps number one.

Main results:

* `Recall.mem_latest` — the rows that a reader keeps are the first rows of their ids;
* `Recall.MemoryGraph.of` — every list of rows can be numbered.
-/

import Pensieve.FilterExpr
import Pensieve.SearchGrammar

namespace Recall

open List
open Discover (Text isWhitespace)
open Exec (parsePattern)
open Like (likeMatches)

/-! ### Rows -/

inductive MemoryType
  | fact
  | decision
  | preference
  | learning
  | summary
  | procedure
  | entity
  deriving DecidableEq

def MemoryType.text : MemoryType → Text
  | .fact => "fact".toList
  | .decision => "decision".toList
  | .preference => "preference".toList
  | .learning => "learning".toList
  | .summary => "summary".toList
  | .procedure => "procedure".toList
  | .entity => "entity".toList

def trim (s : Text) : Text := ((s.dropWhile isWhitespace).reverse.dropWhile isWhitespace).reverse

def MemoryType.parse (s : Text) : MemoryType :=
  let word := (trim s).map Char.toLower
  if word = "decision".toList then .decision
  else if word = "preference".toList then .preference
  else if word = "learning".toList then .learning
  else if word = "summary".toList then .summary
  else if word = "procedure".toList then .procedure
  else if word = "entity".toList then .entity
  else .fact

inductive MemoryStatus
  | active
  | background
  | archived
  deriving DecidableEq

def MemoryStatus.text : MemoryStatus → Text
  | .active => "active".toList
  | .background => "background".toList
  | .archived => "archived".toList

/-- A row of `memory_nodes`; all its columns but the id may be null. -/
structure NodeRow where
  id : Text
  realm : Option Text
  memoryType : Option Text
  title : Option Text
  contentPreview : Option Text
  tags : Option Text
  importance : Option ℚ
  status : Option Text
  createdAt : Option Text
  updatedAt : Option Text
  validAt : Option Text
  invalidAt : Option Text
  space : Option Text
  deriving DecidableEq

/-- A row of `memory_edges`. -/
structure EdgeRow where
  src : Option Text
  dst : Option Text
  type : Option Text
  realm : Option Text
  targetNamespace : Option Text
  deriving DecidableEq

/-- `ORDER BY updated_at DESC` puts `a` before `b`, or leaves it open; nulls come first. -/
def notAfter (a b : NodeRow) : Bool :=
  match a.updatedAt, b.updatedAt with
  | none, _ => true
  | some _, none => false
  | some x, some y => y ≤ x

/-- The store as the queries of one recall find it.  `first id` is the row of the id that `row_number()` gives the
number one; which of several newest rows that is, the engine decides. -/
structure MemoryGraph where
  nodes : List NodeRow
  edges : List EdgeRow
  first : Text → Option NodeRow
  first_mem : ∀ id r, first id = some r → r ∈ nodes ∧ r.id = id
  first_newest : ∀ id r, first id = some r → ∀ r' ∈ nodes, r'.id = id → notAfter r r' = true
  first_none : ∀ id, first id = none → ∀ r ∈ nodes, r.id ≠ id

/-- `SELECT ... FROM latest WHERE __rn = 1` -/
def MemoryGraph.latest (g : MemoryGraph) : List NodeRow := (g.nodes.map (·.id)).dedup.filterMap g.first

theorem mem_latest {g : MemoryGraph} {r : NodeRow} : r ∈ g.latest ↔ g.first r.id = some r := by
  simp only [MemoryGraph.latest, mem_filterMap, mem_dedup, mem_map]
  constructor
  · rintro ⟨id, -, hid⟩
    rwa [(g.first_mem id r hid).2]
  · intro h
    exact ⟨r.id, ⟨r, (g.first_mem _ r h).1, rfl⟩, h⟩

/-! #### Numbering a list of rows -/

theorem notAfter_refl (a : NodeRow) : notAfter a a = true := by
  unfold notAfter
  cases a.updatedAt with
  | none => rfl
  | some x => simp

theorem notAfter_trans {a b c : NodeRow} (hab : notAfter a b = true) (hbc : notAfter b c = true) :
    notAfter a c = true := by
  unfold notAfter at *
  cases ha : a.updatedAt with
  | none => rfl
  | some x =>
    cases hb : b.updatedAt with
    | none => simp [ha, hb] at hab
    | some y =>
      cases hc : c.updatedAt with
      | none => simp [hb, hc] at hbc
      | some z =>
        simp only [ha, hb, hc, decide_eq_true_eq] at hab hbc ⊢
        exact le_trans hbc hab

theorem notAfter_total (a b : NodeRow) : notAfter a b = true ∨ notAfter b a = true := by
  unfold notAfter
  cases a.updatedAt with
  | none => exact .inl rfl
  | some x =>
    cases b.updatedAt with
    | none => exact .inr rfl
    | some y => simpa using le_total y x

def newest : List NodeRow → Option NodeRow
  | [] => none
  | r :: rest =>
    match newest rest with
    | none => some r
    | some s => if notAfter r s then some r else some s

theorem newest_eq_none {rows : List NodeRow} : newest rows = none ↔ rows = [] := by
  cases rows with
  | nil => simp [newest]
  | cons r rest =>
    simp only [newest, reduceCtorEq, iff_false]
    split
    · simp
    · split <;> simp

theorem newest_spec {rows : List NodeRow} {r : NodeRow} (h : newest rows = some r) :
    r ∈ rows ∧ ∀ r' ∈ rows, notAfter r r' = true := by
  induction rows generalizing r with
  | nil => simp [newest] at h
  | cons s rest ih =>
    cases hrest : newest rest with
    | none =>
      simp only [newest, hrest, Option.some.injEq] at h
      rw [newest_eq_none] at hrest
      subst h hrest
      simp [notAfter_refl]
    | some t =>
      obtain ⟨ht, hmax⟩ := ih hrest
      simp only [newest, hrest] at h
      split at h
      next hst =>
        cases h
        refine ⟨mem_cons_self, fun r' hr' => ?_⟩
        obtain rfl | hr' := mem_cons.1 hr'
        · exact notAfter_refl _
        · exact notAfter_trans hst (hmax r' hr')
      next hst =>
        cases h
        refine ⟨mem_cons_of_mem _ ht, fun r' hr' => ?_⟩
        obtain rfl | hr' := mem_cons.1 hr'
        · exact (notAfter_total r' r).resolve_left hst
        · exact hmax r' hr'

def MemoryGraph.of (nodes : List NodeRow) (edges : List EdgeRow) : MemoryGraph where
  nodes := nodes
  edges := edges
  first id := newest (nodes.filter (·.id = id))
  first_mem id r h := by simpa using (newest_spec h).1
  first_newest id r h r' hr' hid := (newest_spec h).2 r' (by simp [hr', hid])
  first_none id h r hr hid := by
    have : r ∈ nodes.filter (·.id = id) := by simp [hr, hid]
    rw [newest_eq_none.1 h] at this
    simp at this

/-! ### Filters -/

structure RecallFilter where
  realms : List Text
  memoryType : Option MemoryType
  /-- Empty is every status but `archived`, where a query asks for that. -/
  statuses : List MemoryStatus
  tags : List Text
  importanceMin : Option ℚ
  since : Option Text
  untilAt : Option Text
  asOf : Option Text
  includeInvalidated : Bool
  spaceAgent : Option Text
  deriving DecidableEq

/-- A condition of a `WHERE` clause, as the rows of which it is true. -/
abbrev Condition := NodeRow → Bool

/-- `tags LIKE '%needle%'`, where the needle is the tag without its wildcards. -/
def tagCondition (tag : Text) : Condition := fun r =>
  r.tags.any fun tags =>
    likeMatches (parsePattern (· = ·) '\\' ('%' :: tag.filter (fun c => c ≠ '%' && c ≠ '_') ++ ['%'])) tags

def statusConditions (filter : RecallFilter) (defaultNonArchived : Bool) : List Condition :=
  if filter.statuses.isEmpty then
    if defaultNonArchived then [fun r => r.status.any (· ≠ MemoryStatus.archived.text)] else []
  else [fun r => r.status.any fun s => filter.statuses.any (·.text = s)]

def realmConditions (filter : RecallFilter) : List Condition :=
  if filter.realms.isEmpty then [] else [fun r => r.realm.any fun realm => filter.realms.contains realm]

/-- Without `as_of` a memory is dropped as soon as it is invalidated, with it both ends of its interval count. -/
def validityConditions (filter : RecallFilter) : List Condition :=
  if filter.includeInvalidated then []
  else
    match filter.asOf with
    | some t => [fun r => r.invalidAt.all (t < ·), fun r => r.validAt.all (· ≤ t)]
    | none => [fun r => r.invalidAt.isNone]

def filterConditions (filter : RecallFilter) (defaultNonArchived : Bool) : List Condition :=
  statusConditions filter defaultNonArchived ++ realmConditions filter ++
    (filter.memoryType.toList.map fun (t : MemoryType) (r : NodeRow) => r.memoryType.any (· = t.text)) ++
    (filter.importanceMin.toList.map fun (min : ℚ) (r : NodeRow) => r.importance.any (min ≤ ·)) ++
    (filter.since.toList.map fun (t : Text) (r : NodeRow) => r.createdAt.any (t ≤ ·)) ++
    (filter.untilAt.toList.map fun (t : Text) (r : NodeRow) => r.createdAt.any (· ≤ t)) ++
    filter.tags.map tagCondition ++ validityConditions filter

def spaceCondition (filter : RecallFilter) : Option Condition :=
  filter.spaceAgent.map fun agent r =>
    r.space.all fun space => space = "public".toList || space = "private:".toList ++ agent

def satisfies (filter : RecallFilter) (r : NodeRow) : Bool :=
  (filterConditions filter true ++ (spaceCondition filter).toList).all (· r)

/-! ### Realms of a token -/

/-- The realms that a token is bound to; `none` is unrestricted. -/
abbrev RealmScope := Option (List Text)

def RealmScope.isRestricted (scope : RealmScope) : Bool := scope.isSome

inductive EffectiveRealms
  | unrestricted (realms : List Text)
  | scoped (realms : List Text)
  | empty
  deriving DecidableEq

def intersectRealms (scope : RealmScope) (requested : List Text) : EffectiveRealms :=
  match scope with
  | none => .unrestricted requested
  | some allowed =>
    let eff := if requested.isEmpty then allowed else requested.filter fun r => allowed.any (· = r)
    if eff.isEmpty then .empty else .scoped eff

end Recall
