/-
**Hybrid recall with graph expansion.**

`retrieve` collects candidates in two legs, one by the distance of embeddings and one by the words
of the query, and then follows the edges of the memory graph from the best of them for up to two
hops.
-/

import Pensieve.MemoryFilter

namespace Recall

open List
open Discover (Text)

def candK : ℕ := 50

def seedN : ℕ := 10

def expandCap : ℕ := 200

def maxHops : ℕ := 2

/-! ### Requests and candidates -/

structure RetrieveRequest where
  realms : List Text
  memoryType : Option Text
  tags : List Text
  importanceMin : Option ℚ
  asOf : Option Text
  includeInvalidated : Bool
  limit : Option ℕ
  expandHops : Option ℕ
  spaceAgent : Option Text
  deriving DecidableEq

structure MemorySettings where
  defaultLimit : ℕ
  defaultExpandHops : ℕ
  deriving DecidableEq

structure Via where
  seed : Text
  type : Text
  depth : ℕ
  deriving DecidableEq

structure Cand where
  id : Text
  memoryType : Text
  title : Option Text
  contentPreview : Text
  importance : ℚ
  realm : Text
  createdAt : Option Text
  validAt : Option Text
  invalidAt : Option Text
  vecRank : Option ℕ
  kwRank : Option ℕ
  via : Option Via
  deriving DecidableEq

def emptyCand (id : Text) : Cand where
  id := id
  memoryType := []
  title := none
  contentPreview := []
  importance := 0
  realm := []
  createdAt := none
  validAt := none
  invalidAt := none
  vecRank := none
  kwRank := none
  via := none

def graphCand (id seed etype : Text) (depth : ℕ) : Cand :=
  { emptyCand id with via := some ⟨seed, etype, depth⟩ }

def hydrate (c : Cand) (row : NodeRow) : Cand :=
  { c with
    memoryType := row.memoryType.getD []
    title := row.title
    contentPreview := row.contentPreview.getD []
    importance := row.importance.getD 0
    realm := row.realm.getD []
    createdAt := row.createdAt
    validAt := row.validAt
    invalidAt := row.invalidAt }

def Cand.fromRow (row : NodeRow) : Cand := hydrate (emptyCand row.id) row

/-- The better of the two ranks, and `usize::MAX` without one. -/
def bestRank (c : Cand) : ℕ := (c.vecRank.toList ++ c.kwRank.toList).min?.getD (2 ^ 64 - 1)

structure RetrievedMemory where
  id : Text
  memoryType : Text
  title : Option Text
  contentPreview : Text
  importance : ℚ
  realm : Text
  validAt : Option Text
  invalidAt : Option Text
  via : Option Via
  deriving DecidableEq

structure LinkedResource where
  nodeId : Text
  targetNamespace : Option Text
  edgeType : Text
  depth : ℕ
  deriving DecidableEq

structure RetrieveResult where
  memories : List RetrievedMemory
  linked : List LinkedResource
  deriving DecidableEq

/-! ### What a recall is told -/

inductive Query
  | vector
  | keyword
  | neighbors (depth : ℕ)
  | nodes (depth : ℕ)
  deriving DecidableEq

structure Answers where
  ready : Bool
  annIds : Option (List Text)
  bm25Ids : Option (List Text)
  near : NodeRow → Bool
  hasTokens : Bool
  kwScore : NodeRow → ℕ
  answered : Query → Bool
  /-- `ORDER BY score DESC` in a leg. -/
  sortRows : Query → List NodeRow → List NodeRow
  sortRows_perm : ∀ q l, (sortRows q l).Perm l
  scanEdges : ℕ → List EdgeRow → List EdgeRow
  scanEdges_perm : ∀ d l, (scanEdges d l).Perm l
  shuffle : List Cand → List Cand
  shuffle_perm : ∀ l, (shuffle l).Perm l
  rank : List Cand → List Cand
  rank_subset : ∀ l, rank l ⊆ l

def Answers.rows {R : Type} (a : Answers) (q : Query) (rows : List R) : List R :=
  if a.answered q then rows else []

/-! ### Queries -/

def MemoryGraph.matching (g : MemoryGraph) (filter : RecallFilter) (extra : NodeRow → Bool) : List NodeRow :=
  g.latest.filter fun r => satisfies filter r && extra r

def recallSql (g : MemoryGraph) (a : Answers) (filter : RecallFilter) (limit : ℕ) : List NodeRow :=
  (a.sortRows .vector (g.matching filter a.near)).take limit

def recallSqlForIds (g : MemoryGraph) (a : Answers) (filter : RecallFilter) (limit : ℕ) (ids : List Text) :
    List NodeRow :=
  (a.sortRows .vector (g.matching filter fun r => ids.contains r.id)).take limit

def keywordRecallSql (g : MemoryGraph) (a : Answers) (filter : RecallFilter) (limit : ℕ) : List NodeRow :=
  (a.sortRows .keyword (g.matching filter fun r => 0 < a.kwScore r)).take limit

def keywordRecallSqlForIds (g : MemoryGraph) (a : Answers) (filter : RecallFilter) (limit : ℕ) (ids : List Text) :
    List NodeRow :=
  (a.sortRows .keyword (g.matching filter fun r => ids.contains r.id)).take limit

def permitted (realms : List Text) (e : EdgeRow) : Bool :=
  realms.isEmpty || e.realm.any fun realm => realms.contains realm

def neighborsSql (g : MemoryGraph) (a : Answers) (depth : ℕ) (seeds realms : List Text) : List EdgeRow :=
  (a.scanEdges depth (g.edges.filter fun e =>
    (e.src.any (fun s => seeds.contains s) || e.dst.any fun d => seeds.contains d) && permitted realms e)).take
      expandCap

def nodesByIdSql (g : MemoryGraph) (a : Answers) (depth : ℕ) (ids : List Text) : List NodeRow :=
  a.sortRows (.nodes depth) (g.latest.filter fun r => ids.contains r.id && r.invalidAt.isNone)

/-! ### Candidate maps -/

def holds (cands : List Cand) (id : Text) : Bool := cands.any (·.id = id)

def remove (cands : List Cand) (id : Text) : List Cand := cands.filter (·.id ≠ id)

/-- `get_mut` -/
def update (cands : List Cand) (id : Text) (f : Cand → Cand) : List Cand :=
  cands.map fun c => if c.id = id then f c else c

def putVector (cands : List Cand) (entry : NodeRow × ℕ) : List Cand :=
  if holds cands entry.1.id then cands else cands ++ [{ Cand.fromRow entry.1 with vecRank := some entry.2 }]

def putKeyword (cands : List Cand) (entry : NodeRow × ℕ) : List Cand :=
  if holds cands entry.1.id then update cands entry.1.id fun c => { c with kwRank := some entry.2 }
  else cands ++ [{ Cand.fromRow entry.1 with kwRank := some entry.2 }]

def candidates (g : MemoryGraph) (a : Answers) (filter : RecallFilter) : List Cand :=
  let vecRows := a.rows .vector <| match a.annIds with
    | some ids => recallSqlForIds g a filter candK ids
    | none => recallSql g a filter candK
  let kwRows :=
    if a.hasTokens then
      a.rows .keyword <| match a.bm25Ids with
        | some ids => keywordRecallSqlForIds g a filter candK ids
        | none => keywordRecallSql g a filter candK
    else []
  kwRows.zipIdx.foldl putKeyword (vecRows.zipIdx.foldl putVector [])

/-! ### Graph expansion -/

/-- The state of the loop over the hops; `next` are the memories that the last hop came upon. -/
structure Hop where
  cands : List Cand
  linked : List LinkedResource
  seen : List Text
  next : List Text
  deriving DecidableEq

def isMemory (id : Text) : Bool := "memory:".toList.isPrefixOf id

def endpoints (frontier : List Text) (src dst : Text) : Option (Text × Text) :=
  if frontier.contains src then some (src, dst)
  else if frontier.contains dst then some (dst, src)
  else none

def takeEdge (restricted : Bool) (depth : ℕ) (frontier : List Text) (h : Hop) (edge : EdgeRow) : Hop :=
  match endpoints frontier (edge.src.getD []) (edge.dst.getD []) with
  | none => h
  | some (seed, far) =>
    if far.isEmpty then h
    else if isMemory far then
      if !holds h.cands far && !h.seen.contains far then
        { h with
          cands := h.cands ++ [graphCand far seed (edge.type.getD []) depth]
          seen := far :: h.seen
          next := h.next ++ [far] }
      else h
    else if restricted then h
    else { h with linked := h.linked ++ [⟨far, edge.targetNamespace, edge.type.getD [], depth⟩] }

def takeRow (restricted : Bool) (realms : List Text) (cands : List Cand) (row : NodeRow) : List Cand :=
  if restricted && !realms.any (· = row.realm.getD []) then remove cands row.id
  else update cands row.id fun c => hydrate c row

def materialize (restricted : Bool) (realms : List Text) (rows : List NodeRow) (new : List Text)
    (cands : List Cand) : List Cand :=
  let cands := rows.foldl (takeRow restricted realms) cands
  if restricted then new.foldl (fun cs id => if rows.any (·.id = id) then cs else remove cs id) cands
  else cands

section Expansion

variable (g : MemoryGraph) (a : Answers) (restricted : Bool) (realms : List Text) (limit : ℕ)

/-- One hop from the frontier `h.next`. -/
def hop (depth : ℕ) (h : Hop) : Hop :=
  let edges := a.rows (.neighbors depth) (neighborsSql g a depth h.next realms)
  let h' := edges.foldl (takeEdge restricted depth h.next) { h with next := [] }
  if h'.next.isEmpty then h'
  else
    { h' with
      cands := materialize restricted realms (a.rows (.nodes depth) (nodesByIdSql g a depth h'.next)) h'.next h'.cands }

def tooWide (h : Hop) : Bool := decide (candK * 4 < h.cands.length) || decide (limit * 20 < h.linked.length)

/-- The hops from `depth` on. -/
def expandFrom : ℕ → ℕ → Hop → Hop
  | 0, _, h => h
  | k + 1, depth, h =>
    if h.next.isEmpty then h
    else
      let h' := hop g a restricted realms depth h
      if tooWide limit h' then h' else expandFrom k (depth + 1) h'

def seeds (cands : List Cand) : List Text :=
  (((a.shuffle cands).insertionSort fun c d => bestRank c ≤ bestRank d).take seedN).map (·.id)

def graphExpand (cands : List Cand) (hops : ℕ) : Hop :=
  expandFrom g a restricted realms limit hops 1 ⟨cands, [], seeds a cands, seeds a cands⟩

end Expansion

/-! ### Recall -/

def finalize (c : Cand) : RetrievedMemory :=
  ⟨c.id, c.memoryType, c.title, c.contentPreview, c.importance, c.realm, c.validAt, c.invalidAt, c.via⟩

def recallFilter (scope : RealmScope) (req : RetrieveRequest) : Option RecallFilter :=
  let filter (realms : List Text) : RecallFilter :=
    { realms := realms
      memoryType := req.memoryType.map MemoryType.parse
      statuses := []
      tags := req.tags
      importanceMin := req.importanceMin
      since := none
      untilAt := none
      asOf := req.asOf
      includeInvalidated := req.includeInvalidated
      spaceAgent := req.spaceAgent }
  match intersectRealms scope req.realms with
  | .unrestricted realms => some (filter realms)
  | .scoped realms => some (filter realms)
  | .empty => none

def limitOf (settings : MemorySettings) (req : RetrieveRequest) : ℕ :=
  max 1 (min (req.limit.getD settings.defaultLimit) 100)

def hopsOf (settings : MemorySettings) (req : RetrieveRequest) : ℕ :=
  min (req.expandHops.getD settings.defaultExpandHops) maxHops

def compactLinked (linked : List LinkedResource) : List LinkedResource :=
  ((linked.insertionSort fun x y => x.depth ≤ y.depth).destutter fun x y => x.nodeId ≠ y.nodeId).take 50

def retrieve (g : MemoryGraph) (scope : RealmScope) (settings : MemorySettings) (req : RetrieveRequest)
    (a : Answers) : RetrieveResult :=
  if !a.ready then ⟨[], []⟩
  else
    match recallFilter scope req with
    | none => ⟨[], []⟩
    | some filter =>
      let limit := limitOf settings req
      let hops := hopsOf settings req
      let cands := candidates g a filter
      let expanded : Hop :=
        if decide (1 ≤ hops) && !cands.isEmpty then
          graphExpand g a scope.isRestricted filter.realms limit cands hops
        else ⟨cands, [], [], []⟩
      ⟨((a.rank expanded.cands).take limit).map finalize, compactLinked expanded.linked⟩

/-! ### What the expansion reaches -/

def Matches (g : MemoryGraph) (filter : RecallFilter) (id : Text) : Prop :=
  ∃ row, g.first id = some row ∧ satisfies filter row = true

def Joins (e : EdgeRow) (x y : Text) : Prop := e.src = some x ∧ e.dst = some y ∨ e.dst = some x ∧ e.src = some y

/-- A memory within `n` permitted edges of a match. -/
def Near (g : MemoryGraph) (filter : RecallFilter) : ℕ → Text → Prop
  | 0, y => Matches g filter y
  | n + 1, y =>
    Near g filter n y ∨
      isMemory y = true ∧ ∃ x, Near g filter n x ∧ ∃ e ∈ g.edges, permitted filter.realms e = true ∧ Joins e x y

/-- The expansion keeps the memory: the token is not bound to realms, or the newest row has not been invalidated
and has one of the realms. -/
def Survives (g : MemoryGraph) (restricted : Bool) (realms : List Text) (y : Text) : Prop :=
  restricted = true → ∃ row, g.first y = some row ∧ row.invalidAt = none ∧ row.realm.getD [] ∈ realms

variable {filter : RecallFilter}

theorem Near.mono {g : MemoryGraph} {y : Text} {n m : ℕ} (hnm : n ≤ m)
    (h : Near g filter n y) : Near g filter m y := by
  induction hnm with
  | refl => exact h
  | step _ ih => exact .inl ih

/-! ### Candidate maps, by their ids -/

variable {cands : List Cand}

theorem holds_iff {id : Text} : holds cands id = true ↔ id ∈ cands.map (·.id) := by
  simp [holds]

@[simp] theorem map_id_update (cands : List Cand) (id : Text) (f : Cand → Cand) (hf : ∀ c, (f c).id = c.id) :
    (update cands id f).map (·.id) = cands.map (·.id) := by
  simp only [update, map_map]
  refine map_congr_left fun c _ => ?_
  by_cases hc : c.id = id <;> simp [hc, hf]

theorem mem_map_id_remove {id x : Text} : x ∈ (remove cands id).map (·.id) ↔ x ∈ cands.map (·.id) ∧ x ≠ id := by
  simp only [remove, mem_map, mem_filter, decide_eq_true_eq]
  constructor
  · rintro ⟨c, ⟨hc, hne⟩, rfl⟩
    exact ⟨⟨c, hc, rfl⟩, hne⟩
  · rintro ⟨⟨c, hc, rfl⟩, hne⟩
    exact ⟨c, ⟨hc, hne⟩, rfl⟩

/-! ### The two legs -/

theorem mem_matching {g : MemoryGraph} {extra : NodeRow → Bool} {r : NodeRow}
    (h : r ∈ g.matching filter extra) : Matches g filter r.id := by
  simp only [MemoryGraph.matching, mem_filter, Bool.and_eq_true] at h
  exact ⟨r, mem_latest.1 h.1, h.2.1⟩

theorem mem_rows {R : Type} {a : Answers} {q : Query} {rows : List R} {r : R} (h : r ∈ a.rows q rows) : r ∈ rows := by
  unfold Answers.rows at h
  split at h
  · exact h
  · simp at h

theorem mem_leg {g : MemoryGraph} {a : Answers} {filter : RecallFilter} {q : Query} {limit : ℕ}
    {extra : NodeRow → Bool} {r : NodeRow} (h : r ∈ (a.sortRows q (g.matching filter extra)).take limit) :
    Matches g filter r.id :=
  mem_matching ((a.sortRows_perm q _).mem_iff.1 (mem_of_mem_take h))

variable {entry : NodeRow × ℕ}

theorem mem_putVector {x : Text}
    (h : x ∈ (putVector cands entry).map (·.id)) : x ∈ cands.map (·.id) ∨ x = entry.1.id := by
  unfold putVector at h
  split at h
  · exact .inl h
  · simpa [Cand.fromRow, hydrate, emptyCand] using h

theorem mem_putKeyword {x : Text}
    (h : x ∈ (putKeyword cands entry).map (·.id)) : x ∈ cands.map (·.id) ∨ x = entry.1.id := by
  unfold putKeyword at h
  split at h
  · rw [map_id_update] at h
    · exact .inl h
    · exact fun _ => rfl
  · simpa [Cand.fromRow, hydrate, emptyCand] using h

theorem mem_foldl_put {put : List Cand → NodeRow × ℕ → List Cand}
    (hput : ∀ cands entry x, x ∈ (put cands entry).map (·.id) → x ∈ cands.map (·.id) ∨ x = entry.1.id)
    {rows : List (NodeRow × ℕ)} {x : Text} (h : x ∈ (rows.foldl put cands).map (·.id)) :
    x ∈ cands.map (·.id) ∨ ∃ entry ∈ rows, x = entry.1.id := by
  induction rows generalizing cands with
  | nil => exact .inl h
  | cons entry rows ih =>
    obtain h | ⟨e, he, rfl⟩ := ih h
    · obtain h | rfl := hput cands entry x h
      · exact .inl h
      · exact .inr ⟨entry, mem_cons_self, rfl⟩
    · exact .inr ⟨e, mem_cons_of_mem _ he, rfl⟩

theorem mem_of_mem_zipIdx {rows : List NodeRow} (h : entry ∈ rows.zipIdx) : entry.1 ∈ rows :=
  (mem_zipIdx' h).2 ▸ getElem_mem _

theorem candidates_match {g : MemoryGraph} {a : Answers} {id : Text}
    (h : id ∈ (candidates g a filter).map (·.id)) : Matches g filter id := by
  unfold candidates at h
  obtain h | ⟨entry, hrow, rfl⟩ := mem_foldl_put (fun _ _ _ => mem_putKeyword) h
  · obtain h | ⟨entry, hrow, rfl⟩ := mem_foldl_put (fun _ _ _ => mem_putVector) h
    · simp at h
    · replace hrow := mem_rows (mem_of_mem_zipIdx hrow)
      split at hrow
      · exact mem_leg hrow
      · exact mem_leg hrow
  · replace hrow := mem_of_mem_zipIdx hrow
    split at hrow
    · replace hrow := mem_rows hrow
      split at hrow
      · exact mem_leg hrow
      · exact mem_leg hrow
    · simp at hrow

section Hops

variable {g : MemoryGraph} {a : Answers} {filter : RecallFilter} {restricted : Bool} {realms : List Text}
  {limit depth n : ℕ} {frontier : List Text} {h : Hop} {e : EdgeRow}

theorem endpoints_eq_some {src dst seed far : Text} (hends : endpoints frontier src dst = some (seed, far)) :
    seed ∈ frontier ∧ (seed = src ∧ far = dst ∨ seed = dst ∧ far = src) := by
  unfold endpoints at hends
  split at hends
  next hsrc =>
    cases hends
    exact ⟨by simpa using hsrc, .inl ⟨rfl, rfl⟩⟩
  next hsrc =>
    split at hends
    next hdst =>
      cases hends
      exact ⟨by simpa using hdst, .inr ⟨rfl, rfl⟩⟩
    next hdst => simp at hends

theorem takeEdge_cases (restricted : Bool) (depth : ℕ) (frontier : List Text) (h : Hop) (e : EdgeRow) :
    (∃ seed far, endpoints frontier (e.src.getD []) (e.dst.getD []) = some (seed, far) ∧ far ≠ [] ∧
      isMemory far = true ∧ far ∉ h.cands.map (·.id) ∧ far ∉ h.seen ∧ takeEdge restricted depth frontier h e =
        { h with
          cands := h.cands ++ [graphCand far seed (e.type.getD []) depth]
          seen := far :: h.seen
          next := h.next ++ [far] }) ∨
    (takeEdge restricted depth frontier h e).cands = h.cands ∧ (takeEdge restricted depth frontier h e).seen = h.seen ∧
      (takeEdge restricted depth frontier h e).next = h.next := by
  unfold takeEdge
  cases hends : endpoints frontier (e.src.getD []) (e.dst.getD []) with
  | none => exact .inr ⟨rfl, rfl, rfl⟩
  | some ends =>
    obtain ⟨seed, far⟩ := ends
    by_cases hempty : far.isEmpty = true
    · exact .inr (by simp [hempty])
    · by_cases hmem : isMemory far = true
      · by_cases hnew : (!holds h.cands far && !h.seen.contains far) = true
        · left
          have hnew' := hnew
          simp only [Bool.and_eq_true, Bool.not_eq_true', ← Bool.not_eq_true, holds_iff, contains_iff_mem] at hnew'
          refine ⟨seed, far, rfl, by simpa using hempty, hmem, hnew'.1, hnew'.2, ?_⟩
          dsimp only
          rw [if_neg hempty, if_pos hmem, if_pos hnew]
        · right
          dsimp only
          rw [if_neg hempty, if_pos hmem, if_neg hnew]
          exact ⟨rfl, rfl, rfl⟩
      · right
        cases restricted <;> simp [hempty, hmem]

theorem takeEdge_linked (depth : ℕ) (frontier : List Text) (h : Hop) (e : EdgeRow) :
    (takeEdge true depth frontier h e).linked = h.linked := by
  unfold takeEdge
  cases endpoints frontier (e.src.getD []) (e.dst.getD []) with
  | none => rfl
  | some ends =>
    simp only [↓reduceIte]
    split_ifs <;> rfl

/-- The invariant of the edges of one hop: what is new lies one hop further. -/
structure Reaching (g : MemoryGraph) (filter : RecallFilter) (n : ℕ) (frontier : List Text) (h : Hop) : Prop where
  cands : ∀ x ∈ h.cands.map (·.id), Matches g filter x ∨ x ∈ h.next
  next : ∀ x ∈ h.next, Near g filter n x
  nextSeen : h.next ⊆ h.seen
  frontierSeen : frontier ⊆ h.seen

theorem mem_neighborsSql {seeds : List Text} (h : e ∈ neighborsSql g a depth seeds realms) :
    e ∈ g.edges ∧ permitted realms e = true ∧ ((∃ x ∈ seeds, e.src = some x) ∨ ∃ x ∈ seeds, e.dst = some x) := by
  have hmem := (a.scanEdges_perm depth _).mem_iff.1 (mem_of_mem_take h)
  simp only [mem_filter, Bool.and_eq_true, Bool.or_eq_true] at hmem
  refine ⟨hmem.1, hmem.2.2, ?_⟩
  simpa only [Option.any_eq_true, contains_iff_mem, and_comm, exists_comm] using hmem.2.1

theorem joins_of_endpoints {seed far : Text} (hseen : frontier ⊆ h.seen) (hfar : far ∉ h.seen) (hne : far ≠ [])
    (hends : endpoints frontier (e.src.getD []) (e.dst.getD []) = some (seed, far))
    (hrow : (∃ x ∈ frontier, e.src = some x) ∨ ∃ x ∈ frontier, e.dst = some x) : ∃ x ∈ frontier, Joins e x far := by
  obtain ⟨hseed, ⟨hs, hf⟩ | ⟨hs, hf⟩⟩ := endpoints_eq_some hends
  · have hdst : e.dst = some far := by
      cases hd : e.dst with
      | none => simp [hd] at hf; exact absurd hf hne
      | some d => simp [hd] at hf; rw [hf]
    obtain ⟨x, hx, hsrc⟩ | ⟨x, hx, hdst'⟩ := hrow
    · exact ⟨x, hx, .inl ⟨hsrc, hdst⟩⟩
    · rw [hdst] at hdst'
      cases hdst'
      exact absurd (hseen hx) hfar
  · have hsrc : e.src = some far := by
      cases hd : e.src with
      | none => simp [hd] at hf; exact absurd hf hne
      | some d => simp [hd] at hf; rw [hf]
    obtain ⟨x, hx, hsrc'⟩ | ⟨x, hx, hdst⟩ := hrow
    · rw [hsrc] at hsrc'
      cases hsrc'
      exact absurd (hseen hx) hfar
    · exact ⟨x, hx, .inr ⟨hdst, hsrc⟩⟩

theorem Reaching.takeEdge (hinv : Reaching g filter (n + 1) frontier h) (hfrontier : ∀ x ∈ frontier, Near g filter n x)
    (he : e ∈ g.edges) (hper : permitted filter.realms e = true)
    (hrow : (∃ x ∈ frontier, e.src = some x) ∨ ∃ x ∈ frontier, e.dst = some x) :
    Reaching g filter (n + 1) frontier (takeEdge restricted depth frontier h e) := by
  obtain ⟨seed, far, hends, hne, hmem, -, hseen, heq⟩ | ⟨hcands, hseen, hnext⟩ :=
    takeEdge_cases restricted depth frontier h e
  · obtain ⟨x, hx, hjoin⟩ := joins_of_endpoints hinv.frontierSeen hseen hne hends hrow
    have hnear : Near g filter (n + 1) far := .inr ⟨hmem, x, hfrontier x hx, e, he, hper, hjoin⟩
    rw [heq]
    refine ⟨?_, ?_, ?_, ?_⟩
    · intro y hy
      simp only [map_append, mem_append, map_cons, map_nil, mem_singleton] at hy ⊢
      obtain hy | rfl := hy
      · exact (hinv.cands y hy).imp_right .inl
      · exact .inr (.inr rfl)
    · intro y hy
      obtain hy | hy := mem_append.1 hy
      · exact hinv.next y hy
      · rwa [mem_singleton.1 hy]
    · intro y hy
      obtain hy | hy := mem_append.1 hy
      · exact mem_cons_of_mem _ (hinv.nextSeen hy)
      · exact mem_singleton.1 hy ▸ mem_cons_self
    · exact fun y hy => mem_cons_of_mem _ (hinv.frontierSeen hy)
  · refine ⟨?_, ?_, ?_, ?_⟩
    · rw [hcands, hnext]
      exact hinv.cands
    · rw [hnext]
      exact hinv.next
    · rw [hnext, hseen]
      exact hinv.nextSeen
    · rw [hseen]
      exact hinv.frontierSeen

variable (restricted depth) in
theorem Reaching.foldl_takeEdge {edges : List EdgeRow} (hinv : Reaching g filter (n + 1) frontier h)
    (hfrontier : ∀ x ∈ frontier, Near g filter n x)
    (hedges : ∀ e ∈ edges, e ∈ neighborsSql g a depth frontier filter.realms) :
    Reaching g filter (n + 1) frontier (edges.foldl (Recall.takeEdge restricted depth frontier) h) := by
  induction edges generalizing h with
  | nil => exact hinv
  | cons e edges ih =>
    obtain ⟨he, hper, hrow⟩ := mem_neighborsSql (hedges e mem_cons_self)
    exact ih (hinv.takeEdge hfrontier he hper hrow) fun e' he' => hedges e' (mem_cons_of_mem _ he')

/-! #### Placeholders -/

theorem mem_nodesByIdSql {ids : List Text} {r : NodeRow} :
    r ∈ nodesByIdSql g a depth ids ↔ g.first r.id = some r ∧ r.id ∈ ids ∧ r.invalidAt = none := by
  simp [nodesByIdSql, (a.sortRows_perm _ _).mem_iff, mem_latest]

def Refused (realms : List Text) (rows : List NodeRow) (x : Text) : Prop :=
  ∃ r ∈ rows, r.id = x ∧ r.realm.getD [] ∉ realms

variable {cands : List Cand}

theorem mem_takeRow {r : NodeRow} {x : Text} : x ∈ (takeRow restricted realms cands r).map (·.id) ↔
      x ∈ cands.map (·.id) ∧ (restricted = true → ¬Refused realms [r] x) := by
  unfold takeRow
  by_cases hrefused : (restricted && !realms.any (· = r.realm.getD [])) = true
  · rw [if_pos hrefused, mem_map_id_remove]
    simp only [Bool.and_eq_true, Bool.not_eq_true', any_eq_false, decide_eq_true_eq] at hrefused
    have hrealm : r.realm.getD [] ∉ realms := fun hmem => hrefused.2 _ hmem rfl
    simp [Refused, hrefused.1, hrealm, eq_comm]
  · rw [if_neg hrefused, map_id_update _ _ (fun c => hydrate c r) fun _ => rfl]
    refine ⟨fun hx => ⟨hx, fun hres => ?_⟩, fun hx => hx.1⟩
    rintro ⟨r', hr', -, hrealm⟩
    cases mem_singleton.1 hr'
    refine hrefused ?_
    simp only [hres, Bool.true_and, Bool.not_eq_true', any_eq_false, decide_eq_true_eq]
    rintro realm hmem rfl
    exact hrealm hmem

variable {rows : List NodeRow}

theorem mem_foldl_takeRow {x : Text} : x ∈ (rows.foldl (takeRow restricted realms) cands).map (·.id) ↔
      x ∈ cands.map (·.id) ∧ (restricted = true → ¬Refused realms rows x) := by
  induction rows generalizing cands with
  | nil => simp [Refused]
  | cons r rows ih =>
    rw [foldl_cons, ih, mem_takeRow]
    simp only [Refused, mem_cons, not_mem_nil, or_false, exists_eq_left, exists_eq_or_imp, not_or]
    rw [and_assoc, ← imp_and]

theorem mem_foldl_remove {new : List Text} {rows : List NodeRow} {x : Text} :
    x ∈ (new.foldl (fun cs id => if rows.any (·.id = id) then cs else remove cs id) cands).map (·.id) ↔
      x ∈ cands.map (·.id) ∧ (x ∈ new → ∃ r ∈ rows, r.id = x) := by
  induction new generalizing cands with
  | nil => simp
  | cons y new ih =>
    rw [foldl_cons, ih]
    have hstep : x ∈ (if rows.any (·.id = y) then cands else remove cands y).map (·.id) ↔
        x ∈ cands.map (·.id) ∧ (x = y → ∃ r ∈ rows, r.id = x) := by
      split
      next hany =>
        simp only [any_eq_true, decide_eq_true_eq] at hany
        exact ⟨fun hx => ⟨hx, fun hxy => hxy ▸ hany⟩, fun hx => hx.1⟩
      next hany =>
        simp only [any_eq_true, decide_eq_true_eq] at hany
        rw [mem_map_id_remove]
        exact and_congr_right fun _ => ⟨fun hne hxy => absurd hxy hne, fun himp hxy => hany (hxy ▸ himp hxy)⟩
    rw [hstep, mem_cons]
    tauto

/-- **The candidates after the placeholders were filled**: those before, without the new ones that did not come back
or came back from a realm that is not allowed. -/
theorem mem_materialize {new : List Text} {x : Text} :
    x ∈ (materialize restricted realms rows new cands).map (·.id) ↔ x ∈ cands.map (·.id) ∧
        (restricted = true → ¬Refused realms rows x ∧ (x ∈ new → ∃ r ∈ rows, r.id = x)) := by
  unfold materialize
  cases restricted with
  | false => simp [mem_foldl_takeRow]
  | true => simp only [↓reduceIte, mem_foldl_remove, mem_foldl_takeRow, forall_const, and_assoc]

theorem survives_of_mem_materialize {new : List Text} {rows : List NodeRow} {x : Text}
    (hrows : ∀ r ∈ rows, r ∈ nodesByIdSql g a depth new)
    (hx : x ∈ (materialize restricted realms rows new cands).map (·.id)) (hnew : x ∈ new) :
    Survives g restricted realms x := by
  intro hres
  obtain ⟨hok, hback⟩ := (mem_materialize.1 hx).2 hres
  obtain ⟨r, hr, rfl⟩ := hback hnew
  obtain ⟨hfirst, -, hvalid⟩ := mem_nodesByIdSql.1 (hrows r hr)
  refine ⟨r, hfirst, hvalid, ?_⟩
  by_contra hrealm
  exact hok ⟨r, hr, rfl, hrealm⟩

variable (a depth) in
/-- **One hop**, from above: if what survives within the next distance matches, then every candidate still does. -/
theorem hop_sound (hcands : ∀ x ∈ h.cands.map (·.id), Matches g filter x) (hnext : ∀ x ∈ h.next, Near g filter n x)
    (hseen : h.next ⊆ h.seen)
    (hclosed : ∀ y, Near g filter (n + 1) y → Survives g restricted filter.realms y → Matches g filter y) :
    (∀ x ∈ (hop g a restricted filter.realms depth h).cands.map (·.id), Matches g filter x) ∧
      (∀ x ∈ (hop g a restricted filter.realms depth h).next, Near g filter (n + 1) x) ∧
      (hop g a restricted filter.realms depth h).next ⊆ (hop g a restricted filter.realms depth h).seen := by
  have hstart : Reaching g filter (n + 1) h.next { h with next := [] } :=
    ⟨fun x hx => .inl (hcands x hx), by simp, by simp, hseen⟩
  have hinv : Reaching g filter (n + 1) h.next
      ((a.rows (.neighbors depth) (neighborsSql g a depth h.next filter.realms)).foldl
        (takeEdge restricted depth h.next) { h with next := [] }) :=
    hstart.foldl_takeEdge restricted depth hnext fun e he => mem_rows he
  unfold hop
  dsimp only
  split
  next hempty =>
    refine ⟨fun x hx => (hinv.cands x hx).resolve_right ?_, hinv.next, hinv.nextSeen⟩
    rw [List.isEmpty_iff.1 hempty]
    exact not_mem_nil
  next hempty =>
    refine ⟨fun x hx => ?_, hinv.next, hinv.nextSeen⟩
    obtain hmatch | hnew := hinv.cands x (mem_materialize.1 hx).1
    · exact hmatch
    · exact hclosed x (hinv.next x hnew) (survives_of_mem_materialize (fun r hr => mem_rows hr) hx hnew)

theorem expandFrom_sound {k : ℕ} (hcands : ∀ x ∈ h.cands.map (·.id), Matches g filter x)
    (hnext : ∀ x ∈ h.next, Near g filter n x) (hseen : h.next ⊆ h.seen)
    (hclosed : ∀ y, Near g filter (n + k) y → Survives g restricted filter.realms y → Matches g filter y) :
    ∀ x ∈ (expandFrom g a restricted filter.realms limit k depth h).cands.map (·.id), Matches g filter x := by
  induction k generalizing n depth h with
  | zero => exact hcands
  | succ k ih =>
    unfold expandFrom
    split
    · exact hcands
    · obtain ⟨hc, hn, hs⟩ := hop_sound a depth hcands hnext hseen fun y hy =>
        hclosed y (hy.mono (by omega))
      dsimp only
      split
      · exact hc
      · exact ih hc hn hs fun y hy => hclosed y (hy.mono (by omega))

/-! ### One hop, from below -/

/-- The invariant of the edges of one hop: nothing is lost, and what is new is held. -/
structure Growing (start h : Hop) : Prop where
  kept : ∀ x ∈ start.cands.map (·.id), x ∈ h.cands.map (·.id) ∧ x ∉ h.next
  held : ∀ x ∈ h.next, x ∈ h.cands.map (·.id)
  seen : ∀ x ∈ h.seen, x ∈ start.seen ∨ x ∈ h.next
  startSeen : start.seen ⊆ h.seen
  nextSeen : h.next ⊆ h.seen
  length : h.cands.length = start.cands.length + h.next.length

theorem Growing.takeEdge {start : Hop} (hinv : Growing start h) :
    Growing start (takeEdge restricted depth frontier h e) := by
  obtain ⟨seed, far, -, -, -, hheld, -, heq⟩ | ⟨hcands, hseen, hnext⟩ := takeEdge_cases restricted depth frontier h e
  · rw [heq]
    refine ⟨?_, ?_, ?_, ?_, ?_, ?_⟩
    · intro x hx
      obtain ⟨hmem, hnot⟩ := hinv.kept x hx
      refine ⟨by rw [map_append]; exact mem_append_left _ hmem, ?_⟩
      rw [mem_append, mem_singleton, not_or]
      exact ⟨hnot, fun hxf => hheld (hxf ▸ hmem)⟩
    · intro x hx
      rw [map_append, mem_append]
      obtain hx | hx := mem_append.1 hx
      · exact .inl (hinv.held x hx)
      · exact .inr (by simpa [graphCand, emptyCand] using hx)
    · intro x hx
      rw [mem_append, mem_singleton]
      obtain rfl | hx := mem_cons.1 hx
      · exact .inr (.inr rfl)
      · exact (hinv.seen x hx).imp_right .inl
    · exact fun x hx => mem_cons_of_mem _ (hinv.startSeen hx)
    · intro x hx
      obtain hx | hx := mem_append.1 hx
      · exact mem_cons_of_mem _ (hinv.nextSeen hx)
      · exact mem_singleton.1 hx ▸ mem_cons_self
    · simp [hinv.length, add_assoc]
  · refine ⟨?_, ?_, ?_, ?_, ?_, ?_⟩
    · rw [hcands, hnext]
      exact hinv.kept
    · rw [hcands, hnext]
      exact hinv.held
    · rw [hseen, hnext]
      exact hinv.seen
    · rw [hseen]
      exact hinv.startSeen
    · rw [hnext, hseen]
      exact hinv.nextSeen
    · rw [hcands, hnext]
      exact hinv.length

variable {edges : List EdgeRow}

theorem Growing.foldl_takeEdge {start : Hop} (hinv : Growing start h) :
    Growing start (edges.foldl (Recall.takeEdge restricted depth frontier) h) := by
  induction edges generalizing h with
  | nil => exact hinv
  | cons e edges ih => exact ih hinv.takeEdge

theorem next_subset_takeEdge : h.next ⊆ (takeEdge restricted depth frontier h e).next := by
  obtain ⟨_, _, -, -, -, -, -, heq⟩ | ⟨-, -, hnext⟩ := takeEdge_cases restricted depth frontier h e
  · rw [heq]
    exact subset_append_left _ _
  · rw [hnext]
    exact List.Subset.refl _

theorem next_subset_foldl_takeEdge {edges : List EdgeRow} :
    h.next ⊆ (edges.foldl (takeEdge restricted depth frontier) h).next := by
  induction edges generalizing h with
  | nil => exact List.Subset.refl _
  | cons e edges ih => exact List.Subset.trans next_subset_takeEdge ih

variable (restricted depth frontier h e) in
theorem length_next_takeEdge_le : (takeEdge restricted depth frontier h e).next.length ≤ h.next.length + 1 := by
  obtain ⟨_, _, -, -, -, -, -, heq⟩ | ⟨-, -, hnext⟩ := takeEdge_cases restricted depth frontier h e
  · rw [heq]
    simp
  · rw [hnext]
    exact Nat.le_succ _

theorem length_next_foldl_takeEdge_le :
    (edges.foldl (takeEdge restricted depth frontier) h).next.length ≤ h.next.length + edges.length := by
  induction edges generalizing h with
  | nil => exact Nat.le_refl _
  | cons e edges ih =>
    have hstep := length_next_takeEdge_le restricted depth frontier h e
    have hrest := @ih (takeEdge restricted depth frontier h e)
    rw [foldl_cons, length_cons]
    omega

theorem foldl_takeEdge_linked {edges : List EdgeRow} :
    (edges.foldl (takeEdge true depth frontier) h).linked = h.linked := by
  induction edges generalizing h with
  | nil => rfl
  | cons e edges ih => rw [foldl_cons, ih, takeEdge_linked]

theorem mem_next_takeEdge {w z : Text} (hw : w ∈ frontier) (hz : isMemory z = true) (hjoin : Joins e w z)
    (hheld : z ∉ h.cands.map (·.id)) (hseen : z ∉ h.seen) (hfrontier : frontier ⊆ h.seen) :
    z ∈ (takeEdge restricted depth frontier h e).next := by
  have hends : endpoints frontier (e.src.getD []) (e.dst.getD []) = some (w, z) := by
    unfold endpoints
    obtain ⟨hsrc, hdst⟩ | ⟨hdst, hsrc⟩ := hjoin
    · simp [hsrc, hdst, hw]
    · have hzf : z ∉ frontier := fun hmem => hseen (hfrontier hmem)
      simp [hsrc, hdst, hw, hzf]
  have hne : ¬z.isEmpty = true := by
    intro hempty
    rw [List.isEmpty_iff.1 hempty] at hz
    exact absurd hz (by decide)
  have hnew : (!holds h.cands z && !h.seen.contains z) = true := by
    simp only [Bool.and_eq_true, Bool.not_eq_true', ← Bool.not_eq_true, holds_iff, contains_iff_mem]
    exact ⟨hheld, hseen⟩
  unfold takeEdge
  rw [hends]
  dsimp only
  rw [if_neg hne, if_pos hz, if_pos hnew]
  simp

/-! #### A hop that was answered -/

def edgesTaken (g : MemoryGraph) (a : Answers) (restricted : Bool) (realms : List Text) (depth : ℕ) (h : Hop) : Hop :=
  (a.rows (.neighbors depth) (neighborsSql g a depth h.next realms)).foldl (takeEdge restricted depth h.next)
    { h with next := [] }

variable (g a restricted realms depth h) in
theorem growing_edgesTaken : Growing { h with next := [] } (edgesTaken g a restricted realms depth h) :=
  Growing.foldl_takeEdge ⟨fun x hx => ⟨hx, not_mem_nil⟩, by simp, fun x hx => .inl hx, List.Subset.refl _, by simp, rfl⟩

theorem hop_next : (hop g a restricted realms depth h).next = (edgesTaken g a restricted realms depth h).next := by
  unfold hop edgesTaken
  dsimp only
  split <;> rfl

theorem hop_seen : (hop g a restricted realms depth h).seen = (edgesTaken g a restricted realms depth h).seen := by
  unfold hop edgesTaken
  dsimp only
  split <;> rfl

theorem hop_linked : (hop g a restricted realms depth h).linked = (edgesTaken g a restricted realms depth h).linked := by
  unfold hop edgesTaken
  dsimp only
  split <;> rfl

/-- **The candidates after a hop**: those before and the new ones, where a token that is bound to realms keeps of the
new ones what survives, provided that the query for them was answered. -/
theorem mem_hop {x : Text} : x ∈ (hop g a restricted realms depth h).cands.map (·.id) ↔
      x ∈ (edgesTaken g a restricted realms depth h).cands.map (·.id) ∧
        (restricted = true → x ∈ (edgesTaken g a restricted realms depth h).next →
          a.answered (.nodes depth) = true ∧ Survives g true realms x) := by
  unfold hop
  dsimp only
  rw [← edgesTaken]
  split
  next hempty =>
    have hnil := List.isEmpty_iff.1 hempty
    simp [hnil]
  next hempty =>
    rw [mem_materialize]
    refine and_congr_right fun hx => imp_congr_right fun hres => ?_
    constructor
    · rintro ⟨hok, hback⟩ hnew
      obtain ⟨r, hr, rfl⟩ := hback hnew
      have hans : a.answered (.nodes depth) = true := by
        by_contra hno
        simp [Answers.rows, hno] at hr
      obtain ⟨hfirst, -, hvalid⟩ := mem_nodesByIdSql.1 (mem_rows hr)
      refine ⟨hans, fun _ => ⟨r, hfirst, hvalid, ?_⟩⟩
      by_contra hrealm
      exact hok ⟨r, hr, rfl, hrealm⟩
    · intro hkeep
      constructor
      · rintro ⟨r, hr, rfl, hrealm⟩
        obtain ⟨hfirst, hnew, -⟩ := mem_nodesByIdSql.1 (mem_rows hr)
        obtain ⟨-, hsurvives⟩ := hkeep hnew
        obtain ⟨row, hrow, -, hmem⟩ := hsurvives rfl
        rw [hfirst] at hrow
        cases hrow
        exact hrealm hmem
      · intro hnew
        obtain ⟨hans, hsurvives⟩ := hkeep hnew
        obtain ⟨row, hrow, hvalid, -⟩ := hsurvives rfl
        obtain ⟨-, rfl⟩ := g.first_mem _ _ hrow
        refine ⟨row, ?_, rfl⟩
        rw [Answers.rows, if_pos hans]
        exact mem_nodesByIdSql.2 ⟨hrow, hnew, hvalid⟩

theorem sublist_takeRow (cands : List Cand) (r : NodeRow) :
    ((takeRow restricted realms cands r).map (·.id)).Sublist (cands.map (·.id)) := by
  unfold takeRow
  split
  · exact filter_sublist.map _
  · rw [map_id_update _ _ (fun c => hydrate c r) fun _ => rfl]

theorem sublist_materialize (cands : List Cand) (rows : List NodeRow) (new : List Text) :
    ((materialize restricted realms rows new cands).map (·.id)).Sublist (cands.map (·.id)) := by
  have hrows : ∀ (rows : List NodeRow) (cands : List Cand),
      ((rows.foldl (takeRow restricted realms) cands).map (·.id)).Sublist (cands.map (·.id)) := by
    intro rows
    induction rows with
    | nil => exact fun _ => List.Sublist.refl _
    | cons r rows ih => exact fun cands => (ih _).trans (sublist_takeRow cands r)
  have hnew : ∀ (new : List Text) (cands : List Cand),
      ((new.foldl (fun cs id => if rows.any (·.id = id) then cs else remove cs id) cands).map (·.id)).Sublist
        (cands.map (·.id)) := by
    intro new
    induction new with
    | nil => exact fun _ => List.Sublist.refl _
    | cons id new ih =>
      intro cands
      refine (ih _).trans ?_
      dsimp only
      split
      · exact List.Sublist.refl _
      · exact filter_sublist.map _
  unfold materialize
  split
  · exact (hnew _ _).trans (hrows _ _)
  · exact hrows _ _

theorem length_hop_lt {x : Text} (hx : x ∈ (edgesTaken g a restricted realms depth h).cands.map (·.id))
    (hgone : x ∉ (hop g a restricted realms depth h).cands.map (·.id)) :
    (hop g a restricted realms depth h).cands.length < (edgesTaken g a restricted realms depth h).cands.length := by
  have hsub : ((hop g a restricted realms depth h).cands.map (·.id)).Sublist
      ((edgesTaken g a restricted realms depth h).cands.map (·.id)) := by
    unfold hop
    dsimp only
    rw [← edgesTaken]
    split
    · exact List.Sublist.refl _
    · exact sublist_materialize _ _ _
  refine lt_of_le_of_ne (by simpa using hsub.length_le) fun heq => hgone ?_
  rw [hsub.eq_of_length (by simpa using heq)]
  exact hx

variable (a restricted) in
theorem hop_reaches {w z : Text} {rest : List EdgeRow} (hans : a.answered (.neighbors depth) = true)
    (hrows : neighborsSql g a depth h.next realms = e :: rest) (hw : w ∈ h.next) (hz : isMemory z = true)
    (hjoin : Joins e w z) (hseen : h.next ⊆ h.seen) :
    z ∈ (edgesTaken g a restricted realms depth h).next ∨ z ∈ h.cands.map (·.id) ∨ z ∈ h.seen := by
  by_cases hheld : z ∈ h.cands.map (·.id)
  · exact .inr (.inl hheld)
  by_cases hknown : z ∈ h.seen
  · exact .inr (.inr hknown)
  left
  unfold edgesTaken
  rw [Answers.rows, if_pos hans, hrows, foldl_cons]
  exact next_subset_foldl_takeEdge (mem_next_takeEdge hw hz hjoin hheld hknown hseen)

theorem mem_hop_of_mem {x : Text} (hx : x ∈ h.cands.map (·.id)) :
    x ∈ (hop g a restricted realms depth h).cands.map (·.id) := by
  obtain ⟨hmem, hnot⟩ := (growing_edgesTaken g a restricted realms depth h).kept x hx
  exact mem_hop.2 ⟨hmem, fun _ hnew => absurd hnew hnot⟩

theorem mem_hop_of_next {x : Text} (hans : a.answered (.nodes depth) = true)
    (hx : x ∈ (edgesTaken g a restricted realms depth h).next) (hsurvives : Survives g restricted realms x) :
    x ∈ (hop g a restricted realms depth h).cands.map (·.id) := by
  refine mem_hop.2 ⟨(growing_edgesTaken g a restricted realms depth h).held x hx, ?_⟩
  rintro rfl _
  exact ⟨hans, hsurvives⟩

theorem mem_expandFrom {k : ℕ} {x : Text} (hx : x ∈ h.cands.map (·.id)) :
    x ∈ (expandFrom g a restricted realms limit k depth h).cands.map (·.id) := by
  induction k generalizing depth h with
  | zero => exact hx
  | succ k ih =>
    unfold expandFrom
    split
    · exact hx
    · dsimp only
      split
      · exact mem_hop_of_mem hx
      · exact ih (mem_hop_of_mem hx)

end Hops

/-! ### A recall that brings one memory forward -/

/-- The list with `x` in front, if it is there. -/
def bringFirst {α : Type} [DecidableEq α] (x : α) (l : List α) : List α := if x ∈ l then x :: l.erase x else l

theorem bringFirst_perm {α : Type} [DecidableEq α] (x : α) (l : List α) : (bringFirst x l).Perm l := by
  unfold bringFirst
  split
  next hx => exact (perm_cons_erase hx).symm
  next hx => exact List.Perm.refl _

/-- A recall that finds the match `x` only, lists the edge `pick depth` first in each hop, and ranks `z` first. -/
def favouring (x : Text) (pick : ℕ → EdgeRow) (z : Text) : Answers where
  ready := true
  annIds := some [x]
  bm25Ids := none
  near _ := true
  hasTokens := false
  kwScore _ := 0
  answered _ := true
  sortRows _ l := l
  sortRows_perm _ l := List.Perm.refl l
  scanEdges d l := bringFirst (pick d) l
  scanEdges_perm d l := bringFirst_perm (pick d) l
  shuffle l := l
  shuffle_perm l := List.Perm.refl l
  rank l := l.filter (·.id = z) ++ l.filter (·.id ≠ z)
  rank_subset _ := append_subset.2 ⟨filter_sublist.subset, filter_sublist.subset⟩

section Favouring

variable {g : MemoryGraph} {filter : RecallFilter} {x z : Text} {pick : ℕ → EdgeRow}

theorem foldl_putVector_self {c : Cand} {rows : List (NodeRow × ℕ)} (hrows : ∀ entry ∈ rows, entry.1.id = c.id) :
    rows.foldl putVector [c] = [c] := by
  induction rows with
  | nil => rfl
  | cons entry rows ih =>
    have hheld : holds [c] entry.1.id = true := by simp [holds, hrows entry mem_cons_self]
    rw [foldl_cons, putVector, if_pos hheld]
    exact ih fun e he => hrows e (mem_cons_of_mem _ he)

variable (pick) in
theorem candidates_favouring (hx : Matches g filter x) :
    ∃ c, candidates g (favouring x pick z) filter = [c] ∧ c.id = x := by
  obtain ⟨row, hfirst, hsat⟩ := hx
  obtain ⟨-, rfl⟩ := g.first_mem _ _ hfirst
  have hrow : row ∈ g.matching filter fun r => [row.id].contains r.id := by
    simp [MemoryGraph.matching, mem_latest, hfirst, hsat]
  have hids : ∀ r ∈ g.matching filter fun r => [row.id].contains r.id, r.id = row.id := by
    intro r hr
    simp only [MemoryGraph.matching, mem_filter, Bool.and_eq_true, contains_iff_mem, mem_singleton] at hr
    exact hr.2.2
  have hcands : candidates g (favouring row.id pick z) filter =
      (((g.matching filter fun r => [row.id].contains r.id).take candK).zipIdx).foldl putVector [] := rfl
  rw [hcands]
  cases hlist : g.matching filter fun r => [row.id].contains r.id with
  | nil =>
    rw [hlist] at hrow
    simp at hrow
  | cons r rest =>
    rw [hlist] at hids
    refine ⟨{ Cand.fromRow r with vecRank := some 0 }, ?_, hids r mem_cons_self⟩
    rw [show candK = 49 + 1 from rfl, take_succ_cons, zipIdx_cons, foldl_cons]
    refine foldl_putVector_self (c := { Cand.fromRow r with vecRank := some 0 }) fun entry hentry => ?_
    have hmem : entry.1 ∈ rest.take 49 := by
      obtain ⟨-, -, heq⟩ := mem_zipIdx hentry
      rw [heq]
      exact getElem_mem _
    rw [hids entry.1 (mem_cons_of_mem _ (mem_of_mem_take hmem))]
    exact (hids r mem_cons_self).symm

theorem seeds_favouring (c : Cand) : seeds (favouring x pick z) [c] = [c.id] := rfl

theorem neighborsSql_favouring {depth : ℕ} {frontier realms : List Text} {w y : Text}
    (he : pick depth ∈ g.edges) (hper : permitted realms (pick depth) = true) (hw : w ∈ frontier)
    (hjoin : Joins (pick depth) w y) :
    ∃ rest, neighborsSql g (favouring x pick z) depth frontier realms = pick depth :: rest := by
  have hmem : pick depth ∈ g.edges.filter fun e =>
      (e.src.any (fun s => frontier.contains s) || e.dst.any fun d => frontier.contains d) && permitted realms e := by
    obtain ⟨hsrc, -⟩ | ⟨hdst, -⟩ := hjoin
    · simp [he, hper, hsrc, hw]
    · simp [he, hper, hdst, hw]
  refine ⟨((g.edges.filter fun e => (e.src.any (fun s => frontier.contains s) ||
    e.dst.any fun d => frontier.contains d) && permitted realms e).erase (pick depth)).take 199, ?_⟩
  show (bringFirst (pick depth) _).take expandCap = _
  rw [bringFirst, if_pos hmem, show expandCap = 199 + 1 from rfl, take_succ_cons]

theorem mem_expand_one {restricted : Bool} {realms : List Text} {limit k : ℕ} {c : Cand}
    (he : pick 1 ∈ g.edges) (hper : permitted realms (pick 1) = true) (hjoin : Joins (pick 1) c.id z)
    (hz : isMemory z = true) (hsurvives : Survives g restricted realms z) :
    z ∈ (graphExpand g (favouring x pick z) restricted realms limit [c] (k + 1)).cands.map (·.id) := by
  obtain ⟨rest, hrows⟩ := neighborsSql_favouring (x := x) (z := z) he hper mem_cons_self hjoin
  have hhop : z ∈ (hop g (favouring x pick z) restricted realms 1 ⟨[c], [], [c.id], [c.id]⟩).cands.map (·.id) := by
    obtain hnew | hheld | hknown := hop_reaches (favouring x pick z) restricted
      (h := ⟨[c], [], [c.id], [c.id]⟩) rfl hrows mem_cons_self hz hjoin (List.Subset.refl _)
    · exact mem_hop_of_next rfl hnew hsurvives
    · exact mem_hop_of_mem hheld
    · exact mem_hop_of_mem hknown
  unfold graphExpand expandFrom
  rw [seeds_favouring]
  simp only [isEmpty_cons, Bool.false_eq_true, ↓reduceIte]
  split
  · exact hhop
  · exact mem_expandFrom hhop

/-- A memory that survives is a candidate in the end also behind one that is dropped: that one stays in the frontier,
and makes room for the fan-out guard. -/
theorem mem_expand_two {realms : List Text} {limit : ℕ} {c : Cand} {w : Text}
    (he : pick 1 ∈ g.edges) (hper : permitted realms (pick 1) = true) (hjoin : Joins (pick 1) c.id w)
    (hw : isMemory w = true) (hwc : w ≠ c.id) (hdropped : ¬Survives g true realms w)
    (he' : pick 2 ∈ g.edges) (hper' : permitted realms (pick 2) = true) (hjoin' : Joins (pick 2) w z)
    (hz : isMemory z = true) (hsurvives : Survives g true realms z) :
    z ∈ (graphExpand g (favouring x pick z) true realms limit [c] 2).cands.map (·.id) := by
  set a := favouring x pick z with ha
  set h₀ : Hop := ⟨[c], [], [c.id], [c.id]⟩ with h₀_eq
  set h₁ := hop g a true realms 1 h₀ with h₁_eq
  have hgrow : Growing { h₀ with next := [] } (edgesTaken g a true realms 1 h₀) := growing_edgesTaken g a true realms 1 h₀
  have hnext₁ : h₁.next = (edgesTaken g a true realms 1 h₀).next := hop_next
  have hseen₁ : h₁.seen = (edgesTaken g a true realms 1 h₀).seen := hop_seen
  -- the first hop comes upon `w`, and drops it
  obtain ⟨rest, hrows⟩ := neighborsSql_favouring (x := x) (z := z) he hper (mem_cons_self (l := [])) hjoin
  have hw₁ : w ∈ (edgesTaken g a true realms 1 h₀).next := by
    obtain hnew | hheld | hknown := hop_reaches a true (h := h₀) rfl hrows mem_cons_self hw hjoin (List.Subset.refl _)
    · exact hnew
    · exact absurd (mem_singleton.1 hheld) hwc
    · exact absurd (mem_singleton.1 hknown) hwc
  have hgone : w ∉ h₁.cands.map (·.id) := fun hmem => hdropped ((mem_hop.1 hmem).2 rfl hw₁).2
  have hnarrow : tooWide limit h₁ = false := by
    have hlinked : h₁.linked = [] := by
      rw [h₁_eq, hop_linked]
      exact foldl_takeEdge_linked
    have hlt : h₁.cands.length < (edgesTaken g a true realms 1 h₀).cands.length :=
      length_hop_lt (hgrow.held w hw₁) hgone
    have hlen : (edgesTaken g a true realms 1 h₀).cands.length = 1 + (edgesTaken g a true realms 1 h₀).next.length :=
      hgrow.length
    have hcap : (edgesTaken g a true realms 1 h₀).next.length ≤ 0 + expandCap := by
      refine le_trans length_next_foldl_takeEdge_le (Nat.add_le_add_left ?_ 0)
      rw [Answers.rows, if_pos (show a.answered (.neighbors 1) = true from rfl)]
      exact length_take_le _ _
    have hcands : h₁.cands.length ≤ candK * 4 := by
      simp only [expandCap, candK] at *
      omega
    simp [tooWide, hlinked, hcands]
  -- the second hop finds `z` through it
  obtain ⟨rest', hrows'⟩ := neighborsSql_favouring (x := x) (z := z) he' hper' (hnext₁ ▸ hw₁ : w ∈ h₁.next) hjoin'
  have hz₂ : z ∈ (hop g a true realms 2 h₁).cands.map (·.id) := by
    have hseen : h₁.next ⊆ h₁.seen := by
      rw [hnext₁, hseen₁]
      exact hgrow.nextSeen
    obtain hnew | hheld | hknown := hop_reaches a true rfl hrows' (hnext₁ ▸ hw₁) hz hjoin' hseen
    · exact mem_hop_of_next rfl hnew hsurvives
    · exact mem_hop_of_mem hheld
    · rw [hseen₁] at hknown
      obtain hstart | hnew := hgrow.seen z hknown
      · exact mem_hop_of_mem (mem_hop_of_mem (h := h₀) hstart)
      · exact mem_hop_of_mem (mem_hop_of_next rfl hnew hsurvives)
  have hsome : ¬h₁.next.isEmpty = true := by
    rw [hnext₁, List.isEmpty_iff]
    exact ne_nil_of_mem hw₁
  unfold graphExpand
  rw [seeds_favouring, ← h₀_eq]
  simp only [expandFrom]
  rw [if_neg (by simp [h₀_eq]), ← h₁_eq, hnarrow]
  simp only [Bool.false_eq_true, ↓reduceIte]
  rw [if_neg hsome, ite_self]
  exact hz₂

end Favouring

/-! ### When recalls respect their filter -/

/-- Every memory that a recall returns meets the filter on its newest row, whatever the query, the indexes and the
order of the rows. -/
def Respects (g : MemoryGraph) (scope : RealmScope) (settings : MemorySettings) (req : RetrieveRequest) : Prop :=
  ∀ a filter, recallFilter scope req = some filter →
    ∀ m ∈ (retrieve g scope settings req a).memories, Matches g filter m.id

def Closed (g : MemoryGraph) (scope : RealmScope) (settings : MemorySettings) (req : RetrieveRequest) : Prop :=
  ∀ filter, recallFilter scope req = some filter → ∀ y, Near g filter (hopsOf settings req) y →
    Survives g scope.isRestricted filter.realms y → Matches g filter y

section Respect

variable {g : MemoryGraph} {scope : RealmScope} {settings : MemorySettings} {req : RetrieveRequest}
  {filter : RecallFilter} {a : Answers}

theorem mem_of_mem_seeds {cands : List Cand} {x : Text} (h : x ∈ seeds a cands) : x ∈ cands.map (·.id) := by
  obtain ⟨c, hc, rfl⟩ := mem_map.1 h
  replace hc := mem_of_mem_take hc
  rw [mem_insertionSort, (a.shuffle_perm cands).mem_iff] at hc
  exact mem_map_of_mem hc

theorem respects_of_closed (h : Closed g scope settings req) : Respects g scope settings req := by
  intro a filter hfilter m hm
  unfold retrieve at hm
  rw [hfilter] at hm
  split at hm
  · simp at hm
  · dsimp only at hm
    obtain ⟨c, hc, rfl⟩ := mem_map.1 hm
    replace hc := mem_map_of_mem (f := (·.id)) (a.rank_subset _ (mem_of_mem_take hc))
    split at hc
    · have hcands : ∀ x ∈ (candidates g a filter).map (·.id), Matches g filter x := fun x => candidates_match
      refine expandFrom_sound (n := 0) hcands (fun x hx => hcands x (mem_of_mem_seeds hx)) (List.Subset.refl _) ?_ _ hc
      rw [Nat.zero_add]
      exact h filter hfilter
    · exact candidates_match hc

theorem exists_mem_take_rank {x z : Text} (pick : ℕ → EdgeRow) {cands : List Cand} {limit : ℕ} (hlimit : 1 ≤ limit)
    (hz : z ∈ cands.map (·.id)) : ∃ m ∈ (((favouring x pick z).rank cands).take limit).map finalize, m.id = z := by
  obtain ⟨c, hc, rfl⟩ := mem_map.1 hz
  have hmem : c ∈ cands.filter (·.id = c.id) := by simp [hc]
  obtain ⟨limit, rfl⟩ : ∃ l, limit = l + 1 := ⟨limit - 1, by omega⟩
  show ∃ m ∈ ((cands.filter (·.id = c.id) ++ cands.filter (·.id ≠ c.id)).take (limit + 1)).map finalize, m.id = c.id
  cases hlist : cands.filter (·.id = c.id) with
  | nil =>
    rw [hlist] at hmem
    simp at hmem
  | cons d rest =>
    have hd : d ∈ cands.filter (·.id = c.id) := by
      rw [hlist]
      exact mem_cons_self
    refine ⟨finalize d, by simp, ?_⟩
    simpa [finalize] using (mem_filter.1 hd).2

theorem not_respects_of_expanded {x z : Text} (pick : ℕ → EdgeRow) (hfilter : recallFilter scope req = some filter)
    (hhops : 1 ≤ hopsOf settings req) (hx : Matches g filter x) (hz : ¬Matches g filter z)
    (hexpand : ∀ c : Cand, c.id = x → z ∈ (graphExpand g (favouring x pick z) scope.isRestricted filter.realms
      (limitOf settings req) [c] (hopsOf settings req)).cands.map (·.id)) : ¬Respects g scope settings req := by
  intro hrespects
  obtain ⟨c, hcands, hc⟩ := candidates_favouring pick (z := z) hx
  obtain ⟨m, hm, rfl⟩ := exists_mem_take_rank (x := x) pick (le_max_left 1 _) (hexpand c hc)
  refine hz (hrespects (favouring x pick m.id) filter hfilter m ?_)
  unfold retrieve
  rw [if_neg (show ¬(!(favouring x pick m.id).ready) = true from Bool.false_ne_true), hfilter]
  dsimp only
  rw [hcands, if_pos (by simp [hhops])]
  exact hm

/-- What is no match, and survives within two hops of one, has a neighbour like that next to a match, or lies behind a
memory next to a match that does not survive. -/
theorem near_cases {restricted : Bool} {n : ℕ} {y : Text} (hn : n ≤ 2) (hnear : Near g filter n y)
    (hno : ¬Matches g filter y) (hs : Survives g restricted filter.realms y) : 1 ≤ n ∧
      ((∃ x z, Matches g filter x ∧ isMemory z = true ∧ ¬Matches g filter z ∧ Survives g restricted filter.realms z ∧
          ∃ e ∈ g.edges, permitted filter.realms e = true ∧ Joins e x z) ∨
        n = 2 ∧ isMemory y = true ∧ ∃ x w, Matches g filter x ∧ isMemory w = true ∧ ¬Matches g filter w ∧
          ¬Survives g restricted filter.realms w ∧ (∃ e ∈ g.edges, permitted filter.realms e = true ∧ Joins e x w) ∧
          ∃ e ∈ g.edges, permitted filter.realms e = true ∧ Joins e w y) := by
  have hone : ∀ v, Near g filter 1 v → Matches g filter v ∨ isMemory v = true ∧ ∃ x, Matches g filter x ∧
      ∃ e ∈ g.edges, permitted filter.realms e = true ∧ Joins e x v := fun v hv => hv
  obtain rfl | rfl | rfl : n = 0 ∨ n = 1 ∨ n = 2 := by omega
  · exact absurd hnear hno
  · obtain hmatch | ⟨hy, x, hx, he⟩ := hone y hnear
    · exact absurd hmatch hno
    · exact ⟨Nat.le_refl 1, .inl ⟨x, y, hx, hy, hno, hs, he⟩⟩
  · refine ⟨Nat.le_succ 1, ?_⟩
    obtain hnear | ⟨hy, w, hw, he⟩ : Near g filter 1 y ∨ isMemory y = true ∧ ∃ x, Near g filter 1 x ∧
        ∃ e ∈ g.edges, permitted filter.realms e = true ∧ Joins e x y := hnear
    · obtain hmatch | ⟨hy, x, hx, he⟩ := hone y hnear
      · exact absurd hmatch hno
      · exact .inl ⟨x, y, hx, hy, hno, hs, he⟩
    · obtain hmatch | ⟨hmem, x, hx, hxw⟩ := hone w hw
      · exact .inl ⟨w, y, hmatch, hy, hno, hs, he⟩
      · by_cases hwm : Matches g filter w
        · exact .inl ⟨w, y, hwm, hy, hno, hs, he⟩
        · by_cases hws : Survives g restricted filter.realms w
          · exact .inl ⟨x, w, hx, hmem, hwm, hws, hxw⟩
          · exact .inr ⟨rfl, hy, x, w, hx, hmem, hwm, hws, hxw, he⟩

theorem closed_of_respects (h : Respects g scope settings req) : Closed g scope settings req := by
  intro filter hfilter y hnear hs
  by_contra hno
  have hhops : hopsOf settings req ≤ 2 := min_le_right _ _
  obtain ⟨hpos, ⟨x, z, hx, hz, hzno, hzs, e, he, hper, hjoin⟩ |
    ⟨htwo, hy, x, w, hx, hw, hwno, hws, ⟨e, he, hper, hjoin⟩, e', he', hper', hjoin'⟩⟩ :=
    near_cases hhops hnear hno hs
  · refine not_respects_of_expanded (fun _ => e) hfilter hpos hx hzno (fun c hc => ?_) h
    obtain ⟨k, hk⟩ : ∃ k, hopsOf settings req = k + 1 := ⟨hopsOf settings req - 1, by omega⟩
    rw [hk]
    exact mem_expand_one he hper (hc ▸ hjoin) hz hzs
  · have hres : scope.isRestricted = true := by
      by_contra hfree
      exact hws fun hr => absurd hr hfree
    have hwx : w ≠ x := fun heq => hwno (heq ▸ hx)
    refine not_respects_of_expanded (fun d => if d = 1 then e else e') hfilter hpos hx hno (fun c hc => ?_) h
    subst hc
    rw [hres] at hs hws ⊢
    rw [htwo]
    exact mem_expand_two he hper hjoin hw hwx hws he' hper' hjoin' hy hs

/-- **Recalls respect their filter if and only if what survives within their hops of a match is a match.** -/
theorem respects_iff (g : MemoryGraph) (scope : RealmScope) (settings : MemorySettings) (req : RetrieveRequest) :
    Respects g scope settings req ↔ Closed g scope settings req :=
  ⟨closed_of_respects, respects_of_closed⟩

end Respect

/-! #### An archived memory -/

/-- A note of the realm `work`. -/
def note (id status : Text) : NodeRow where
  id := id
  realm := some "work".toList
  memoryType := some "fact".toList
  title := none
  contentPreview := none
  tags := none
  importance := some 1
  status := some status
  createdAt := none
  updatedAt := none
  validAt := none
  invalidAt := none
  space := none

def oldNote : Text := "memory:old".toList

def newNote : Text := "memory:new".toList

def archivedNeighbour : MemoryGraph :=
  .of [note newNote "active".toList, note oldNote "archived".toList]
    [⟨some newNote, some oldNote, some "REFERENCES".toList, some "work".toList, none⟩]

def plainRequest : RetrieveRequest where
  realms := []
  memoryType := none
  tags := []
  importanceMin := none
  asOf := none
  includeInvalidated := false
  limit := none
  expandHops := none
  spaceAgent := none

/-- A recall with the defaults, eight memories and one hop, returns the archived note beside the other one. -/
theorem returns_archived : ¬Respects archivedNeighbour none ⟨8, 1⟩ plainRequest := by
  intro h
  have hplain := h (favouring newNote (fun _ => ⟨some newNote, some oldNote, some "REFERENCES".toList,
    some "work".toList, none⟩) oldNote) _ rfl
  obtain ⟨row, hrow, hsat⟩ := hplain
    (finalize (hydrate (graphCand oldNote newNote "REFERENCES".toList 1) (note oldNote "archived".toList))) (by decide)
  cases hrow
  revert hsat
  decide

end Recall
