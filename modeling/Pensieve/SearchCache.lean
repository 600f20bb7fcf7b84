/-
**The result cache of the unified search.**

A data search looks for its page in a process-wide cache, under the hash of tenant, query, scope,
page and time range.  On a miss it resolves the scope to the sources of the tenant, keeps those in
the databases that its principal may read, searches them and caches the page for a short time.
-/

import Mathlib.Data.List.AList
import Mathlib.Data.List.Sort
import Pensieve.Runs

namespace Search

open List

/-! ### Requests -/

inductive Scope where
  | all
  | sources (sources : List String)
  | view (viewId : String)
  deriving DecidableEq

structure Request where
  query : String
  scope : Scope
  limit : Option ℕ
  offset : Option ℕ
  timeRange : Option (String × String)
  deriving DecidableEq

structure Principal where
  tenant : String
  /-- `none` is no restriction -/
  allowedDatabases : Option (List String)
  deriving DecidableEq

structure ResolvedSource where
  db : String
  table : String
  deriving DecidableEq

/-- A row of a page; its source is rendered as `db.table`. -/
structure Hit (F R : Type) where
  source : ResolvedSource
  score : F
  row : R
  deriving DecidableEq

variable {F R : Type}

/-- What a search finds: how many sources it may have, the databases of the tenant with their tables
(`none`: they cannot be listed), which instants are well formed, the rows of a source, and the scores
of a reranker, if there is one and it answers. -/
structure World (F R : Type) where
  maxSources : ℕ
  databases : List (String × Option (List String))
  parseTimeRange : String × String → Option (ℤ × ℤ)
  searchOneSource : ResolvedSource → String → Option (ℤ × ℤ) → List (F × R)
  rerank : Option (String → List (Hit F R) → Option (List F))

/-! ### A search without the cache -/

def internalDatabases : List String := ["memory"]

def splitDot : List Char → Option (List Char × List Char)
  | [] => none
  | c :: cs => if c = '.' then some ([], cs) else (splitDot cs).map fun q => (c :: q.1, q.2)

def segMatch (pat : List Char) (value : String) : Bool := pat = ['*'] || pat = value.toList

def matchesPattern (pattern db table : String) : Bool :=
  match splitDot pattern.toList with
  | none => false
  | some (pDb, pTbl) => segMatch pDb db && segMatch pTbl table

def included (scopeIsAll : Bool) (patterns : List String) (db table : String) : Bool :=
  if scopeIsAll && internalDatabases.contains db then false
  else patterns.any fun p => matchesPattern p db table

def defaultMaxSources : ℕ := 200

def resolve (maxSources : ℕ) (databases : List (String × Option (List String))) : Scope → Option (List ResolvedSource)
  | .view _ => none
  | .all => cap (sourcesOf true ["*.*"])
  | .sources patterns => cap (sourcesOf false patterns)
where
  sourcesOf (scopeIsAll : Bool) (patterns : List String) : List ResolvedSource :=
    databases.flatMap fun (db, tables) =>
      ((tables.getD []).filter (included scopeIsAll patterns db)).map (ResolvedSource.mk db)
  cap (out : List ResolvedSource) : Option (List ResolvedSource) :=
    if out.length > maxSources then none else some out

/-- The instants of a request: `none` fails it, `some none` is no restriction. -/
def parseTimeRange (w : World F R) : Option (String × String) → Option (Option (ℤ × ℤ))
  | none => some none
  | some range => (w.parseTimeRange range).map some

def retain (allowed : Option (List String)) (sources : List ResolvedSource) : List ResolvedSource :=
  match allowed with
  | some list => sources.filter fun s => list.contains s.db
  | none => sources

section Ranking

variable [LE F] [DecidableLE F]

def sortByScore (hits : List (Hit F R)) : List (Hit F R) := hits.insertionSort fun a b => b.score ≤ a.score

def rerankCandidates : ℕ := 50

def applyRerankScores (head : List (Hit F R)) (scores : List F) (limit : ℕ) : List (Hit F R) :=
  let scored := (scores.zip head).insertionSort fun a b => b.1 ≤ a.1
  (scored.take limit).map fun q => { q.2 with score := q.1 }

def rerankStage (rerank : Option (String → List (Hit F R) → Option (List F))) (query : String)
    (hits : List (Hit F R)) (limit : ℕ) : List (Hit F R) :=
  match rerank with
  | none => hits.take limit
  | some f =>
    let head := hits.take (min hits.length (max rerankCandidates limit))
    match f query head with
    | some scores =>
      if scores.length = head.length then applyRerankScores head scores limit
      else head.take limit
    | none => head.take limit

def searchData (w : World F R) (sources : List ResolvedSource) (query : String)
    (timeRange : Option (ℤ × ℤ)) (limit : ℕ) : List (Hit F R) :=
  let hits := sources.flatMap fun s =>
    (w.searchOneSource s query timeRange).map fun q => ⟨s, q.1, q.2⟩
  rerankStage w.rerank query (sortByScore hits) limit

def defaultLimit : ℕ := 50

def maxLimit : ℕ := 500

def Request.clamped (r : Request) : ℕ := max 1 (min (r.limit.getD defaultLimit) maxLimit)

/-- The page of a request; `finished` lists the sources in the order in which their legs finish. -/
def computePage (w : World F R) (r : Request) (timeRange : Option (ℤ × ℤ))
    (finished : List ResolvedSource) : List (Hit F R) :=
  let offset := r.offset.getD 0
  let fetch := min (offset + r.clamped) (maxLimit * 4)
  ((searchData w finished r.query timeRange fetch).drop offset).take r.clamped

end Ranking

/-! ### The cache -/

/-- A cached page.  No operation reads the list under which it was computed; the condition on runs
does. -/
structure Entry (F R : Type) where
  at_ : ℕ
  rows : List (Hit F R)
  sourcesSearched : ℕ
  list : Option (List String)

abbrev Store (F R : Type) := AList fun _ : String => Entry F R

def maxEntries : ℕ := 4096

section Store

variable (hash : String → String) (debugScope : Scope → String)
  (debugRange : Option (String × String) → String) (ttl : ℕ)

/-- `{tenant}\u{1}{query}\u{1}{scope}\u{1}{limit}\u{1}{offset}\u{1}{time range}`, hashed. -/
def key (tenant : String) (r : Request) : String :=
  hash (tenant ++ "\u0001" ++ r.query ++ "\u0001" ++ debugScope r.scope ++ "\u0001" ++
    toString r.clamped ++ "\u0001" ++ toString (r.offset.getD 0) ++ "\u0001" ++
    debugRange r.timeRange)

def get (store : Store F R) (k : String) (now : ℕ) : Option (Entry F R) :=
  if ttl = 0 then none
  else match store.lookup k with
    | some e => if now - e.at_ > ttl then none else some e
    | none => none

def put (store : Store F R) (k : String) (e : Entry F R) : Store F R :=
  if ttl = 0 then store
  else ((if store.keys.length ≥ maxEntries then ∅ else store).insert k e)

/-! ### Searches -/

structure Answer (F R : Type) where
  principal : Principal
  request : Request
  rows : List (Hit F R)
  sourcesSearched : ℕ

/-- A page that was computed: in which world, for whom, with which result. -/
structure Computed (F R : Type) where
  world : World F R
  principal : Principal
  request : Request
  finished : List ResolvedSource
  rows : List (Hit F R)
  sourcesSearched : ℕ

structure State (F R : Type) where
  store : Store F R
  pending : List (Principal × Request)
  computed : List (Computed F R)
  answers : List (Answer F R)

def init : State F R := ⟨∅, [], [], []⟩

inductive Act (F R : Type) where
  | lookup (p : Principal) (r : Request) (now : ℕ)
  | complete (p : Principal) (r : Request) (w : World F R) (finished : List ResolvedSource) (now : ℕ)

variable [LE F] [DecidableLE F]

def step (s : State F R) : Act F R → Option (State F R)
  | .lookup p r now =>
    match get ttl s.store (key hash debugScope debugRange p.tenant r) now with
    | some e => some { s with answers := s.answers ++ [⟨p, r, e.rows, e.sourcesSearched⟩] }
    | none => some { s with pending := s.pending ++ [(p, r)] }
  | .complete p r w finished now =>
    if (p, r) ∈ s.pending then
      match parseTimeRange w r.timeRange, resolve w.maxSources w.databases r.scope with
      | some range, some sources =>
        if finished.Perm (retain p.allowedDatabases sources) then
          let rows := computePage w r range finished
          some
            { store := put ttl s.store (key hash debugScope debugRange p.tenant r)
                ⟨now, rows, finished.length, p.allowedDatabases⟩
              pending := s.pending.erase (p, r)
              computed := s.computed ++ [⟨w, p, r, finished, rows, finished.length⟩]
              answers := s.answers ++ [⟨p, r, rows, finished.length⟩] }
        else none
      -- the request fails
      | _, _ => some { s with pending := s.pending.erase (p, r) }
    else none

/-- **Only pages of the own list**: what the lookup finds was stored under the list of the principal
who looks it up. -/
def SameList (s : State F R) : Act F R → Prop
  | .lookup p r now => ∀ e ∈ get ttl s.store (key hash debugScope debugRange p.tenant r) now,
      e.list = p.allowedDatabases
  | .complete _ _ _ _ _ => True

end Store

/-! ### What an answer shows -/

def Permitted (p : Principal) (rows : List (Hit F R)) : Prop :=
  ∀ list, p.allowedDatabases = some list → ∀ h ∈ rows, h.source.db ∈ list

section Pages

variable [LE F] [DecidableLE F]

def Computed.Honest (c : Computed F R) : Prop :=
  ∃ range sources, parseTimeRange c.world c.request.timeRange = some range ∧
    resolve c.world.maxSources c.world.databases c.request.scope = some sources ∧
    c.finished.Perm (retain c.principal.allowedDatabases sources) ∧
    c.rows = computePage c.world c.request range c.finished ∧
    c.sourcesSearched = c.finished.length

theorem mem_rerankStage {rerank : Option (String → List (Hit F R) → Option (List F))}
    {query : String} {hits : List (Hit F R)} {limit : ℕ} {h : Hit F R}
    (hmem : h ∈ rerankStage rerank query hits limit) : ∃ h' ∈ hits, h'.source = h.source := by
  unfold rerankStage at hmem
  cases rerank with
  | none => exact ⟨h, mem_of_mem_take hmem, rfl⟩
  | some f =>
    have hhead : ∀ h' ∈ hits.take (min hits.length (max rerankCandidates limit)), h' ∈ hits :=
      fun h' hh => mem_of_mem_take hh
    simp only at hmem
    split at hmem
    · split at hmem
      · -- a reranked row keeps its source
        obtain ⟨q, hq, rfl⟩ := mem_map.mp hmem
        have hzip := (mem_insertionSort _).mp (mem_of_mem_take hq)
        exact ⟨q.2, hhead q.2 (of_mem_zip hzip).2, rfl⟩
      · exact ⟨h, hhead h (mem_of_mem_take hmem), rfl⟩
    · exact ⟨h, hhead h (mem_of_mem_take hmem), rfl⟩

theorem source_of_mem_computePage {w : World F R} {r : Request} {range : Option (ℤ × ℤ)}
    {finished : List ResolvedSource} {h : Hit F R} (hmem : h ∈ computePage w r range finished) :
    h.source ∈ finished := by
  have hdata := mem_of_mem_drop (mem_of_mem_take hmem)
  obtain ⟨h', hsorted, hsource⟩ := mem_rerankStage hdata
  obtain ⟨s, hs, hrow⟩ := mem_flatMap.mp ((mem_insertionSort _).mp hsorted)
  obtain ⟨q, -, rfl⟩ := mem_map.mp hrow
  exact hsource ▸ hs

theorem mem_retain {list : List String} {sources : List ResolvedSource} {s : ResolvedSource}
    (hs : s ∈ retain (some list) sources) : s.db ∈ list := by
  simpa using (mem_filter.mp hs).2

theorem Computed.Honest.permitted {c : Computed F R} (h : c.Honest) {p : Principal}
    (hlist : c.principal.allowedDatabases = p.allowedDatabases) : Permitted p c.rows := by
  obtain ⟨range, sources, -, -, hperm, hrows, -⟩ := h
  intro list hp hit hmem
  rw [hrows] at hmem
  have hsource := hperm.mem_iff.mp (source_of_mem_computePage hmem)
  rw [hlist, hp] at hsource
  exact mem_retain hsource

end Pages

section Runs

variable {hash : String → String} {debugScope : Scope → String}
  {debugRange : Option (String × String) → String} {ttl : ℕ}

theorem mem_get {store : Store F R} {k : String} {now : ℕ} {e : Entry F R}
    (h : e ∈ get ttl store k now) : store.lookup k = some e := by
  unfold get at h
  split at h
  · cases h
  · split at h
    · rename_i e' hlookup
      split at h
      · cases h
      · rw [hlookup]
        exact h
    · cases h

theorem lookup_put {store : Store F R} {k k' : String} {e e' : Entry F R}
    (h : (put ttl store k e).lookup k' = some e') : (k' = k ∧ e' = e) ∨ store.lookup k' = some e' := by
  unfold put at h
  split at h
  · exact .inr h
  · by_cases hk : k' = k
    · subst hk
      rw [AList.lookup_insert] at h
      exact .inl ⟨rfl, (Option.some.inj h).symm⟩
    · rw [AList.lookup_insert_ne hk] at h
      split at h
      · rw [AList.lookup_empty] at h
        cases h
      · exact .inr h

variable [LE F] [DecidableLE F]

/-- **What an answer depends on**: its rows are a page that was computed, under the list of its own
principal, for a request with the same key. -/
def Own (hash : String → String) (debugScope : Scope → String)
    (debugRange : Option (String × String) → String) (computed : List (Computed F R)) (a : Answer F R) : Prop :=
  ∃ c ∈ computed, c.Honest ∧ c.principal.allowedDatabases = a.principal.allowedDatabases ∧
    key hash debugScope debugRange c.principal.tenant c.request =
      key hash debugScope debugRange a.principal.tenant a.request ∧
    c.rows = a.rows ∧ c.sourcesSearched = a.sourcesSearched

structure Inv (hash : String → String) (debugScope : Scope → String)
    (debugRange : Option (String × String) → String) (s : State F R) : Prop where
  stored : ∀ k e, s.store.lookup k = some e → ∃ c ∈ s.computed, c.Honest ∧ c.principal.allowedDatabases = e.list ∧
    key hash debugScope debugRange c.principal.tenant c.request = k ∧ c.rows = e.rows ∧
    c.sourcesSearched = e.sourcesSearched
  answered : ∀ a ∈ s.answers, Own hash debugScope debugRange s.computed a

theorem inv_init : Inv hash debugScope debugRange (init : State F R) where
  stored := fun k e h => by
    rw [init, AList.lookup_empty] at h
    cases h
  answered := fun a ha => absurd ha not_mem_nil

theorem inv_step {s s' : State F R} {a : Act F R} (h : Inv hash debugScope debugRange s)
    (hok : SameList hash debugScope debugRange ttl s a) (hstep : step hash debugScope debugRange ttl s a = some s') :
    Inv hash debugScope debugRange s' := by
  cases a with
  | lookup p r now =>
    simp only [step] at hstep
    split at hstep
    · rename_i e he
      cases hstep
      refine ⟨h.stored, fun a ha => ?_⟩
      rcases mem_append.mp ha with ha | ha
      · exact h.answered a ha
      · obtain rfl := mem_singleton.mp ha
        obtain ⟨c, hc, hhonest, hlist, hkey, hrows, hn⟩ := h.stored _ e (mem_get he)
        exact ⟨c, hc, hhonest, hlist.trans (hok e he), hkey, hrows, hn⟩
    · cases hstep
      exact ⟨h.stored, h.answered⟩
  | complete p r w finished now =>
    simp only [step] at hstep
    split at hstep
    · split at hstep
      · rename_i range sources hrange hsources
        split at hstep
        · rename_i hperm
          cases hstep
          have hhonest : Computed.Honest (F := F)
              ⟨w, p, r, finished, computePage w r range finished, finished.length⟩ :=
            ⟨range, sources, hrange, hsources, hperm, rfl, rfl⟩
          constructor
          · intro k e he
            rcases lookup_put he with ⟨rfl, rfl⟩ | hold
            · exact ⟨_, mem_append_right _ (mem_singleton_self _), hhonest, rfl, rfl, rfl, rfl⟩
            · obtain ⟨c, hc, hrest⟩ := h.stored k e hold
              exact ⟨c, mem_append_left _ hc, hrest⟩
          · intro a ha
            rcases mem_append.mp ha with ha | ha
            · obtain ⟨c, hc, hrest⟩ := h.answered a ha
              exact ⟨c, mem_append_left _ hc, hrest⟩
            · obtain rfl := mem_singleton.mp ha
              exact ⟨_, mem_append_right _ (mem_singleton_self _), hhonest, rfl, rfl, rfl, rfl⟩
        · cases hstep
      · cases hstep
        exact ⟨h.stored, h.answered⟩
    · cases hstep

end Runs

def admin : Principal := ⟨"00000000-0000-0000-0000-000000000000", none⟩

def analyst : Principal := ⟨"00000000-0000-0000-0000-000000000000", some ["public"]⟩

def needle : Request := ⟨"needle", .all, none, none, none⟩

def debugAll : Scope → String
  | .all => "All"
  | .sources _ => "Sources"
  | .view _ => "View"

def debugNone : Option (String × String) → String
  | none => "None"
  | some _ => "Some"

def digest (text : String) : String :=
  if text = "00000000-0000-0000-0000-000000000000\u0001needle\u0001All\u000150\u00010\u0001None" then
    "d5f3e124b5b10dda8ef59b998cd1dcca8192e68d5122d62b2255d26b62d454b4"
  else text

def twoDatabases : World ℕ String where
  maxSources := defaultMaxSources
  databases := [("public", some ["notes"]), ("secret", some ["notes"])]
  parseTimeRange := fun _ => none
  searchOneSource := fun s _ _ => [(1, s.db)]
  rerank := none

end Search
