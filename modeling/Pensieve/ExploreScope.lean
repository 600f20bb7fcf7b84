/-
**The sources an explore request reads.**

An explore request names its sources by a scope: everything, a list of `db.table` patterns, or a
saved view.  The scope is resolved against the catalog of the caller's tenant.
-/

import Pensieve.Arrow
import Pensieve.CatalogTypes
import Pensieve.SearchGrammar

namespace Discover

open List
open Catalog (TenantId)

/-! ### Principals -/

inductive Role
  | read
  | write
  | admin
  deriving DecidableEq

def Role.rank : Role → ℕ
  | .read => 0
  | .write => 1
  | .admin => 2

structure Principal where
  tenant : TenantId
  role : Role
  subject : Option Text
  /-- `none` is unrestricted. -/
  allowedDatabases : Option (List Text)
  deriving DecidableEq

def Principal.allows (p : Principal) (db : Text) : Bool :=
  match p.allowedDatabases with
  | none => true
  | some allowed => allowed.any (· = db)

/-! ### Scopes -/

inductive Scope
  | all
  | sources (sources : List Text)
  | view (viewId : Text)
  deriving DecidableEq

structure TableRef where
  name : Text
  schema : Arrow.Schema
  deriving DecidableEq

structure ResolvedSource where
  db : Text
  table : TableRef
  deriving DecidableEq

inductive ScopeError
  | scopeTooLarge (n max : ℕ)
  | viewNotFound (viewId : Text)
  | catalog (message : String)
  deriving DecidableEq

/-- What a request finds: the listings of the catalog, the saved views of a tenant and an owner if there is a
pool to look them up in, and the value of `PENSIEVE_DISCOVER_MAX_SOURCES`. -/
structure Server where
  listDatabases : TenantId → Except String (List Text)
  listTables : TenantId → Text → Except String (List TableRef)
  savedViews : Option (TenantId → Text → Text → Except String (Option (List Text)))
  maxSources : Option ℕ

def defaultMaxSources : ℕ := 200

def Server.cap (v : Server) : ℕ := v.maxSources.getD defaultMaxSources

def internalDatabases : List Text := ["memory".toList]

def segMatch (pat value : Text) : Bool := pat = ['*'] || pat = value

def matchesPattern (pattern db table : Text) : Bool :=
  match pattern.span (· ≠ '.') with
  | (_, []) => false
  | (pDb, _ :: pTbl) => segMatch pDb db && segMatch pTbl table

def included (scopeIsAll : Bool) (patterns : List Text) (db table : Text) : Bool :=
  if scopeIsAll && internalDatabases.contains db then false
  else patterns.any fun p => matchesPattern p db table

def Scope.isAll : Scope → Bool
  | .all => true
  | _ => false

def Scope.patterns (lookup : Option (Text → Except String (Option (List Text)))) : Scope → Except ScopeError (List Text)
  | .all => .ok ["*.*".toList]
  | .sources list => .ok list
  | .view viewId =>
    match lookup with
    | none => .error (.viewNotFound viewId)
    | some loadSources =>
      match loadSources viewId with
      | .error e => .error (.catalog e)
      | .ok none => .error (.viewNotFound viewId)
      | .ok (some srcs) => .ok srcs

def pushTables (keep : Text → Bool) (max : ℕ) (db : Text) :
    List TableRef → List ResolvedSource → Except ScopeError (List ResolvedSource)
  | [], out => .ok out
  | t :: ts, out =>
    if ¬keep t.name = true then pushTables keep max db ts out
    else
      let out := out ++ [ResolvedSource.mk db t]
      if max < out.length then .error (.scopeTooLarge out.length max) else pushTables keep max db ts out

def pushDatabases (listTables : Text → Except String (List TableRef)) (keep : Text → Text → Bool) (max : ℕ) :
    List Text → List ResolvedSource → Except ScopeError (List ResolvedSource)
  | [], out => .ok out
  | db :: dbs, out =>
    match listTables db with
    | .error _ => pushDatabases listTables keep max dbs out
    | .ok ts =>
      match pushTables (keep db) max db ts out with
      | .error e => .error e
      | .ok out' => pushDatabases listTables keep max dbs out'

def resolve (scope : Scope) (tenant : TenantId) (v : Server)
    (lookup : Option (Text → Except String (Option (List Text)))) (max : ℕ) : Except ScopeError (List ResolvedSource) :=
  match scope.patterns lookup with
  | .error e => .error e
  | .ok patterns =>
    match v.listDatabases tenant with
    | .error e => .error (.catalog e)
    | .ok dbs => pushDatabases (v.listTables tenant) (included scope.isAll patterns) max dbs []

def Server.lookup (v : Server) (p : Principal) : Option (Text → Except String (Option (List Text))) :=
  match p.subject, v.savedViews with
  | some s, some views => some (views p.tenant s)
  | _, _ => none

/-! ### Requests -/

structure TimeRange where
  fromMs : Int
  toMs : Int
  deriving DecidableEq

structure TimeRangeBody where
  start : Text
  stop : Text
  deriving DecidableEq

/-- The body of a search request, of a `subscribe` and of an `update`. -/
structure SearchRequest where
  query : Text
  scope : Scope
  timeRange : Option TimeRangeBody
  perSourceLimit : Option ℕ
  deriving DecidableEq

def defaultPerSourceLimit : ℕ := 500

def maxPerSourceLimit : ℕ := 5000

def SearchRequest.limit (r : SearchRequest) : ℕ :=
  max 1 (min (r.perSourceLimit.getD defaultPerSourceLimit) maxPerSourceLimit)

/-- `parse_time_range`, over the reader of RFC 3339 timestamps. -/
def parseTimeRange (rfc3339 : Text → Except String Int) (tr : TimeRangeBody) : Except String TimeRange :=
  match rfc3339 tr.start with
  | .error e => .error ("from: " ++ e)
  | .ok fromMs =>
    match rfc3339 tr.stop with
    | .error e => .error ("to: " ++ e)
    | .ok toMs =>
      if toMs ≤ fromMs then .error "time_range.to must be greater than time_range.from"
      else .ok ⟨fromMs, toMs⟩

def SearchRequest.range (rfc3339 : Text → Except String Int) (r : SearchRequest) : Except String (Option TimeRange) :=
  match r.timeRange with
  | none => .ok none
  | some tr => (parseTimeRange rfc3339 tr).map some

structure CodedError where
  code : String
  message : String
  deriving DecidableEq

def ScopeError.coded : ScopeError → CodedError
  | .scopeTooLarge n max =>
    ⟨"scope_too_large", s!"scope resolves to {n} sources, exceeds max {max}"⟩
  | .viewNotFound viewId => ⟨"view_not_found", s!"saved view {String.ofList viewId} not found"⟩
  | .catalog message => ⟨"catalog_error", message⟩

structure FanoutInput where
  sources : List ResolvedSource
  clauses : List (Clause Text)
  timeRange : Option TimeRange
  perSourceLimit : ℕ
  deriving DecidableEq

variable (rfc3339 : Text → Except String Int)

/-- **The HTTP search**, from the body of the request to the fanout. -/
def discoverSearchHandler (v : Server) (p : Principal) (payload : SearchRequest) : Except CodedError FanoutInput :=
  match parse payload.query with
  | .error e => .error ⟨"grammar_error", e.text⟩
  | .ok clauses =>
    match payload.range rfc3339 with
    | .error msg => .error ⟨"bad_time_range", msg⟩
    | .ok timeRange =>
      match resolve payload.scope p.tenant v (v.lookup p) v.cap with
      | .error e => .error e.coded
      | .ok resolved =>
        .ok ⟨resolved.filter fun src => p.allows src.db, clauses, timeRange, payload.limit⟩

theorem allowed_of_search {v : Server} {p : Principal} {r : SearchRequest} {f : FanoutInput}
    (h : discoverSearchHandler rfc3339 v p r = .ok f) : ∀ s ∈ f.sources, p.allows s.db = true := by
  rw [discoverSearchHandler] at h
  split at h
  · cases h
  · split at h
    · cases h
    · split at h
      · cases h
      · cases h
        intro s hs
        exact (mem_filter.1 hs).2

/-! ### What the resolver returns -/

def keptTables (listTables : Text → Except String (List TableRef)) (keep : Text → Text → Bool) (db : Text) :
    List ResolvedSource :=
  match listTables db with
  | .error _ => []
  | .ok ts => (ts.filter fun t => keep db t.name).map (.mk db)

theorem pushTables_eq {keep : Text → Bool} {max : ℕ} {db : Text} {ts : List TableRef}
    {out : List ResolvedSource} (hout : out.length ≤ max) :
    pushTables keep max db ts out =
      if (out ++ (ts.filter fun t => keep t.name).map (ResolvedSource.mk db)).length ≤ max then
        .ok (out ++ (ts.filter fun t => keep t.name).map (ResolvedSource.mk db))
      else .error (.scopeTooLarge (max + 1) max) := by
  induction ts generalizing out with
  | nil =>
    rw [pushTables, filter_nil, map_nil, append_nil, if_pos hout]
  | cons t ts ih =>
    rw [pushTables]
    by_cases hkeep : keep t.name = true
    · rw [if_neg (not_not.2 hkeep), filter_cons_of_pos (by exact hkeep), map_cons, append_cons out _ (List.map _ _)]
      dsimp only
      by_cases hmax : max < (out ++ [ResolvedSource.mk db t]).length
      · have hlen : (out ++ [ResolvedSource.mk db t]).length = max + 1 := by
          rw [length_append, length_singleton] at hmax ⊢
          omega
        rw [if_pos hmax, if_neg, hlen]
        rw [length_append]
        omega
      · rw [if_neg hmax, ih (not_lt.1 hmax)]
    · rw [if_pos hkeep, filter_cons_of_neg (by exact hkeep), ih hout]

theorem pushDatabases_eq {listTables : Text → Except String (List TableRef)} {keep : Text → Text → Bool}
    {max : ℕ} {dbs : List Text} {out : List ResolvedSource} (hout : out.length ≤ max) :
    pushDatabases listTables keep max dbs out = if (out ++ dbs.flatMap (keptTables listTables keep)).length ≤ max then
        .ok (out ++ dbs.flatMap (keptTables listTables keep))
      else .error (.scopeTooLarge (max + 1) max) := by
  induction dbs generalizing out with
  | nil =>
    rw [pushDatabases, flatMap_nil, append_nil, if_pos hout]
  | cons db dbs ih =>
    rw [pushDatabases, flatMap_cons, keptTables]
    cases hts : listTables db with
    | error e =>
      rw [nil_append]
      exact ih hout
    | ok ts =>
      dsimp only
      rw [pushTables_eq hout, ← append_assoc]
      by_cases hle : (out ++ (ts.filter fun t => keep db t.name).map (ResolvedSource.mk db)).length ≤ max
      · rw [if_pos hle]
        exact ih hle
      · rw [if_neg hle, if_neg]
        rw [length_append]
        omega

/-- **The tables that a scope covers**, for a principal; none, where it has no patterns or no databases are
listed. -/
def selected (v : Server) (p : Principal) (scope : Scope) : List ResolvedSource :=
  match scope.patterns (v.lookup p), v.listDatabases p.tenant with
  | .ok patterns, .ok dbs =>
    dbs.flatMap (keptTables (v.listTables p.tenant) (included scope.isAll patterns))
  | _, _ => []

def scopeError (v : Server) (p : Principal) (scope : Scope) : Option ScopeError :=
  match scope.patterns (v.lookup p), v.listDatabases p.tenant with
  | .error e, _ => some e
  | .ok _, .error e => some (.catalog e)
  | .ok _, .ok _ => none

theorem resolve_eq (v : Server) (p : Principal) (scope : Scope) (max : ℕ) : resolve scope p.tenant v (v.lookup p) max =
      match scopeError v p scope with
      | some e => .error e
      | none =>
        if (selected v p scope).length ≤ max then .ok (selected v p scope)
        else .error (.scopeTooLarge (max + 1) max) := by
  rw [resolve, scopeError, selected]
  cases scope.patterns (v.lookup p) with
  | error e => rfl
  | ok patterns =>
    cases v.listDatabases p.tenant with
    | error e => rfl
    | ok dbs => exact pushDatabases_eq (Nat.zero_le _)

end Discover
