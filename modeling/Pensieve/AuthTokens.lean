/-
**Tokens.**

The table `api_tokens` has the tokens of login sessions and those that were minted for tools, by the
hashes of their texts.

Main results:

* `Auth.lookupApiToken_eq_some`, `Auth.lookupRefreshToken_eq_some`, `Auth.dbAuthenticate_eq_ok` — what a lookup finds is
  a row of the table;
* `Auth.authenticate_of_not_live` — a token that is not live lets nobody in.
-/

import Pensieve.Rows
import Pensieve.TenantScope

namespace Auth

open List
open Catalog (TenantId Uuid)
open Discover (Text Role)
open Tenancy (trim defaultTenant)

/-! ### Principals and rows -/

/-- `Role::parse` -/
def parseRole (s : Text) : Option Role :=
  if trim s = "read".toList then some .read
  else if trim s = "write".toList then some .write
  else if trim s = "admin".toList then some .admin
  else none

/-- `none` of the databases or realms is no restriction. -/
structure Principal where
  tenant : TenantId
  role : Role
  subject : Option Text
  allowedDatabases : Option (List Text)
  allowedRealms : Option (List Text)
  deriving DecidableEq

inductive AuthError where
  | missingToken
  | unknownToken
  | backend (message : Text)
  deriving DecidableEq

inductive TokenKind where
  | session
  | api
  | access
  | refresh
  deriving DecidableEq

abbrev TokenHash := List UInt8

abbrev Instant := ℤ

structure TokenRow where
  tenantId : TenantId
  tokenHash : TokenHash
  scopes : Text
  subject : Option Text
  kind : TokenKind
  expiresAt : Option Instant
  revokedAt : Option Instant
  sessionId : Option Uuid
  deriving DecidableEq

/-- `revoked_at IS NULL AND (expires_at IS NULL OR expires_at > now())` -/
def TokenRow.live (row : TokenRow) (now : Instant) : Bool := row.revokedAt.isNone && row.expiresAt.all (now < ·)

structure TokenPrincipal where
  tenant : TenantId
  role : Text
  subject : Option Text
  deriving DecidableEq

structure RefreshClaim where
  tenant : TenantId
  role : Text
  subject : Option Text
  sessionId : Uuid
  deriving DecidableEq

def scopeRank (s : Text) : ℕ := if s = "admin".toList then 2 else if s = "write".toList then 1 else 0

def splitScopes (scopes : Text) : List Text := (scopes.splitOn ',').map trim

def highestScope (scopes : Text) : Text :=
  (((splitScopes scopes).filter (· ∈ ["admin".toList, "write".toList, "read".toList])).argmax scopeRank).getD
    "read".toList

/-! ### The calls of the catalog -/

def insertToken (row : TokenRow) (rows : List TokenRow) : Option (List TokenRow) :=
  if rows.any (·.tokenHash = row.tokenHash) then none else some (rows ++ [row])

def lookupApiToken (rows : List TokenRow) (now : Instant) (hash : TokenHash) : Option TokenPrincipal :=
  (rows.find? fun r => r.tokenHash = hash && r.kind ≠ .refresh && r.live now).map fun r =>
    ⟨r.tenantId, highestScope r.scopes, r.subject⟩

def lookupRefreshToken (rows : List TokenRow) (now : Instant) (hash : TokenHash) : Option RefreshClaim :=
  (rows.find? fun r => r.tokenHash = hash && r.kind = .refresh && r.live now).map fun r =>
    ⟨r.tenantId, highestScope r.scopes, r.subject, r.sessionId.getD 0⟩

def TokenRow.revoke (now : Instant) (row : TokenRow) : TokenRow := { row with revokedAt := some now }

def revokeApiToken (rows : List TokenRow) (now : Instant) (hash : TokenHash) : List TokenRow × Bool :=
  let hit (r : TokenRow) : Bool := r.tokenHash = hash && r.revokedAt.isNone
  (Rows.updateWhere hit (.revoke now) rows, rows.any hit)

def sessionOf (rows : List TokenRow) (hash : TokenHash) : Option Uuid :=
  (rows.find? (·.tokenHash = hash)).bind TokenRow.sessionId

def revokeSessionByToken (rows : List TokenRow) (now : Instant) (hash : TokenHash) : List TokenRow :=
  Rows.updateWhere (fun r => r.revokedAt.isNone &&
    (r.tokenHash = hash || (sessionOf rows hash).any fun s => r.sessionId = some s)) (.revoke now) rows

/-! ### Backends -/

/-- The backends: static keys with the tokens of the catalog, or the tokens of the database. -/
inductive Backend where
  | session (env : List (Text × Role))
  | db

def Backend.static : Backend → Text → Option Role
  | .session env, token => env.lookup token
  | .db, _ => none

variable (hashToken : Text → TokenHash)

/-- `SessionAuthBackend::authenticate` -/
def sessionAuthenticate (env : List (Text × Role)) (rows : List TokenRow) (now : Instant) (token : Text) :
    Except AuthError Principal :=
  match env.lookup token with
  | some role => .ok ⟨defaultTenant, role, none, none, none⟩
  | none =>
    match lookupApiToken rows now (hashToken token) with
    | some tp => .ok ⟨tp.tenant, (parseRole tp.role).getD .read, tp.subject, none, none⟩
    | none => .error .unknownToken

/-- `DbAuthBackend::authenticate` -/
def dbAuthenticate (rows : List TokenRow) (now : Instant) (token : Text) : Except AuthError Principal :=
  match rows.find? fun r => r.tokenHash = hashToken token && r.live now with
  | none => .error .unknownToken
  | some row =>
    match ((splitScopes row.scopes).filterMap parseRole).argmax Role.rank with
    | some role => .ok ⟨row.tenantId, role, row.subject, none, none⟩
    | none => .error (.backend ("api_tokens row has no parseable scope: ".toList ++ row.scopes))

def authenticate (backend : Backend) (rows : List TokenRow) (now : Instant) (token : Text) :
    Except AuthError Principal :=
  match backend with
  | .session env => sessionAuthenticate hashToken env rows now token
  | .db => dbAuthenticate hashToken rows now token

/-! ### What the calls find and change -/

variable {hashToken} {rows rows' : List TokenRow} {row : TokenRow} {now : Instant} {hash : TokenHash} {token : Text}

theorem insertToken_eq_some (h : insertToken row rows = some rows') :
    rows' = rows ++ [row] ∧ ∀ r ∈ rows, r.tokenHash ≠ row.tokenHash := by
  unfold insertToken at h
  split at h
  · cases h
  · rename_i hnew
    cases h
    refine ⟨rfl, fun r hr heq => hnew ?_⟩
    exact any_eq_true.2 ⟨r, hr, decide_eq_true heq⟩

theorem lookupApiToken_eq_some {tp : TokenPrincipal} (h : lookupApiToken rows now hash = some tp) :
    ∃ r ∈ rows, r.tokenHash = hash ∧ r.kind ≠ .refresh ∧ r.live now = true ∧
      tp = ⟨r.tenantId, highestScope r.scopes, r.subject⟩ := by
  obtain ⟨r, hfind, rfl⟩ := Option.map_eq_some_iff.1 h
  have hr := find?_some hfind
  simp only [Bool.and_eq_true, decide_eq_true_eq] at hr
  exact ⟨r, mem_of_find?_eq_some hfind, hr.1.1, hr.1.2, hr.2, rfl⟩

theorem lookupRefreshToken_eq_some {claim : RefreshClaim} (h : lookupRefreshToken rows now hash = some claim) :
    ∃ r ∈ rows, r.tokenHash = hash ∧ r.kind = .refresh ∧ r.live now = true ∧
      claim = ⟨r.tenantId, highestScope r.scopes, r.subject, r.sessionId.getD 0⟩ := by
  obtain ⟨r, hfind, rfl⟩ := Option.map_eq_some_iff.1 h
  have hr := find?_some hfind
  simp only [Bool.and_eq_true, decide_eq_true_eq] at hr
  exact ⟨r, mem_of_find?_eq_some hfind, hr.1.1, hr.1.2, hr.2, rfl⟩

theorem dbAuthenticate_eq_ok {p : Principal} (h : dbAuthenticate hashToken rows now token = .ok p) :
    ∃ r ∈ rows, r.tokenHash = hashToken token ∧ r.live now = true ∧ p.tenant = r.tenantId ∧
      p.role ∈ (splitScopes r.scopes).filterMap parseRole ∧ p.allowedDatabases = none ∧ p.allowedRealms = none := by
  unfold dbAuthenticate at h
  split at h
  · cases h
  · rename_i r hfind
    have hr := find?_some hfind
    simp only [Bool.and_eq_true, decide_eq_true_eq] at hr
    split at h
    · rename_i role hrole
      cases h
      exact ⟨r, mem_of_find?_eq_some hfind, hr.1, hr.2, rfl, argmax_mem hrole, rfl, rfl⟩
    · cases h

theorem exists_row_of_authenticate {backend : Backend} {p : Principal} (hstatic : backend.static token = none)
    (h : authenticate hashToken backend rows now token = .ok p) :
    ∃ r ∈ rows, r.tokenHash = hashToken token ∧ r.live now = true ∧ (r.kind = .refresh → backend = .db) := by
  cases backend with
  | session env =>
    have henv : env.lookup token = none := hstatic
    rw [authenticate, sessionAuthenticate, henv] at h
    dsimp only at h
    split at h
    · rename_i tp htp
      obtain ⟨r, hr, hhash, hkind, hlive, -⟩ := lookupApiToken_eq_some htp
      exact ⟨r, hr, hhash, hlive, fun hrefresh => absurd hrefresh hkind⟩
    · cases h
  | db =>
    obtain ⟨r, hr, hhash, hlive, -⟩ := dbAuthenticate_eq_ok h
    exact ⟨r, hr, hhash, hlive, fun _ => rfl⟩

theorem authenticate_of_not_live {backend : Backend} (hstatic : backend.static token = none)
    (h : ∀ r ∈ rows, r.tokenHash = hashToken token → r.live now = false) :
    authenticate hashToken backend rows now token = .error .unknownToken := by
  cases backend with
  | session env =>
    have henv : env.lookup token = none := hstatic
    rw [authenticate, sessionAuthenticate, henv]
    cases hlookup : lookupApiToken rows now (hashToken token) with
    | none => rfl
    | some tp =>
      obtain ⟨r, hr, hhash, -, hlive, -⟩ := lookupApiToken_eq_some hlookup
      rw [h r hr hhash] at hlive
      cases hlive
  | db =>
    have hnone : (rows.find? fun r => r.tokenHash = hashToken token && r.live now) = none := by
      refine find?_eq_none.2 fun r hr hlive => ?_
      rw [Bool.and_eq_true, decide_eq_true_eq] at hlive
      rw [h r hr hlive.1] at hlive
      cases hlive.2
    simp only [authenticate, dbAuthenticate, hnone]

end Auth
