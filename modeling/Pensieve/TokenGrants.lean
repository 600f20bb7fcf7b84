/-
**What a token grants.**

A principal may mint tokens for tools.  The token gets the lower of the role that is asked for and
the principal's own, but its row has no place for the databases and realms that the principal is
restricted to, and it is written for the default tenant whoever mints it.
-/

import Pensieve.AuthTokens
import Pensieve.Runs

namespace Auth

open List
open Catalog (TenantId Uuid Json)
open Discover (Text Role)
open Tenancy (trim defaultTenant)

variable {F : Type}

/-! ### Claims -/

structure OidcConfig where
  roleClaim : String
  subjectClaim : String
  databasesClaim : String
  realmsClaim : String

/-- `get` of a key. -/
def claim (claims : Json F) (key : String) : Option (Json F) :=
  match claims with
  | .obj fields => fields.lookup key
  | _ => none

def asStr : Json F → Option Text
  | .str s => some s.toList
  | _ => none

def asArray : Json F → Option (List (Json F))
  | .arr items => some items
  | _ => none

def realmsOf : List (Json F) → Option (List Text)
  | [] => some []
  | x :: xs =>
    match (asStr x).map trim with
    | some s => if s.isEmpty then none else (realmsOf xs).map (s :: ·)
    | none => none

def principalOfClaims (cfg : OidcConfig) (claims : Json F) : Except AuthError Principal :=
  let role := (((claim claims cfg.roleClaim).bind asStr).bind parseRole).getD .read
  let subject := (claim claims cfg.subjectClaim).bind asStr
  let databases := ((claim claims cfg.databasesClaim).bind asArray).map (·.filterMap asStr)
  match claim claims cfg.realmsClaim with
  | none => .ok ⟨defaultTenant, role, subject, databases, none⟩
  | some (.arr items) =>
    match realmsOf items with
    | some realms => .ok ⟨defaultTenant, role, subject, databases, some realms⟩
    | none => .error .unknownToken
  | some _ => .error .unknownToken

/-! ### Handlers -/

def roleText : Role → Text
  | .read => "read".toList
  | .write => "write".toList
  | .admin => "admin".toList

def minRole (a b : Role) : Role := if a.rank ≤ b.rank then a else b

structure CreateTokenRequest where
  name : Option Text
  role : Option Text
  expiresDays : Option ℤ

def secondsPerDay : ℤ := 86400

/-- `create_api_token_handler`: the row of the token. -/
def createApiToken (p : Principal) (body : CreateTokenRequest) (now : Instant) (hash : TokenHash) : TokenRow :=
  let requested := (body.role.bind parseRole).getD p.role
  let granted := minRole requested p.role
  let name := match (body.name.map trim).filter (· ≠ []) with
    | some name => some name
    | none => p.subject
  ⟨defaultTenant, hash, roleText granted, name, .api, body.expiresDays.map (now + secondsPerDay * ·), none, none⟩

def refreshRows (c : RefreshClaim) (access refresh : TokenHash) (accessExpiresAt refreshExpiresAt : Instant) :
    TokenRow × TokenRow :=
  (⟨defaultTenant, access, c.role, some (c.subject.getD []), .access, some accessExpiresAt, none, some c.sessionId⟩,
    ⟨defaultTenant, refresh, c.role, some (c.subject.getD []), .refresh, some refreshExpiresAt, none, some c.sessionId⟩)

/-- `list_api_tokens("api")` -/
def listApiTokens (rows : List TokenRow) : List TokenRow :=
  rows.filter fun r => r.tenantId = defaultTenant && r.kind = .api

/-! ### Requests -/

inductive Credential (F : Type) where
  | jwt (cfg : OidcConfig) (claims : Json F)
  | token (backend : Backend) (token : Text) (now : Instant)

/-- The table, the principal that each token goes back to, the rows that a principal was shown or has revoked, and the
principals of JWTs. -/
structure Grants (F : Type) where
  tokens : List TokenRow
  origins : List (TokenHash × Principal)
  touched : List (Principal × TokenRow)
  jwts : List (OidcConfig × Json F × Principal)

variable (hashToken : Text → TokenHash)

def principalOf (rows : List TokenRow) : Credential F → Except AuthError Principal
  | .jwt cfg claims => principalOfClaims cfg claims
  | .token backend token now => authenticate hashToken backend rows now token

def Grants.origin (s : Grants F) (hash : TokenHash) (p : Principal) : Principal := (s.origins.lookup hash).getD p

def Grants.root (s : Grants F) (p : Principal) : Credential F → Principal
  | .jwt _ _ => p
  | .token backend token _ => if (backend.static token).isSome then p else s.origin (hashToken token) p

def RefreshClaim.principal (c : RefreshClaim) : Principal :=
  ⟨c.tenant, (parseRole c.role).getD .read, c.subject, none, none⟩

inductive GrantAction (F : Type) where
  | mint (by' : Credential F) (body : CreateTokenRequest) (now : Instant) (hash : TokenHash)
  | refresh (token : Text) (now : Instant) (access refresh : TokenHash) (accessExpiresAt refreshExpiresAt : Instant)
  | list (by' : Credential F)
  | revoke (by' : Credential F) (hash : TokenHash) (now : Instant)

def Grants.enter (s : Grants F) (by' : Credential F) : Option (Grants F × Principal) :=
  match principalOf hashToken s.tokens by' with
  | .ok p =>
    match by' with
    | .jwt cfg claims => some ({ s with jwts := (cfg, claims, p) :: s.jwts }, p)
    | .token _ _ _ => some (s, p)
  | .error _ => none

def Grants.obtain (s : Grants F) (row : TokenRow) (p : Principal) : Grants F × Bool :=
  match insertToken row s.tokens with
  | some tokens => ({ s with tokens := tokens, origins := (row.tokenHash, p) :: s.origins }, true)
  | none => (s, false)

/-- `refresh_handler`, with nothing in between -/
def Grants.refresh (s : Grants F) (token : Text) (now : Instant) (access refresh : TokenHash)
    (accessExpiresAt refreshExpiresAt : Instant) : Grants F :=
  let hash := hashToken (trim token)
  match lookupRefreshToken s.tokens now hash with
  | none => s
  | some c =>
    let p := s.origin hash c.principal
    let rows := refreshRows c access refresh accessExpiresAt refreshExpiresAt
    match { s with tokens := (revokeApiToken s.tokens now hash).1 }.obtain rows.1 p with
    | (s', true) => (s'.obtain rows.2 p).1
    | (s', false) => s'

/-- **One request**. -/
def grantStep (s : Grants F) : GrantAction F → Option (Grants F)
  | .mint by' body now hash =>
    (s.enter hashToken by').map fun (s', p) =>
      (s'.obtain (createApiToken p body now hash) (s.root hashToken p by')).1
  | .refresh token now access refresh accessExpiresAt refreshExpiresAt =>
    some (s.refresh hashToken token now access refresh accessExpiresAt refreshExpiresAt)
  | .list by' =>
    (s.enter hashToken by').map fun (s', p) =>
      { s' with touched := (listApiTokens s.tokens).map (p, ·) ++ s'.touched }
  | .revoke by' hash now =>
    (s.enter hashToken by').map fun (s', p) =>
      { s' with
        tokens := (revokeApiToken s.tokens now hash).1
        touched := (s.tokens.filter fun r => r.tokenHash = hash && r.revokedAt.isNone).map (p, ·) ++ s'.touched }

/-! ### What the requests are to keep to -/

def Within (allowed given : Option (List Text)) : Prop := ∀ a, allowed = some a → ∃ g, given = some g ∧ g ⊆ a

/-- **At most the principal**: the same tenant, no higher role, no database and no realm that is not allowed. -/
structure Principal.AtMost (q p : Principal) : Prop where
  tenant : q.tenant = p.tenant
  role : q.role.rank ≤ p.role.rank
  databases : Within p.allowedDatabases q.allowedDatabases
  realms : Within p.allowedRealms q.allowedRealms

def TokenRow.role (row : TokenRow) : Role := (parseRole (highestScope row.scopes)).getD .read

def Permits (p : Principal) (row : TokenRow) : Prop := row.tenantId = p.tenant ∧ row.role.rank ≤ p.role.rank

/-- **No token widens a principal**: whoever is let in with a token is at most the principal it goes back to; a principal
was shown and has revoked only what is its own; and no JWT with a databases claim made an unrestricted principal. -/
structure Confined (s : Grants F) : Prop where
  narrow : ∀ o ∈ s.origins, ∀ (backend : Backend) token now q, hashToken token = o.1 → backend.static token = none →
    authenticate hashToken backend s.tokens now token = .ok q → q.AtMost o.2
  own : ∀ t ∈ s.touched, Permits t.1 t.2
  restricted : ∀ j ∈ s.jwts, claim j.2.1 j.1.databasesClaim ≠ none → j.2.2.allowedDatabases ≠ none

def Credential.Sound : Credential F → Prop
  | .jwt cfg claims => ∀ j, claim claims cfg.databasesClaim = some j → (asArray j).isSome
  | .token _ _ _ => True

/-- **The condition on the requests**: databases claims are arrays; principals that mint are of the default tenant and
are not restricted to databases or realms; refresh tokens are of the default tenant; and what is listed or revoked is the
principal's own. -/
def Modest (s : Grants F) : GrantAction F → Prop
  | .mint by' _ _ _ => by'.Sound ∧ ∀ p, principalOf hashToken s.tokens by' = .ok p →
      p.tenant = defaultTenant ∧ p.allowedDatabases = none ∧ p.allowedRealms = none
  | .refresh token now _ _ _ _ => ∀ c, lookupRefreshToken s.tokens now (hashToken (trim token)) = some c →
      c.tenant = defaultTenant
  | .list by' => by'.Sound ∧ ∀ p, principalOf hashToken s.tokens by' = .ok p →
      ∀ r ∈ listApiTokens s.tokens, Permits p r
  | .revoke by' hash _ => by'.Sound ∧ ∀ p, principalOf hashToken s.tokens by' = .ok p →
      ∀ r ∈ s.tokens, r.tokenHash = hash → r.revokedAt = none → Permits p r

/-! ### Scopes and roles -/

def rolesOf (scopes : Text) : List Role := (splitScopes scopes).filterMap parseRole

theorem rolesOf_roleText (role : Role) : rolesOf (roleText role) = [role] := by
  cases role <;> decide

theorem highestScope_cases (scopes : Text) : (∃ role, highestScope scopes = roleText role ∧ role ∈ rolesOf scopes) ∨
    highestScope scopes = roleText .read := by
  unfold highestScope
  cases hmax : ((splitScopes scopes).filter (· ∈ ["admin".toList, "write".toList, "read".toList])).argmax scopeRank with
  | none => exact .inr rfl
  | some t =>
    obtain ⟨hmem, hknown⟩ := mem_filter.1 (argmax_mem hmax)
    have hrole : ∃ role, t = roleText role := by
      rw [decide_eq_true_eq] at hknown
      simp only [mem_cons, not_mem_nil, or_false] at hknown
      rcases hknown with h | h | h
      · exact ⟨.admin, h⟩
      · exact ⟨.write, h⟩
      · exact ⟨.read, h⟩
    obtain ⟨role, rfl⟩ := hrole
    have hparse : parseRole (roleText role) = some role := by cases role <;> decide
    exact .inl ⟨role, rfl, mem_filterMap.2 ⟨_, hmem, hparse⟩⟩

theorem rolesOf_highestScope (scopes : Text) : rolesOf (highestScope scopes) =
    [(parseRole (highestScope scopes)).getD .read] := by
  have hparse (role : Role) : parseRole (roleText role) = some role := by cases role <;> decide
  rcases highestScope_cases scopes with ⟨role, heq, -⟩ | heq
  · rw [heq, rolesOf_roleText, hparse, Option.getD_some]
  · rw [heq, rolesOf_roleText, hparse, Option.getD_some]

theorem role_of_scopes (scopes : Text) : (parseRole (highestScope scopes)).getD .read ∈ rolesOf scopes ∨
    (parseRole (highestScope scopes)).getD .read = .read := by
  have hparse (role : Role) : parseRole (roleText role) = some role := by cases role <;> decide
  rcases highestScope_cases scopes with ⟨role, heq, hmem⟩ | heq
  · rw [heq, hparse]
    exact .inl hmem
  · rw [heq, hparse]
    exact .inr rfl

theorem minRole_le (a b : Role) : (minRole a b).rank ≤ b.rank := by
  unfold minRole
  split
  · assumption
  · exact le_rfl

/-! ### Rows that are narrow -/

structure NarrowRow (row : TokenRow) (p : Principal) : Prop where
  tenant : row.tenantId = p.tenant
  role : ∀ role ∈ rolesOf row.scopes, role.rank ≤ p.role.rank
  databases : p.allowedDatabases = none
  realms : p.allowedRealms = none

theorem NarrowRow.role_le {row : TokenRow} {p : Principal} (h : NarrowRow row p) : row.role.rank ≤ p.role.rank := by
  unfold TokenRow.role
  rcases role_of_scopes row.scopes with hmem | hread
  · exact h.role _ hmem
  · rw [hread]
    exact Nat.zero_le _

theorem within_none (given : Option (List Text)) : Within none given := fun _ h => by cases h

variable {hashToken} {rows : List TokenRow} {p q : Principal} {backend : Backend} {token : Text} {now : Instant}

theorem authenticate_le (hstatic : backend.static token = none)
    (hrows : ∀ r ∈ rows, r.tokenHash = hashToken token → NarrowRow r p)
    (h : authenticate hashToken backend rows now token = .ok q) :
    q.AtMost p ∧ p.allowedDatabases = none ∧ p.allowedRealms = none := by
  suffices hrow : ∃ r ∈ rows, r.tokenHash = hashToken token ∧ q.tenant = r.tenantId ∧
      (q.role = r.role ∨ q.role ∈ rolesOf r.scopes) by
    obtain ⟨r, hr, hhash, htenant, hrole⟩ := hrow
    have hnarrow := hrows r hr hhash
    refine ⟨⟨htenant.trans hnarrow.tenant, ?_, ?_, ?_⟩, hnarrow.databases, hnarrow.realms⟩
    · rcases hrole with hrole | hrole
      · exact hrole ▸ hnarrow.role_le
      · exact hnarrow.role _ hrole
    · exact hnarrow.databases ▸ within_none _
    · exact hnarrow.realms ▸ within_none _
  cases backend with
  | session env =>
    have henv : env.lookup token = none := hstatic
    rw [authenticate, sessionAuthenticate, henv] at h
    dsimp only at h
    split at h
    · rename_i tp htp
      obtain ⟨r, hr, hhash, -, -, rfl⟩ := lookupApiToken_eq_some htp
      cases h
      exact ⟨r, hr, hhash, rfl, .inl rfl⟩
    · cases h
  | db =>
    obtain ⟨r, hr, hhash, -, htenant, hrole, -⟩ := dbAuthenticate_eq_ok h
    exact ⟨r, hr, hhash, htenant, .inr hrole⟩

/-! ### The invariant -/

structure GrantInv (s : Grants F) : Prop where
  rows : ∀ o ∈ s.origins, (∃ r ∈ s.tokens, r.tokenHash = o.1) ∧ ∀ r ∈ s.tokens, r.tokenHash = o.1 → NarrowRow r o.2
  own : ∀ t ∈ s.touched, Permits t.1 t.2
  restricted : ∀ j ∈ s.jwts, claim j.2.1 j.1.databasesClaim ≠ none → j.2.2.allowedDatabases ≠ none

variable {s s' : Grants F}

theorem origin_mem (s : Grants F) (hash : TokenHash) (p : Principal) : s.origin hash p = p ∧ s.origins.lookup hash = none ∨
    (hash, s.origin hash p) ∈ s.origins := by
  unfold Grants.origin
  cases hlookup : s.origins.lookup hash with
  | none => exact .inl ⟨rfl, rfl⟩
  | some p₀ =>
    obtain ⟨before, after, heq, -⟩ := lookup_eq_some_iff.1 hlookup
    rw [heq]
    exact .inr (mem_append_right _ mem_cons_self)

theorem GrantInv.obtain (h : GrantInv s) {row : TokenRow} (hrow : NarrowRow row p) : GrantInv (s.obtain row p).1 := by
  unfold Grants.obtain
  split
  · rename_i tokens hinsert
    obtain ⟨rfl, hnew⟩ := insertToken_eq_some hinsert
    refine ⟨fun o ho => ?_, h.own, h.restricted⟩
    rcases mem_cons.1 ho with rfl | ho
    · refine ⟨⟨row, mem_append_right _ (mem_singleton_self row), rfl⟩, fun r hr hhash => ?_⟩
      rcases mem_append.1 hr with hr | hr
      · exact absurd hhash (hnew r hr)
      · rw [mem_singleton.1 hr]
        exact hrow
    · obtain ⟨⟨r₀, hr₀, hhash₀⟩, hnarrow⟩ := h.rows o ho
      refine ⟨⟨r₀, mem_append_left _ hr₀, hhash₀⟩, fun r hr hhash => ?_⟩
      rcases mem_append.1 hr with hr | hr
      · exact hnarrow r hr hhash
      · rw [mem_singleton.1 hr] at hhash
        exact absurd (hhash₀.trans hhash.symm) (hnew r₀ hr₀)
  · exact h

theorem GrantInv.revoke (h : GrantInv s) (now : Instant) (hash : TokenHash) :
    GrantInv { s with tokens := (revokeApiToken s.tokens now hash).1 } := by
  refine ⟨fun o ho => ?_, h.own, h.restricted⟩
  obtain ⟨⟨r₀, hr₀, hhash₀⟩, hnarrow⟩ := h.rows o ho
  constructor
  · have hkeys : (revokeApiToken s.tokens now hash).1.map TokenRow.tokenHash = s.tokens.map TokenRow.tokenHash :=
      Rows.map_key_updateWhere fun _ => rfl
    have hmem : o.1 ∈ (revokeApiToken s.tokens now hash).1.map TokenRow.tokenHash :=
      hkeys ▸ mem_map.2 ⟨r₀, hr₀, hhash₀⟩
    exact mem_map.1 hmem
  · intro r hr hhash
    obtain ⟨q, hq, ⟨-, rfl⟩ | ⟨-, rfl⟩⟩ := Rows.mem_updateWhere.1 hr
    · exact { hnarrow q hq hhash with }
    · exact hnarrow r hq hhash

/-! ### Requests -/

theorem principalOfClaims_databases {cfg : OidcConfig} {claims : Json F} (h : principalOfClaims cfg claims = .ok p) :
    p.allowedDatabases = ((claim claims cfg.databasesClaim).bind asArray).map (·.filterMap asStr) := by
  unfold principalOfClaims at h
  dsimp only at h
  split at h
  · cases h
    rfl
  · split at h
    · cases h
      rfl
    · cases h
  · cases h

theorem GrantInv.enter (h : GrantInv s) {by' : Credential F} (hsound : by'.Sound)
    (henter : s.enter hashToken by' = some (s', p)) : GrantInv s' ∧ principalOf hashToken s.tokens by' = .ok p ∧
      s'.tokens = s.tokens ∧ s'.origins = s.origins := by
  unfold Grants.enter at henter
  split at henter
  · rename_i p' hp'
    cases by' with
    | jwt cfg claims =>
      cases henter
      refine ⟨⟨h.rows, h.own, fun j hj hclaim => ?_⟩, hp', rfl, rfl⟩
      rcases mem_cons.1 hj with rfl | hj
      · obtain ⟨value, hvalue⟩ := Option.ne_none_iff_exists'.1 hclaim
        obtain ⟨items, hitems⟩ := Option.isSome_iff_exists.1 (hsound value hvalue)
        rw [principalOfClaims_databases hp', hvalue, Option.bind_some, hitems]
        exact Option.some_ne_none _
      · exact h.restricted j hj hclaim
    | token backend token now =>
      cases henter
      exact ⟨h, hp', rfl, rfl⟩
  · cases henter

theorem GrantInv.mint (h : GrantInv s) {by' : Credential F} {body : CreateTokenRequest} {hash : TokenHash}
    (hp : principalOf hashToken s.tokens by' = .ok p) (htenant : p.tenant = defaultTenant)
    (hdatabases : p.allowedDatabases = none) (hrealms : p.allowedRealms = none) :
    NarrowRow (createApiToken p body now hash) (s.root hashToken p by') := by
  have hself : NarrowRow (createApiToken p body now hash) p := by
    refine ⟨htenant.symm, fun role hrole => ?_, hdatabases, hrealms⟩
    have hroles : rolesOf (createApiToken p body now hash).scopes =
        [minRole ((body.role.bind parseRole).getD p.role) p.role] := rolesOf_roleText _
    rw [hroles] at hrole
    rw [mem_singleton.1 hrole]
    exact minRole_le _ _
  unfold Grants.root
  cases by' with
  | jwt cfg claims => exact hself
  | token backend token at' =>
    dsimp only
    split
    · exact hself
    · rename_i hstatic
      rw [Bool.not_eq_true, Option.isSome_eq_false_iff, Option.isNone_iff_eq_none] at hstatic
      rcases origin_mem s (hashToken token) p with ⟨heq, -⟩ | hmem
      · rw [heq]
        exact hself
      · obtain ⟨hle, hdb, hrl⟩ := authenticate_le hstatic (h.rows _ hmem).2 hp
        refine ⟨?_, fun role hrole => (hself.role role hrole).trans hle.role, hdb, hrl⟩
        exact htenant.symm.trans hle.tenant

theorem GrantInv.refresh_rows (h : GrantInv s) {hash : TokenHash} {c : RefreshClaim}
    (hc : lookupRefreshToken s.tokens now hash = some c) (htenant : c.tenant = defaultTenant) {row : TokenRow}
    (hrow : row.tenantId = defaultTenant) (hscopes : row.scopes = c.role) : NarrowRow row (s.origin hash c.principal) := by
  obtain ⟨r, hr, hhash, -, -, rfl⟩ := lookupRefreshToken_eq_some hc
  have hroles : rolesOf row.scopes = [r.role] := hscopes ▸ rolesOf_highestScope r.scopes
  rcases origin_mem s hash (RefreshClaim.principal ⟨r.tenantId, highestScope r.scopes, r.subject,
    r.sessionId.getD 0⟩) with ⟨heq, -⟩ | hmem
  · rw [heq]
    refine ⟨hrow.trans htenant.symm, fun role hrole => ?_, rfl, rfl⟩
    rw [hroles, mem_singleton] at hrole
    rw [hrole]
    exact le_rfl
  · have hnarrow := (h.rows _ hmem).2 r hr hhash
    refine ⟨(hrow.trans htenant.symm).trans hnarrow.tenant, fun role hrole => ?_, hnarrow.databases, hnarrow.realms⟩
    rw [hroles, mem_singleton] at hrole
    rw [hrole]
    exact hnarrow.role_le

theorem GrantInv.refresh (h : GrantInv s) {access refresh : TokenHash} {accessExpiresAt refreshExpiresAt : Instant}
    (htenant : ∀ c, lookupRefreshToken s.tokens now (hashToken (trim token)) = some c → c.tenant = defaultTenant) :
    GrantInv (s.refresh hashToken token now access refresh accessExpiresAt refreshExpiresAt) := by
  unfold Grants.refresh
  dsimp only
  split
  · exact h
  · rename_i c hc
    have hnarrow {row : TokenRow} (hrow : row.tenantId = defaultTenant) (hscopes : row.scopes = c.role) :=
      h.refresh_rows hc (htenant c hc) hrow hscopes
    have hfirst := (h.revoke now (hashToken (trim token))).obtain
      (hnarrow rfl rfl : NarrowRow (refreshRows c access refresh accessExpiresAt refreshExpiresAt).1 _)
    split
    · rename_i s₁ hs₁
      rw [hs₁] at hfirst
      exact hfirst.obtain (hnarrow rfl rfl)
    · rename_i s₁ hs₁
      rwa [hs₁] at hfirst

theorem GrantInv.step {a : GrantAction F} (h : GrantInv s) (hmodest : Modest hashToken s a)
    (hstep : grantStep hashToken s a = some s') : GrantInv s' := by
  cases a with
  | mint by' body now hash =>
    obtain ⟨⟨s₁, p⟩, henter, rfl⟩ := Option.map_eq_some_iff.1 hstep
    obtain ⟨hin, hp, -, -⟩ := h.enter hmodest.1 henter
    obtain ⟨htenant, hdatabases, hrealms⟩ := hmodest.2 p hp
    exact hin.obtain (h.mint hp htenant hdatabases hrealms)
  | refresh token now access refresh accessExpiresAt refreshExpiresAt =>
    cases hstep
    exact h.refresh hmodest
  | list by' =>
    obtain ⟨⟨s₁, p⟩, henter, rfl⟩ := Option.map_eq_some_iff.1 hstep
    obtain ⟨hin, hp, -, -⟩ := h.enter hmodest.1 henter
    refine ⟨hin.rows, fun t ht => ?_, hin.restricted⟩
    rcases mem_append.1 ht with ht | ht
    · obtain ⟨r, hr, rfl⟩ := mem_map.1 ht
      exact hmodest.2 p hp r hr
    · exact hin.own t ht
  | revoke by' hash now =>
    obtain ⟨⟨s₁, p⟩, henter, rfl⟩ := Option.map_eq_some_iff.1 hstep
    obtain ⟨hin, hp, htokens, -⟩ := h.enter hmodest.1 henter
    have hrevoked := hin.revoke now hash
    rw [htokens] at hrevoked
    refine ⟨hrevoked.rows, fun t ht => ?_, hrevoked.restricted⟩
    rcases mem_append.1 ht with ht | ht
    · obtain ⟨r, hr, rfl⟩ := mem_map.1 ht
      obtain ⟨hmem, hhit⟩ := mem_filter.1 hr
      rw [Bool.and_eq_true, decide_eq_true_eq, Option.isNone_iff_eq_none] at hhit
      exact hmodest.2 p hp r hmem hhit.1 hhit.2
    · exact hrevoked.own t ht

/-- **No token widens a principal** in any run whose requests are modest, whatever tokens the table has at first. -/
theorem confined_of_modest (hashToken : Text → TokenHash) (tokens : List TokenRow) {s : Grants F}
    (h : Runs.Reach (grantStep hashToken) (Modest hashToken) ⟨tokens, [], [], []⟩ s) : Confined hashToken s := by
  have hinit : GrantInv (⟨tokens, [], [], []⟩ : Grants F) := ⟨by simp, by simp, by simp⟩
  have hinv : GrantInv s := h.inv hinit fun _ _ _ hinv hok hstep => hinv.step hok hstep
  refine ⟨fun o ho backend token now q hhash hstatic hq => ?_, hinv.own, hinv.restricted⟩
  exact (authenticate_le hstatic (fun r hr hr' => (hinv.rows o ho).2 r hr (hr'.trans hhash)) hq).1

/-! #### A restricted analyst -/

def textHash (token : Text) : TokenHash := token.map fun c => .ofNat c.toNat

def claimNames : OidcConfig := ⟨"role", "sub", "databases", "realms"⟩

def plainRequest : CreateTokenRequest := ⟨none, none, none⟩

/-- A JWT without a restriction, and a token that is minted with it. -/
theorem confined_of_modest_plain : ∃ s : Grants ℕ, s.origins.length = 1 ∧ Confined textHash s := by
  have h₀ : Runs.Reach (grantStep textHash) (Modest textHash) (⟨[], [], [], []⟩ : Grants ℕ) ⟨[], [], [], []⟩ := .init
  have hmodest : Modest textHash (⟨[], [], [], []⟩ : Grants ℕ)
      (.mint (.jwt claimNames (.obj [])) plainRequest 0 (textHash ['t'])) :=
    ⟨fun j hj => (by cases hj), fun p hp => by
      cases hp
      exact ⟨rfl, rfl, rfl⟩⟩
  have h₁ := h₀.step (GrantAction.mint (.jwt claimNames (.obj [])) plainRequest 0 (textHash ['t'])) hmodest rfl
  exact ⟨_, rfl, confined_of_modest textHash [] h₁⟩

def analystClaims : Json ℕ := .obj [("databases", .arr [.str "sales"])]

/-- **The analyst mints a token**, and the token is not restricted. -/
theorem widens : ∃ s : Grants ℕ,
    Runs.Reach (grantStep textHash) Runs.Free (⟨[], [], [], []⟩ : Grants ℕ) s ∧ ¬ Confined textHash s := by
  have h₀ : Runs.Reach (grantStep textHash) Runs.Free (⟨[], [], [], []⟩ : Grants ℕ) ⟨[], [], [], []⟩ := .init
  have h₁ := h₀.step (GrantAction.mint (.jwt claimNames analystClaims) plainRequest 0 (textHash ['t'])) trivial rfl
  refine ⟨_, h₁, fun h => ?_⟩
  have hle := h.narrow _ mem_cons_self (.session []) ['t'] 0 _ rfl rfl rfl
  obtain ⟨given, hgiven, -⟩ := hle.databases _ rfl
  cases hgiven

end Auth
