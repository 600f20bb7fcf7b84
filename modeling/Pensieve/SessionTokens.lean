/-
**Login sessions.**

A login issues an access token and a refresh token of a new session.  A refresh looks up the refresh
token that it is given, revokes it, and issues a new pair in the same session; a logout revokes all
tokens of the session.
-/

import Pensieve.AuthTokens
import Pensieve.Runs

namespace Auth

open List
open Catalog (TenantId Uuid)
open Discover (Text Role)
open Tenancy (trim defaultTenant)

/-! ### Requests -/

structure TokenPair where
  access : TokenHash
  refresh : TokenHash
  accessExpiresAt : Instant
  refreshExpiresAt : Instant
  deriving DecidableEq

/-- `issue_token_pair` under way, for the refresh token that was presented or for a login. -/
structure Issue where
  presented : Option TokenHash
  session : Uuid
  role : Text
  subject : Text
  pair : TokenPair
  accessDone : Bool
  deriving DecidableEq

def Issue.accessRow (i : Issue) : TokenRow :=
  ⟨defaultTenant, i.pair.access, i.role, some i.subject, .access, some i.pair.accessExpiresAt, none, some i.session⟩

def Issue.refreshRow (i : Issue) : TokenRow :=
  ⟨defaultTenant, i.pair.refresh, i.role, some i.subject, .refresh, some i.pair.refreshExpiresAt, none, some i.session⟩

/-- Where a request stands: a refresh that has looked up its token, an issue of a pair, a logout that was let in. -/
inductive Phase where
  | rotating (hash : TokenHash) (claim : RefreshClaim)
  | issuing (i : Issue)
  | leaving (hash : TokenHash)
  deriving DecidableEq

def Phase.presented : Phase → Option TokenHash
  | .issuing i => i.presented
  | _ => none

def Phase.session : Phase → Option Uuid
  | .issuing i => some i.session
  | _ => none

/-- The table, the requests under way, and what was seen: the refresh tokens that were exchanged for a pair, the sessions
that were logged out, and the tokens that let an ordinary request in. -/
structure Sessions where
  tokens : List TokenRow
  running : List (ℕ × Phase)
  exchanged : List TokenHash
  loggedOut : List Uuid
  served : List TokenHash
  deriving DecidableEq

def Sessions.init : Sessions := ⟨[], [], [], [], []⟩

def Sessions.drop (s : Sessions) (id : ℕ) : Sessions := { s with running := s.running.filter (·.1 ≠ id) }

def Sessions.put (s : Sessions) (id : ℕ) (phase : Phase) : Sessions :=
  { s with running := (id, phase) :: s.running.filter (·.1 ≠ id) }

inductive Action where
  | login (id : ℕ) (session : Uuid) (role subject : Text) (pair : TokenPair)
  | lookup (id : ℕ) (token : Text) (now : Instant)
  | rotate (id : ℕ) (now : Instant) (pair : TokenPair)
  | insertAccess (id : ℕ)
  | insertRefresh (id : ℕ)
  | logout (id : ℕ) (backend : Backend) (token : Text) (now : Instant)
  | revokeSession (id : ℕ) (now : Instant)
  | request (backend : Backend) (token : Text) (now : Instant)
  | fail (id : ℕ)

/-- `require_role_middleware`: a request that a token of the table lets in is seen. -/
def Sessions.enter (hashToken : Text → TokenHash) (s : Sessions) (backend : Backend) (token : Text) (now : Instant) :
    Option Sessions :=
  match authenticate hashToken backend s.tokens now token with
  | .ok _ =>
    some (if (backend.static token).isSome then s else { s with served := hashToken token :: s.served })
  | .error _ => none

/-- **One statement of one request**. -/
def step (hashToken : Text → TokenHash) (s : Sessions) : Action → Option Sessions
  | .login id session role subject pair =>
    if (s.running.lookup id).isSome then none
    else some (s.put id (.issuing ⟨none, session, role, subject, pair, false⟩))
  | .lookup id token now =>
    if (s.running.lookup id).isSome then none
    else
      let hash := hashToken (trim token)
      match lookupRefreshToken s.tokens now hash with
      | some claim => some (s.put id (.rotating hash claim))
      | none => some s
  | .rotate id now pair =>
    match s.running.lookup id with
    | some (.rotating hash claim) =>
      some ({ s with tokens := (revokeApiToken s.tokens now hash).1 }.put id
        (.issuing ⟨some hash, claim.sessionId, claim.role, claim.subject.getD [], pair, false⟩))
    | _ => none
  | .insertAccess id =>
    match s.running.lookup id with
    | some (.issuing i) =>
      if i.accessDone then none
      else
        match insertToken i.accessRow s.tokens with
        | some tokens => some ({ s with tokens := tokens }.put id (.issuing { i with accessDone := true }))
        | none => some (s.drop id)
    | _ => none
  | .insertRefresh id =>
    match s.running.lookup id with
    | some (.issuing i) =>
      if i.accessDone then
        match insertToken i.refreshRow s.tokens with
        | some tokens => some ({ s with tokens := tokens, exchanged := i.presented.toList ++ s.exchanged }.drop id)
        | none => some (s.drop id)
      else none
    | _ => none
  | .logout id backend token now =>
    if (s.running.lookup id).isSome then none
    else
      match s.enter hashToken backend token now with
      | some s' => some (s'.put id (.leaving (hashToken token)))
      | none => some s
  | .revokeSession id now =>
    match s.running.lookup id with
    | some (.leaving hash) =>
      some ({ s with
        tokens := revokeSessionByToken s.tokens now hash
        loggedOut := (sessionOf s.tokens hash).toList ++ s.loggedOut }.drop id)
    | _ => none
  | .request backend token now => some ((s.enter hashToken backend token now).getD s)
  | .fail id => some (s.drop id)

/-! ### What sessions are to keep to -/

/-- **Sessions are safe**: no refresh token was exchanged twice, no token of a session that was logged out lets a request
in or is accepted by a refresh, and no request was let in by a refresh token. -/
structure Safe (hashToken : Text → TokenHash) (s : Sessions) : Prop where
  once : s.exchanged.Nodup
  dead : ∀ session ∈ s.loggedOut, ∀ row ∈ s.tokens, row.sessionId = some session →
    ∀ token now, hashToken token = row.tokenHash → lookupRefreshToken s.tokens now row.tokenHash = none ∧
      ∀ backend : Backend, backend.static token = none →
        authenticate hashToken backend s.tokens now token = .error .unknownToken
  ordinary : ∀ hash ∈ s.served, ∀ row ∈ s.tokens, row.tokenHash = hash → row.kind ≠ .refresh

def Possible (s : Sessions) : Action → Prop
  | .login _ session _ _ _ => (∀ row ∈ s.tokens, row.sessionId ≠ some session) ∧
      ∀ p ∈ s.running, p.2.session ≠ some session
  | _ => True

/-- **The condition on the steps**: a refresh finds its token unrevoked when it comes to revoke it, no pair is being
issued in a session when the session is logged out, and a refresh token is not presented to the database backend. -/
def Heeds (hashToken : Text → TokenHash) (s : Sessions) : Action → Prop
  | .rotate id _ _ => ∀ hash claim, s.running.lookup id = some (.rotating hash claim) →
      ∃ row ∈ s.tokens, row.tokenHash = hash ∧ row.revokedAt = none
  | .revokeSession id _ => ∀ hash session, s.running.lookup id = some (.leaving hash) →
      sessionOf s.tokens hash = some session → ∀ p ∈ s.running, p.2.session ≠ some session
  | .logout _ .db token _ => ∀ row ∈ s.tokens, row.tokenHash = hashToken token → row.kind ≠ .refresh
  | .request .db token _ => ∀ row ∈ s.tokens, row.tokenHash = hashToken token → row.kind ≠ .refresh
  | _ => True

/-! ### The invariant -/

def Spent (rows : List TokenRow) (hash : TokenHash) : Prop := ∃ r ∈ rows, r.tokenHash = hash ∧ r.revokedAt ≠ none

structure Inv (s : Sessions) : Prop where
  nodup : (s.tokens.map TokenRow.tokenHash).Nodup
  refresh : ∀ r ∈ s.tokens, r.kind = .refresh → r.sessionId ≠ none
  rotating : ∀ p ∈ s.running, ∀ hash claim, p.2 = .rotating hash claim →
    ∃ r ∈ s.tokens, r.tokenHash = hash ∧ r.sessionId = some claim.sessionId
  presented : ∀ p ∈ s.running, ∀ hash, p.2.presented = some hash → Spent s.tokens hash ∧ hash ∉ s.exchanged
  one : ∀ p ∈ s.running, ∀ q ∈ s.running, ∀ hash, p.2.presented = some hash → q.2.presented = some hash → p.1 = q.1
  once : s.exchanged.Nodup
  spent : ∀ hash ∈ s.exchanged, Spent s.tokens hash
  known : ∀ session ∈ s.loggedOut, ∃ r ∈ s.tokens, r.sessionId = some session
  out : ∀ session ∈ s.loggedOut, ∀ r ∈ s.tokens, r.sessionId = some session → r.revokedAt ≠ none
  idle : ∀ session ∈ s.loggedOut, ∀ p ∈ s.running, p.2.session ≠ some session
  served : ∀ hash ∈ s.served, ∃ r ∈ s.tokens, r.tokenHash = hash ∧ r.kind ≠ .refresh

theorem Inv.init : Inv Sessions.init := by
  constructor <;> simp [Sessions.init]

section Inv

variable {s : Sessions} {id : ℕ} {now : Instant} {hash : TokenHash}

theorem Inv.drop (h : Inv s) (id : ℕ) : Inv (s.drop id) where
  nodup := h.nodup
  refresh := h.refresh
  rotating p hp := h.rotating p (mem_of_mem_filter hp)
  presented p hp := h.presented p (mem_of_mem_filter hp)
  one p hp q hq := h.one p (mem_of_mem_filter hp) q (mem_of_mem_filter hq)
  once := h.once
  spent := h.spent
  known := h.known
  out := h.out
  idle session hs p hp := h.idle session hs p (mem_of_mem_filter hp)
  served := h.served

theorem Inv.put (h : Inv s) {phase : Phase}
    (hrotating : ∀ hash claim, phase = .rotating hash claim →
      ∃ r ∈ s.tokens, r.tokenHash = hash ∧ r.sessionId = some claim.sessionId)
    (hpresented : ∀ hash, phase.presented = some hash →
      Spent s.tokens hash ∧ hash ∉ s.exchanged ∧ ∀ q ∈ s.running, q.1 ≠ id → q.2.presented ≠ some hash)
    (hsession : ∀ session ∈ s.loggedOut, phase.session ≠ some session) : Inv (s.put id phase) where
  nodup := h.nodup
  refresh := h.refresh
  rotating p hp := by
    rcases mem_cons.1 hp with rfl | hp
    · exact hrotating
    · exact h.rotating p (mem_of_mem_filter hp)
  presented p hp hash hpres := by
    rcases mem_cons.1 hp with rfl | hp
    · exact ⟨(hpresented hash hpres).1, (hpresented hash hpres).2.1⟩
    · exact h.presented p (mem_of_mem_filter hp) hash hpres
  one p hp q hq hash hpres hqres := by
    have hother : ∀ q ∈ s.running.filter (·.1 ≠ id), q.2.presented = some hash → phase.presented ≠ some hash := by
      intro q hq hqres hphase
      obtain ⟨hmem, hne⟩ := mem_filter.1 hq
      exact (hpresented hash hphase).2.2 q hmem (of_decide_eq_true hne) hqres
    rcases mem_cons.1 hp with rfl | hp
    · rcases mem_cons.1 hq with rfl | hq
      · rfl
      · exact absurd hpres (hother q hq hqres)
    · rcases mem_cons.1 hq with rfl | hq
      · exact absurd hqres (hother p hp hpres)
      · exact h.one p (mem_of_mem_filter hp) q (mem_of_mem_filter hq) hash hpres hqres
  once := h.once
  spent := h.spent
  known := h.known
  out := h.out
  idle session hs p hp := by
    rcases mem_cons.1 hp with rfl | hp
    · exact hsession session hs
    · exact h.idle session hs p (mem_of_mem_filter hp)
  served := h.served

theorem Inv.not_spent (h : Inv s) {r : TokenRow} (hr : r ∈ s.tokens) (hlive : r.revokedAt = none) :
    ¬ Spent s.tokens r.tokenHash := by
  rintro ⟨q, hq, hhash, hrevoked⟩
  obtain rfl := Rows.eq_of_key_eq h.nodup hq hr hhash
  exact hrevoked hlive

variable {rows : List TokenRow}

theorem exists_of_updateWhere {p : TokenRow → Bool} {r : TokenRow}
    (hr : r ∈ Rows.updateWhere p (.revoke now) rows) : ∃ q ∈ rows, r.tokenHash = q.tokenHash ∧ r.kind = q.kind ∧
      r.sessionId = q.sessionId ∧ (r.revokedAt = none → q.revokedAt = none ∧ p q = false) := by
  obtain ⟨q, hq, ⟨-, rfl⟩ | ⟨hp, rfl⟩⟩ := Rows.mem_updateWhere.1 hr
  · exact ⟨q, hq, rfl, rfl, rfl, fun hnone => by cases hnone⟩
  · exact ⟨r, hq, rfl, rfl, rfl, fun hnone => ⟨hnone, hp⟩⟩

theorem mem_updateWhere_revoke (p : TokenRow → Bool) (now : Instant) {r : TokenRow} (hr : r ∈ rows) :
    ∃ q ∈ Rows.updateWhere p (.revoke now) rows, q.tokenHash = r.tokenHash ∧ q.kind = r.kind ∧
      q.sessionId = r.sessionId ∧ (q.revokedAt = none → r.revokedAt = none) := by
  cases hp : p r with
  | true => exact ⟨r.revoke now, Rows.mem_updateWhere.2 ⟨r, hr, .inl ⟨hp, rfl⟩⟩, rfl, rfl, rfl, fun h => by cases h⟩
  | false => exact ⟨r, Rows.mem_updateWhere.2 ⟨r, hr, .inr ⟨hp, rfl⟩⟩, rfl, rfl, rfl, fun h => h⟩

theorem Spent.updateWhere (h : Spent rows hash) (p : TokenRow → Bool) (now : Instant) :
    Spent (Rows.updateWhere p (.revoke now) rows) hash := by
  obtain ⟨r, hr, rfl, hrevoked⟩ := h
  obtain ⟨q, hq, hhash, -, -, hnone⟩ := mem_updateWhere_revoke p now hr
  exact ⟨q, hq, hhash, fun h => hrevoked (hnone h)⟩

theorem Inv.revoke (h : Inv s) (p : TokenRow → Bool) (now : Instant) :
    Inv { s with tokens := Rows.updateWhere p (.revoke now) s.tokens } where
  nodup := by
    have hsame : (Rows.updateWhere p (.revoke now) s.tokens).map TokenRow.tokenHash = s.tokens.map TokenRow.tokenHash :=
      Rows.map_key_updateWhere fun _ => rfl
    exact hsame ▸ h.nodup
  refresh r hr hkind := by
    obtain ⟨q, hq, -, hsame, hsession, -⟩ := exists_of_updateWhere hr
    exact hsession ▸ h.refresh q hq (hsame ▸ hkind)
  rotating q hq hash claim heq := by
    obtain ⟨r, hr, hhash, hsession⟩ := h.rotating q hq hash claim heq
    obtain ⟨r', hr', hhash', -, hsession', -⟩ := mem_updateWhere_revoke p now hr
    exact ⟨r', hr', hhash'.trans hhash, hsession'.trans hsession⟩
  presented q hq hash hpres := (h.presented q hq hash hpres).imp_left fun hspent => hspent.updateWhere p now
  one := h.one
  once := h.once
  spent hash hmem := (h.spent hash hmem).updateWhere p now
  known session hs := by
    obtain ⟨r, hr, hsession⟩ := h.known session hs
    obtain ⟨r', hr', -, -, hsession', -⟩ := mem_updateWhere_revoke p now hr
    exact ⟨r', hr', hsession'.trans hsession⟩
  out session hs r hr hsession hnone := by
    obtain ⟨q, hq, -, -, hsame, hlive⟩ := exists_of_updateWhere hr
    exact h.out session hs q hq (hsame ▸ hsession) (hlive hnone).1
  idle := h.idle
  served hash hmem := by
    obtain ⟨r, hr, hhash, hkind⟩ := h.served hash hmem
    obtain ⟨r', hr', hhash', hkind', -⟩ := mem_updateWhere_revoke p now hr
    exact ⟨r', hr', hhash'.trans hhash, hkind' ▸ hkind⟩

theorem Inv.insert (h : Inv s) {row : TokenRow} {tokens : List TokenRow} {session : Uuid}
    (hinsert : insertToken row s.tokens = some tokens) (hrow : row.sessionId = some session)
    (hout : session ∉ s.loggedOut) : Inv { s with tokens := tokens } := by
  obtain ⟨rfl, hnew⟩ := insertToken_eq_some hinsert
  have hold : ∀ {r}, r ∈ s.tokens → r ∈ s.tokens ++ [row] := fun hr => mem_append_left _ hr
  have hspent : ∀ {hash}, Spent s.tokens hash → Spent (s.tokens ++ [row]) hash :=
    fun ⟨r, hr, hrest⟩ => ⟨r, hold hr, hrest⟩
  refine
    { nodup := ?_, refresh := ?_, rotating := ?_, presented := ?_, one := h.one, once := h.once, spent := ?_,
      known := ?_, out := ?_, idle := h.idle, served := ?_ }
  · rw [map_append, map_singleton, ← concat_eq_append]
    refine h.nodup.concat fun hmem => ?_
    obtain ⟨r, hr, heq⟩ := mem_map.1 hmem
    exact hnew r hr heq
  · intro r hr hkind
    rcases mem_append.1 hr with hr | hr
    · exact h.refresh r hr hkind
    · rw [mem_singleton.1 hr, hrow]
      exact Option.some_ne_none session
  · intro p hp hash claim heq
    obtain ⟨r, hr, hrest⟩ := h.rotating p hp hash claim heq
    exact ⟨r, hold hr, hrest⟩
  · exact fun p hp hash hpres => (h.presented p hp hash hpres).imp_left hspent
  · exact fun hash hmem => hspent (h.spent hash hmem)
  · intro session hs
    obtain ⟨r, hr, hsession⟩ := h.known session hs
    exact ⟨r, hold hr, hsession⟩
  · intro session' hs r hr hsession
    rcases mem_append.1 hr with hr | hr
    · exact h.out session' hs r hr hsession
    · rw [mem_singleton.1 hr, hrow] at hsession
      exact absurd (Option.some.inj hsession ▸ hs) hout
  · intro hash hmem
    obtain ⟨r, hr, hrest⟩ := h.served hash hmem
    exact ⟨r, hold hr, hrest⟩

theorem mem_of_lookup {running : List (ℕ × Phase)} {phase : Phase} (h : running.lookup id = some phase) :
    (id, phase) ∈ running := by
  obtain ⟨before, after, rfl, -⟩ := lookup_eq_some_iff.1 h
  exact mem_append_right _ mem_cons_self

variable {hashToken : Text → TokenHash}

/-- **A request that is let in** keeps the invariant, if the database backend is not given a refresh token. -/
theorem Inv.enter (h : Inv s) {s' : Sessions} {backend : Backend} {token : Text}
    (hheeds : backend = .db → ∀ row ∈ s.tokens, row.tokenHash = hashToken token → row.kind ≠ .refresh)
    (henter : s.enter hashToken backend token now = some s') : Inv s' := by
  unfold Sessions.enter at henter
  split at henter
  · rename_i p hp
    split at henter
    · cases henter
      exact h
    · rename_i hstatic
      cases henter
      rw [Bool.not_eq_true, Option.isSome_eq_false_iff, Option.isNone_iff_eq_none] at hstatic
      obtain ⟨r, hr, hhash, -, hkind⟩ := exists_row_of_authenticate hstatic hp
      refine { h with served := fun hash hmem => ?_ }
      rcases mem_cons.1 hmem with rfl | hmem
      · exact ⟨r, hr, hhash, fun hrefresh => hheeds (hkind hrefresh) r hr hhash hrefresh⟩
      · exact h.served hash hmem
  · cases henter

theorem Inv.rotate (h : Inv s) {claim : RefreshClaim} {pair : TokenPair}
    (hrunning : (id, .rotating hash claim) ∈ s.running)
    (hlive : ∃ row ∈ s.tokens, row.tokenHash = hash ∧ row.revokedAt = none) :
    Inv ({ s with tokens := (revokeApiToken s.tokens now hash).1 }.put id
      (.issuing ⟨some hash, claim.sessionId, claim.role, claim.subject.getD [], pair, false⟩)) := by
  obtain ⟨row, hrow, rfl, hnone⟩ := hlive
  have hunspent := h.not_spent hrow hnone
  have hrevoked := h.revoke (fun r => r.tokenHash = row.tokenHash && r.revokedAt.isNone) now
  refine hrevoked.put (fun _ _ heq => by cases heq) (fun hash hpres => ?_) fun session hs hsession => ?_
  · cases hpres
    refine ⟨⟨row.revoke now, ?_, rfl, Option.some_ne_none now⟩, fun hmem => hunspent (h.spent _ hmem), ?_⟩
    · exact Rows.mem_updateWhere.2 ⟨row, hrow, .inl ⟨by simp [hnone], rfl⟩⟩
    · exact fun q hq _ hpres => hunspent (h.presented q hq _ hpres).1
  · -- the token would be revoked with its session
    obtain ⟨r, hr, hhash, hclaim⟩ := h.rotating _ hrunning _ _ rfl
    obtain rfl := Rows.eq_of_key_eq h.nodup hr hrow hhash
    cases hsession
    exact h.out _ hs r hr hclaim hnone

theorem Inv.revokeSession (h : Inv s)
    (hidle : ∀ session, sessionOf s.tokens hash = some session → ∀ p ∈ s.running, p.2.session ≠ some session) :
    Inv { s with
      tokens := revokeSessionByToken s.tokens now hash
      loggedOut := (sessionOf s.tokens hash).toList ++ s.loggedOut } := by
  have hrevoked : Inv { s with tokens := revokeSessionByToken s.tokens now hash } := h.revoke _ now
  refine
    { hrevoked with
      known := fun session hs => ?_
      out := fun session hs r hr hsession hnone => ?_
      idle := fun session hs => ?_ }
  · rcases mem_append.1 hs with hs | hs
    · obtain ⟨q, hfind, hq⟩ := Option.bind_eq_some_iff.1 (Option.mem_toList.1 hs)
      obtain ⟨r, hr, -, -, hsession, -⟩ := mem_updateWhere_revoke _ now (mem_of_find?_eq_some hfind)
      exact ⟨r, hr, hsession.trans hq⟩
    · exact hrevoked.known session hs
  · rcases mem_append.1 hs with hs | hs
    · have hof := Option.mem_toList.1 hs
      obtain ⟨q, -, -, -, hsame, hlive⟩ := exists_of_updateWhere hr
      obtain ⟨hqnone, hmiss⟩ := hlive hnone
      simp [hqnone, hof, ← hsame, hsession] at hmiss
    · exact hrevoked.out session hs r hr hsession hnone
  · rcases mem_append.1 hs with hs | hs
    · exact hidle session (Option.mem_toList.1 hs)
    · exact h.idle session hs

theorem Inv.step {s' : Sessions} {a : Action} (h : Inv s) (hpossible : Possible s a) (hheeds : Heeds hashToken s a)
    (hstep : Auth.step hashToken s a = some s') : Inv s' := by
  cases a with
  | login id session role subject pair =>
    simp only [Auth.step] at hstep
    split at hstep
    · cases hstep
    · cases hstep
      refine h.put (fun _ _ heq => by cases heq) (fun _ hpres => by cases hpres) fun session' hs heq => ?_
      obtain ⟨r, hr, hsession⟩ := h.known session' hs
      exact hpossible.1 r hr (hsession.trans heq.symm)
  | lookup id token now =>
    simp only [Auth.step] at hstep
    split at hstep
    · cases hstep
    · split at hstep
      · rename_i claim hclaim
        cases hstep
        refine h.put (fun hash claim' heq => ?_) (fun _ hpres => by cases hpres) fun _ _ heq => by cases heq
        cases heq
        obtain ⟨r, hr, hhash, hkind, -, rfl⟩ := lookupRefreshToken_eq_some hclaim
        obtain ⟨session, hsession⟩ := Option.ne_none_iff_exists'.1 (h.refresh r hr hkind)
        exact ⟨r, hr, hhash, by rw [hsession]; rfl⟩
      · cases hstep
        exact h
  | rotate id now pair =>
    simp only [Auth.step] at hstep
    split at hstep
    · rename_i hash claim hlookup
      cases hstep
      exact h.rotate (mem_of_lookup hlookup) (hheeds hash claim hlookup)
    · cases hstep
  | insertAccess id =>
    simp only [Auth.step] at hstep
    split at hstep
    · rename_i i hlookup
      have hmem := mem_of_lookup hlookup
      have hout : i.session ∉ s.loggedOut := fun hs => h.idle _ hs _ hmem rfl
      split at hstep
      · cases hstep
      · split at hstep
        · rename_i tokens hinsert
          cases hstep
          have hinserted := h.insert hinsert rfl hout
          refine hinserted.put (fun _ _ heq => by cases heq) (fun hash hpres => ?_) fun session hs heq => ?_
          · obtain ⟨hspent, hnew⟩ := hinserted.presented _ hmem hash hpres
            exact ⟨hspent, hnew, fun q hq hne hqres => hne (h.one q hq _ hmem hash hqres hpres)⟩
          · cases heq
            exact hout hs
        · cases hstep
          exact h.drop id
    · cases hstep
  | insertRefresh id =>
    simp only [Auth.step] at hstep
    split at hstep
    · rename_i i hlookup
      have hmem := mem_of_lookup hlookup
      have hout : i.session ∉ s.loggedOut := fun hs => h.idle _ hs _ hmem rfl
      split at hstep
      · split at hstep
        · rename_i tokens hinsert
          cases hstep
          have hinserted := (h.insert hinsert rfl hout).drop id
          refine { hinserted with presented := ?_, once := ?_, spent := ?_ }
          · intro q hq hash hpres
            obtain ⟨hq, hne⟩ := mem_filter.1 hq
            obtain ⟨hspent, hnew⟩ := hinserted.presented q (mem_filter.2 ⟨hq, hne⟩) hash hpres
            refine ⟨hspent, fun hex => ?_⟩
            rcases mem_append.1 hex with hex | hex
            · have hsame := h.one q hq _ hmem hash hpres (Option.mem_toList.1 hex)
              exact of_decide_eq_true hne hsame
            · exact hnew hex
          · refine nodup_append.2 ⟨?_, h.once, ?_⟩
            · cases i.presented <;> simp
            · rintro hash hex hash' hex' rfl
              exact (h.presented _ hmem hash (Option.mem_toList.1 hex)).2 hex'
          · intro hash hex
            rcases mem_append.1 hex with hex | hex
            · exact ((h.insert hinsert rfl hout).presented _ hmem hash (Option.mem_toList.1 hex)).1
            · exact hinserted.spent hash hex
        · cases hstep
          exact h.drop id
      · cases hstep
    · cases hstep
  | logout id backend token now =>
    simp only [Auth.step] at hstep
    split at hstep
    · cases hstep
    · split at hstep
      · rename_i s₁ henter
        cases hstep
        have hin : Inv s₁ := by
          cases backend with
          | session env => exact h.enter (fun heq => by cases heq) henter
          | db => exact h.enter (fun _ => hheeds) henter
        exact hin.put (fun _ _ heq => by cases heq) (fun _ hpres => by cases hpres) fun _ _ heq => by cases heq
      · cases hstep
        exact h
  | revokeSession id now =>
    simp only [Auth.step] at hstep
    split at hstep
    · rename_i hash hlookup
      cases hstep
      exact (h.revokeSession fun session hof => hheeds hash session hlookup hof).drop id
    · cases hstep
  | request backend token now =>
    cases hstep
    cases henter : s.enter hashToken backend token now with
    | none => exact h
    | some s₁ =>
      cases backend with
      | session env => exact h.enter (fun heq => by cases heq) henter
      | db => exact h.enter (fun _ => hheeds) henter
  | fail id =>
    cases hstep
    exact h.drop id

end Inv

/-! ### Safety -/

theorem Inv.safe {hashToken : Text → TokenHash} {s : Sessions} (h : Inv s) : Safe hashToken s where
  once := h.once
  dead session hs row hrow hsession token now htoken := by
    have hrevoked : ∀ r ∈ s.tokens, r.tokenHash = row.tokenHash → r.live now = false := by
      intro r hr hhash
      obtain rfl := Rows.eq_of_key_eq h.nodup hr hrow hhash
      have hne := h.out session hs r hr hsession
      rw [TokenRow.live, Bool.and_eq_false_iff, Option.isNone_eq_false_iff, Option.isSome_iff_ne_none]
      exact .inl hne
    constructor
    · by_contra hsome
      obtain ⟨claim, hclaim⟩ := Option.ne_none_iff_exists'.1 hsome
      obtain ⟨r, hr, hhash, -, hlive, -⟩ := lookupRefreshToken_eq_some hclaim
      rw [hrevoked r hr hhash] at hlive
      cases hlive
    · intro backend hstatic
      exact authenticate_of_not_live hstatic fun r hr hhash => hrevoked r hr (hhash.trans htoken)
  ordinary hash hmem row hrow hhash := by
    obtain ⟨r, hr, hhash', hkind⟩ := h.served hash hmem
    obtain rfl := Rows.eq_of_key_eq h.nodup hr hrow (hhash'.trans hhash.symm)
    exact hkind

/-- **Sessions are safe** in every state of every run whose steps heed the condition. -/
theorem safe_of_heeds (hashToken : Text → TokenHash) {s : Sessions}
    (h : Runs.Reach (step hashToken) (fun s a => Possible s a ∧ Heeds hashToken s a) Sessions.init s) :
    Safe hashToken s :=
  have hinv : Inv s := h.inv Inv.init fun _ _ _ hinv hok hstep => hinv.step hok.1 hok.2 hstep
  hinv.safe

/-! #### One refresh token -/

def letters (token : Text) : TokenHash := token.map fun c => .ofNat c.toNat

def pair (access refresh : Char) : TokenPair := ⟨letters [access], letters [refresh], 3600, 7200⟩

/-- A login, and a refresh with its token. -/
theorem safe_of_heeds_refresh : ∃ s : Sessions,
    s.exchanged = [letters ['r']] ∧ s.tokens.length = 4 ∧ Safe letters s := by
  have h₀ : Runs.Reach (step letters) (fun s a => Possible s a ∧ Heeds letters s a) Sessions.init Sessions.init := .init
  have hnew : Possible Sessions.init (.login 0 1 [] [] (pair 'a' 'r')) :=
    ⟨fun row hrow => (by cases hrow), fun p hp => by cases hp⟩
  have h₁ := h₀.step (Action.login 0 1 [] [] (pair 'a' 'r')) ⟨hnew, trivial⟩ rfl
  have h₂ := h₁.step (Action.insertAccess 0) ⟨trivial, trivial⟩ rfl
  have h₃ := h₂.step (Action.insertRefresh 0) ⟨trivial, trivial⟩ rfl
  have h₄ := h₃.step (Action.lookup 1 ['r'] 0) ⟨trivial, trivial⟩ rfl
  have h₅ := h₄.step (Action.rotate 1 0 (pair 'b' 's')) ⟨trivial, fun hash claim h => by
    cases h
    exact ⟨_, mem_cons_of_mem _ mem_cons_self, rfl, rfl⟩⟩ rfl
  have h₆ := h₅.step (Action.insertAccess 1) ⟨trivial, trivial⟩ rfl
  have h₇ := h₆.step (Action.insertRefresh 1) ⟨trivial, trivial⟩ rfl
  exact ⟨_, rfl, rfl, safe_of_heeds letters h₇⟩

/-- **Two refreshes with one token**: both look it up before one of them revokes it, and each issues a pair. -/
theorem exchanged_twice : ∃ s : Sessions, Runs.Reach (step letters) Possible Sessions.init s ∧
    s.exchanged = [letters ['r'], letters ['r']] ∧ ¬ Safe letters s := by
  have h₀ : Runs.Reach (step letters) Possible Sessions.init Sessions.init := .init
  have hnew : Possible Sessions.init (.login 0 1 [] [] (pair 'a' 'r')) :=
    ⟨fun row hrow => (by cases hrow), fun p hp => by cases hp⟩
  have h₁ := h₀.step (Action.login 0 1 [] [] (pair 'a' 'r')) hnew rfl
  have h₂ := h₁.step (Action.insertAccess 0) trivial rfl
  have h₃ := h₂.step (Action.insertRefresh 0) trivial rfl
  have h₄ := h₃.step (Action.lookup 1 ['r'] 0) trivial rfl
  have h₅ := h₄.step (Action.lookup 2 ['r'] 0) trivial rfl
  have h₆ := h₅.step (Action.rotate 1 0 (pair 'b' 's')) trivial rfl
  have h₇ := h₆.step (Action.rotate 2 0 (pair 'c' 't')) trivial rfl
  have h₈ := h₇.step (Action.insertAccess 1) trivial rfl
  have h₉ := h₈.step (Action.insertRefresh 1) trivial rfl
  have h₁₀ := h₉.step (Action.insertAccess 2) trivial rfl
  have h₁₁ := h₁₀.step (Action.insertRefresh 2) trivial rfl
  refine ⟨_, h₁₁, rfl, fun h => ?_⟩
  have honce := h.once
  revert honce
  decide

end Auth
