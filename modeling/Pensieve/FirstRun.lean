/-
**First-run setup.**

As long as there are no users, anyone may sign up as the first administrator.  The handler counts
the users and then creates one, in two statements, so that two signups may both count none.
-/

import Pensieve.SessionTokens

namespace Auth

open List
open Catalog (TenantId Uuid)
open Discover (Text Role)
open Tenancy (trim defaultTenant)

/-! ### Backends -/

/-- What a text that looks like a JWT is validated as; `none` for another text. -/
abbrev Jwt := Text → Option (Except AuthError Principal)

inductive ServerBackend where
  | env (keys : List (Text × Role))
  | session (keys : List (Text × Role)) (usersExist : Bool)
  | db
  | supabase (jwt : Jwt) (keys : List (Text × Role)) (usersExist : Bool)
  | oidc (jwt : Jwt) (inner : ServerBackend)

def ServerBackend.enabled : ServerBackend → Bool
  | .env keys => !keys.isEmpty
  | .session keys usersExist => !keys.isEmpty || usersExist
  | .db => true
  | .supabase _ _ _ => true
  | .oidc _ _ => true

section Authenticate

variable (hashToken : Text → TokenHash)

def ServerBackend.authenticate (rows : List TokenRow) (now : Instant) (token : Text) :
    ServerBackend → Except AuthError Principal
  | .env keys =>
    match keys.lookup token with
    | some role => .ok ⟨defaultTenant, role, none, none, none⟩
    | none => .error .unknownToken
  | .session keys _ => sessionAuthenticate hashToken keys rows now token
  | .db => dbAuthenticate hashToken rows now token
  | .supabase jwt keys _ =>
    match jwt token with
    | some (.ok p) => .ok p
    | some (.error .unknownToken) => sessionAuthenticate hashToken keys rows now token
    | some (.error e) => .error e
    | none => sessionAuthenticate hashToken keys rows now token
  | .oidc jwt inner =>
    match jwt token with
    | some (.ok p) => .ok p
    | some (.error e) => if inner.enabled then inner.authenticate rows now token else .error e
    | none => inner.authenticate rows now token

/-- `PENSIEVE_AUTH_BACKEND` -/
inductive BackendSetting where
  | db
  | supabase (jwt : Jwt)
  | session
  | other
  | unset

/-- The backend that a server starts with; `cloudAuth` says that the binary has the database backend. -/
def startBackend (setting : BackendSetting) (cloudAuth : Bool) (oidc : Option Jwt) (keys : List (Text × Role))
    (usersExist : Bool) : ServerBackend :=
  let backend : ServerBackend := match setting with
    | .db => if cloudAuth then .db else .session keys usersExist
    | .supabase jwt => .supabase jwt keys usersExist
    | .session => .session keys usersExist
    | .other => .session keys usersExist
    | .unset => if usersExist then .session keys usersExist else .env keys
  match oidc with
  | some jwt => .oidc jwt backend
  | none => backend

inductive Rejection where
  | unauthorized (message : String)
  | backend (message : Text)
  | forbidden
  deriving DecidableEq

/-- `require_role_middleware`, for the token of a request if it has one -/
def requireRole (backend : ServerBackend) (required : Role) (rows : List TokenRow) (now : Instant)
    (token : Option Text) : Except Rejection Principal :=
  if backend.enabled then
    match token with
    | none => .error (.unauthorized "missing Authorization: Bearer <token>")
    | some token =>
      match backend.authenticate hashToken rows now token with
      | .ok p => if p.role.rank < required.rank then .error .forbidden else .ok p
      | .error (.backend e) => .error (.backend e)
      | .error _ => .error (.unauthorized "unknown token")
  else .ok ⟨defaultTenant, .admin, none, none, none⟩

def validToken (backend : ServerBackend) (rows : List TokenRow) (now : Instant) (token : Option Text) : Bool :=
  match token with
  | none => false
  | some t =>
    match backend.authenticate hashToken rows now t with
    | .ok _ => true
    | .error _ => false

theorem valid_of_requireRole {backend : ServerBackend} {required : Role} {rows : List TokenRow} {now : Instant}
    {token : Option Text} {p : Principal} (henabled : backend.enabled = true)
    (h : requireRole hashToken backend required rows now token = .ok p) :
    validToken hashToken backend rows now token = true := by
  unfold requireRole at h
  rw [if_pos henabled] at h
  split at h
  · cases h
  · split at h
    · rename_i q hq
      simp only [validToken, hq]
    · cases h
    · cases h

end Authenticate

/-! ### The server -/

structure User where
  username : Text
  role : Role
  deriving DecidableEq

/-- Where a request stands: a signup that has counted no users, one that has created its user, or a change of a user that
has passed the guard of the last administrator. -/
inductive SetupPhase where
  | counted (username : Text)
  | issuing (i : Issue)
  | guarded (username : Text) (newRole : Option Role)
  deriving DecidableEq

/-- The server: its backend and tables, the requests under way, how many signups have succeeded, and the requests that
were passed on after that without a valid token. -/
structure Server where
  backend : ServerBackend
  users : List User
  tokens : List TokenRow
  running : List (ℕ × SetupPhase)
  succeeded : ℕ
  unchecked : List (Option Text)

def Server.drop (s : Server) (id : ℕ) : Server := { s with running := s.running.filter (·.1 ≠ id) }

def Server.put (s : Server) (id : ℕ) (phase : SetupPhase) : Server :=
  { s with running := (id, phase) :: s.running.filter (·.1 ≠ id) }

inductive ServerAction where
  /-- `POST /v1/auth/signup`: the checks and the count -/
  | count (id : ℕ) (username : Text) (passwordLength : ℕ)
  | create (id : ℕ) (session : Uuid) (pair : TokenPair)
  | insertAccess (id : ℕ)
  | insertRefresh (id : ℕ)
  | request (required : Role) (token : Option Text) (now : Instant)
  /-- `POST /v1/admin/users` -/
  | addUser (token : Option Text) (now : Instant) (user : User)
  /-- `DELETE` or `PATCH /v1/admin/users/:username`, up to the guard of the last administrator -/
  | guard (id : ℕ) (token : Option Text) (now : Instant) (username : Text) (newRole : Option Role)
  | change (id : ℕ)
  | fail (id : ℕ)

/-- `create_user`, which fails for a name that is taken. -/
def createUser (users : List User) (user : User) : Option (List User) :=
  if users.any (·.username = user.username) then none else some (users ++ [user])

def wouldRemoveLastAdmin (currentRole : Role) (newRole : Option Role) (adminCount : ℕ) : Bool :=
  let losingAnAdmin := currentRole = .admin && newRole.all (· ≠ .admin)
  losingAnAdmin && adminCount ≤ 1

def changeUser (users : List User) (username : Text) : Option Role → List User
  | none => users.filter (·.username ≠ username)
  | some role => Rows.updateWhere (·.username = username) (fun u => { u with role := role }) users

def Server.see (hashToken : Text → TokenHash) (s : Server) (token : Option Text) (now : Instant) : Server :=
  if 0 < s.succeeded ∧ validToken hashToken s.backend s.tokens now token = false then
    { s with unchecked := token :: s.unchecked }
  else s

/-- **One statement of one request**. -/
def serverStep (hashToken : Text → TokenHash) (s : Server) : ServerAction → Option Server
  | .count id username passwordLength =>
    if (s.running.lookup id).isSome then none
    else
      let username := trim username
      if username.isEmpty || passwordLength < 8 then some s
      else if s.users.length = 0 then some (s.put id (.counted username))
      else some s
  | .create id session pair =>
    match s.running.lookup id with
    | some (.counted username) =>
      match createUser s.users ⟨username, .admin⟩ with
      | some users =>
        some ({ s with users := users }.put id (.issuing ⟨none, session, "admin".toList, username, pair, false⟩))
      | none => some (s.drop id)
    | _ => none
  | .insertAccess id =>
    match s.running.lookup id with
    | some (.issuing i) =>
      if i.accessDone then none
      else
        match insertToken i.accessRow s.tokens with
        | some tokens => some ({ s with tokens := tokens }.put id (.issuing { i with accessDone := true }))
        | none => some (s.drop id)
    | _ => none
  | .insertRefresh id =>
    match s.running.lookup id with
    | some (.issuing i) =>
      if i.accessDone then
        match insertToken i.refreshRow s.tokens with
        | some tokens => some { s.drop id with tokens := tokens, succeeded := s.succeeded + 1 }
        | none => some (s.drop id)
      else none
    | _ => none
  | .request required token now =>
    match requireRole hashToken s.backend required s.tokens now token with
    | .ok _ => some (s.see hashToken token now)
    | .error _ => some s
  | .addUser token now user =>
    match requireRole hashToken s.backend .admin s.tokens now token with
    | .ok _ => some { s.see hashToken token now with users := (createUser s.users user).getD s.users }
    | .error _ => some s
  | .guard id token now username newRole =>
    if (s.running.lookup id).isSome then none
    else
      match requireRole hashToken s.backend .admin s.tokens now token with
      | .error _ => some s
      | .ok _ =>
        match s.users.find? (·.username = username) with
        | none => some (s.see hashToken token now)
        | some user =>
          if wouldRemoveLastAdmin user.role newRole (s.users.countP (·.role = .admin)) then
            some (s.see hashToken token now)
          else some ((s.see hashToken token now).put id (.guarded username newRole))
  | .change id =>
    match s.running.lookup id with
    | some (.guarded username newRole) => some ({ s with users := changeUser s.users username newRole }.drop id)
    | _ => none
  | .fail id => some (s.drop id)

def Server.start (setting : BackendSetting) (cloudAuth : Bool) (oidc : Option Jwt) (keys : List (Text × Role))
    (users : List User) (tokens : List TokenRow) : Server :=
  ⟨startBackend setting cloudAuth oidc keys (0 < users.length), users, tokens, [], 0, []⟩

/-- **Setup happens once and turns authentication on**: at most one signup has succeeded, and since then no request was
passed on without a valid token. -/
structure SetUp (s : Server) : Prop where
  once : s.succeeded ≤ 1
  checked : s.unchecked = []

/-- **The condition on the steps**: when a signup comes to create its user there is still no user, and the backend that
the server has started with is enabled; and no change of a user removes the last one. -/
def Guarded (s : Server) : ServerAction → Prop
  | .create id _ _ => ∀ username, s.running.lookup id = some (.counted username) →
      s.users = [] ∧ s.backend.enabled = true
  | .change id => ∀ username newRole, s.running.lookup id = some (.guarded username newRole) → s.users ≠ [] →
      changeUser s.users username newRole ≠ []
  | _ => True

/-! ### The invariant -/

def SetupPhase.issues : SetupPhase → Bool
  | .issuing _ => true
  | _ => false

def Server.created (s : Server) : ℕ := s.succeeded + s.running.countP (·.2.issues)

/-- **What holds in every state**: at most one signup has created a user, and then there is one, and requests need a
token. -/
structure ServerInv (s : Server) : Prop where
  once : s.created ≤ 1
  made : 0 < s.created → s.users ≠ [] ∧ s.backend.enabled = true
  checked : s.unchecked = []

section Inv

variable {hashToken : Text → TokenHash} {s s' : Server} {id : ℕ} {phase : SetupPhase}

theorem created_drop_le (s : Server) (id : ℕ) : (s.drop id).created ≤ s.created :=
  Nat.add_le_add_left (filter_sublist.countP_le) _

theorem countP_filter_lt {running : List (ℕ × SetupPhase)} (h : running.lookup id = some phase)
    (hissues : phase.issues = true) :
    (running.filter (·.1 ≠ id)).countP (·.2.issues) + 1 ≤ running.countP (·.2.issues) := by
  obtain ⟨before, after, rfl, -⟩ := lookup_eq_some_iff.1 h
  have hle := (filter_sublist (p := fun p : ℕ × SetupPhase => p.1 ≠ id) (l := before ++ after)).countP_le
    (p := fun p => p.2.issues)
  rw [filter_append, countP_append, countP_append] at hle
  have hcount : ((id, phase) :: after).countP (fun p => p.2.issues) = after.countP (fun p => p.2.issues) + 1 :=
    countP_cons_of_pos hissues
  rw [filter_append, filter_cons_of_neg (by simp), countP_append, countP_append, hcount]
  omega

theorem created_put_of_not_issues (h : phase.issues = false) : (s.put id phase).created ≤ s.created := by
  have hle := created_drop_le s id
  unfold Server.put Server.created
  rw [countP_cons_of_neg (by simp [h])]
  exact hle

theorem ServerInv.of_le (h : ServerInv s) (hle : s'.created ≤ s.created) (hbackend : s'.backend = s.backend)
    (husers : s.users ≠ [] → s'.users ≠ []) (hchecked : s'.unchecked = []) : ServerInv s' where
  once := hle.trans h.once
  made hpos := by
    obtain ⟨hne, henabled⟩ := h.made (hpos.trans_le hle)
    exact ⟨husers hne, hbackend ▸ henabled⟩
  checked := hchecked

theorem ServerInv.drop (h : ServerInv s) (id : ℕ) : ServerInv (s.drop id) :=
  h.of_le (created_drop_le s id) rfl (fun hne => hne) h.checked

theorem ServerInv.put (h : ServerInv s) (hissues : phase.issues = false) : ServerInv (s.put id phase) :=
  h.of_le (created_put_of_not_issues hissues) rfl (fun hne => hne) h.checked

theorem ServerInv.see_eq (h : ServerInv s) {required : Role} {token : Option Text} {now : Instant} {p : Principal}
    (hp : requireRole hashToken s.backend required s.tokens now token = .ok p) : s.see hashToken token now = s := by
  unfold Server.see
  refine if_neg fun ⟨hpos, hinvalid⟩ => ?_
  have henabled := (h.made (hpos.trans_le (Nat.le_add_right _ _))).2
  rw [valid_of_requireRole hashToken henabled hp] at hinvalid
  cases hinvalid

theorem createUser_eq_some {users users' : List User} {user : User} (h : createUser users user = some users') :
    users' = users ++ [user] := by
  unfold createUser at h
  split at h
  · cases h
  · exact (Option.some.inj h).symm

theorem ServerInv.step {a : ServerAction} (h : ServerInv s) (hguarded : Guarded s a)
    (hstep : serverStep hashToken s a = some s') : ServerInv s' := by
  cases a with
  | count id username passwordLength =>
    simp only [serverStep] at hstep
    split at hstep
    · cases hstep
    · split at hstep
      · cases hstep
        exact h
      · split at hstep
        · cases hstep
          exact h.put rfl
        · cases hstep
          exact h
  | create id session pair =>
    simp only [serverStep] at hstep
    split at hstep
    · rename_i username hlookup
      obtain ⟨hnone, henabled⟩ := hguarded username hlookup
      split at hstep
      · rename_i users husers
        cases hstep
        have hzero : s.created = 0 := by
          by_contra hpos
          exact (h.made (Nat.pos_of_ne_zero hpos)).1 hnone
        have hdrop := created_drop_le s id
        have hone : (Server.put { s with users := users } id
            (.issuing ⟨none, session, "admin".toList, username, pair, false⟩)).created ≤ 1 := by
          unfold Server.created Server.put
          unfold Server.created Server.drop at hdrop
          rw [countP_cons_of_pos rfl]
          dsimp only at hdrop ⊢
          unfold Server.created at hzero
          omega
        refine ⟨hone, fun _ => ⟨?_, henabled⟩, h.checked⟩
        rw [createUser_eq_some husers]
        exact append_ne_nil_of_right_ne_nil _ (cons_ne_nil _ _)
      · cases hstep
        exact h.drop id
    · cases hstep
  | insertAccess id =>
    simp only [serverStep] at hstep
    split at hstep
    · rename_i i hlookup
      split at hstep
      · cases hstep
      · split at hstep
        · cases hstep
          have hlt := countP_filter_lt hlookup rfl
          refine h.of_le ?_ rfl (fun hne => hne) h.checked
          unfold Server.created Server.put
          rw [countP_cons_of_pos rfl]
          dsimp only
          omega
        · cases hstep
          exact h.drop id
    · cases hstep
  | insertRefresh id =>
    simp only [serverStep] at hstep
    split at hstep
    · rename_i i hlookup
      split at hstep
      · split at hstep
        · cases hstep
          have hlt := countP_filter_lt hlookup rfl
          refine h.of_le ?_ rfl (fun hne => hne) h.checked
          unfold Server.created Server.drop
          dsimp only
          omega
        · cases hstep
          exact h.drop id
      · cases hstep
    · cases hstep
  | request required token now =>
    simp only [serverStep] at hstep
    split at hstep
    · rename_i p hp
      cases hstep
      rw [h.see_eq hp]
      exact h
    · cases hstep
      exact h
  | addUser token now user =>
    simp only [serverStep] at hstep
    split at hstep
    · rename_i p hp
      cases hstep
      rw [h.see_eq hp]
      refine h.of_le le_rfl rfl (fun hne => ?_) h.checked
      cases huser : createUser s.users user with
      | none => exact hne
      | some users =>
        rw [createUser_eq_some huser]
        exact append_ne_nil_of_left_ne_nil hne _
    · cases hstep
      exact h
  | guard id token now username newRole =>
    simp only [serverStep] at hstep
    split at hstep
    · cases hstep
    · split at hstep
      · cases hstep
        exact h
      · rename_i p hp
        rw [h.see_eq hp] at hstep
        split at hstep
        · cases hstep
          exact h
        · split at hstep
          · cases hstep
            exact h
          · cases hstep
            exact h.put rfl
  | change id =>
    simp only [serverStep] at hstep
    split at hstep
    · rename_i username newRole hlookup
      cases hstep
      exact h.of_le (created_drop_le s id) rfl (hguarded username newRole hlookup) h.checked
    · cases hstep
  | fail id =>
    cases hstep
    exact h.drop id

end Inv

/-- **Setup happens once and turns authentication on** in every run of a server whose steps are guarded, whatever it
starts with. -/
theorem setUp_of_guarded (hashToken : Text → TokenHash) (setting : BackendSetting) (cloudAuth : Bool)
    (oidc : Option Jwt) (keys : List (Text × Role)) (users : List User) (tokens : List TokenRow) {s : Server}
    (h : Runs.Reach (serverStep hashToken) Guarded (Server.start setting cloudAuth oidc keys users tokens) s) :
    SetUp s := by
  have hinit : ServerInv (Server.start setting cloudAuth oidc keys users tokens) :=
    ⟨Nat.zero_le _, fun hpos => absurd hpos (lt_irrefl 0), rfl⟩
  have hinv : ServerInv s := h.inv hinit fun _ _ _ hinv hok hstep => hinv.step hok hstep
  exact ⟨(Nat.le_add_right _ _).trans hinv.once, hinv.checked⟩

/-- A server with a static key, and one signup. -/
theorem setUp_of_guarded_key : ∃ s : Server, s.succeeded = 1 ∧ SetUp s := by
  have h₀ : Runs.Reach (serverStep letters) Guarded (Server.start .unset false none [(['k'], .admin)] [] [])
      (Server.start .unset false none [(['k'], .admin)] [] []) := .init
  have h₁ := h₀.step (ServerAction.count 0 ['a'] 8) trivial rfl
  have h₂ := h₁.step (ServerAction.create 0 1 (pair 'a' 'r')) (fun _ _ => ⟨rfl, rfl⟩) rfl
  have h₃ := h₂.step (ServerAction.insertAccess 0) trivial rfl
  have h₄ := h₃.step (ServerAction.insertRefresh 0) trivial rfl
  exact ⟨_, rfl, setUp_of_guarded letters .unset false none [(['k'], .admin)] [] [] h₄⟩

/-- **A request without a token after the signup** on a server that started without users and keys: it is passed on. -/
theorem open_after_signup : ∃ s : Server,
    Runs.Reach (serverStep letters) Runs.Free (Server.start .unset false none [] [] []) s ∧
      s.succeeded = 1 ∧ s.unchecked = [none] ∧ ¬ SetUp s := by
  have h₀ : Runs.Reach (serverStep letters) Runs.Free (Server.start .unset false none [] [] [])
      (Server.start .unset false none [] [] []) := .init
  have h₅ := h₀.run [.count 0 ['a'] 8, .create 0 1 (pair 'a' 'r'), .insertAccess 0,
    .insertRefresh 0, .request .admin none 0] rfl
  refine ⟨_, h₅, rfl, rfl, fun h => ?_⟩
  cases h.checked

end Auth
