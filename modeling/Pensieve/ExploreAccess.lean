/-
**One allow-list for two surfaces.**

A principal may carry a list of the databases it is allowed.  The HTTP search drops the other
sources after it has resolved the scope.
-/

import Pensieve.LiveTail

namespace Discover

open List

variable (rfc3339 : Text → Except String Int) (authenticate : Text → Option Principal)

def Confined (p : Principal) (f : FanoutInput) : Prop := ∀ s ∈ f.sources, p.allows s.db = true

def Alike (p : Principal) (o : Opened) : Prop :=
  (∀ f, discoverSearchHandler rfc3339 o.server p o.body = .ok f → Confined p f) ∧
    (subscribe rfc3339 o.server p o.body).map Sub.resolved =
      (discoverSearchHandler rfc3339 o.server p o.body).map FanoutInput.sources

/-- **The allow-list is enforced**: in all that the session has read, and alike on both surfaces. -/
structure Enforced (p : Principal) (st : Session) : Prop where
  confined : ∀ f ∈ st.reads, Confined p f
  alike : ∀ o ∈ st.opened, Alike rfc3339 p o

/-- **The request covers allowed databases only**, if it is served: if its query and its range can be read, and the
tables that its scope covers are not too many. -/
def Within (p : Principal) (o : Opened) : Prop :=
  (∃ clauses, parse o.body.query = .ok clauses) → (∃ range, o.body.range rfc3339 = .ok range) →
      (selected o.server p o.body.scope).length ≤ o.server.cap →
        ∀ s ∈ selected o.server p o.body.scope, p.allows s.db = true

section Request

variable {v : Server} {p : Principal} {body : SearchRequest} {sub : Sub}

theorem subscribe_eq_ok (h : subscribe rfc3339 v p body = .ok sub) :
    parse body.query = .ok sub.clauses ∧ body.range rfc3339 = .ok sub.timeRange ∧
      (selected v p body.scope).length ≤ v.cap ∧ sub.resolved = selected v p body.scope := by
  rw [subscribe] at h
  split at h
  · cases h
  · rename_i clauses hparse
    split at h
    · cases h
    · rename_i timeRange hrange
      rw [resolve_eq] at h
      split at h
      · cases h
      · rename_i resolved hresolved
        split at hresolved
        · cases hresolved
        · split_ifs at hresolved with hcap
          cases hresolved
          cases h
          exact ⟨hparse, hrange, hcap, rfl⟩

theorem search_eq_subscribe (v : Server) (p : Principal) (body : SearchRequest) :
    (discoverSearchHandler rfc3339 v p body).map FanoutInput.sources =
      ((subscribe rfc3339 v p body).map Sub.resolved).map (List.filter fun s => p.allows s.db) := by
  rw [discoverSearchHandler, subscribe]
  cases parse body.query with
  | error e => rfl
  | ok clauses =>
    cases body.range rfc3339 with
    | error e => rfl
    | ok range => cases resolve body.scope p.tenant v (v.lookup p) v.cap <;> rfl

theorem within_iff_of_ok (h : subscribe rfc3339 v p body = .ok sub) :
    Within rfc3339 p ⟨v, body⟩ ↔ ∀ s ∈ sub.resolved, p.allows s.db = true := by
  obtain ⟨hparse, hrange, hcap, hresolved⟩ := subscribe_eq_ok rfc3339 h
  rw [hresolved]
  constructor
  · intro hwithin
    exact hwithin ⟨_, hparse⟩ ⟨_, hrange⟩ hcap
  · intro hall _ _ _
    exact hall

theorem within_of_error {e : CodedError} (h : subscribe rfc3339 v p body = .error e) :
    Within rfc3339 p ⟨v, body⟩ := by
  rintro ⟨clauses, hparse⟩ ⟨range, hrange⟩ hcap s hs
  dsimp only at hparse hrange hcap hs
  rw [subscribe, hparse, hrange, resolve_eq, if_pos hcap] at h
  cases herror : scopeError v p body.scope with
  | none =>
    rw [herror] at h
    cases h
  | some e =>
    rw [selected] at hs
    rw [scopeError] at herror
    split at herror
    · simp_all
    · simp_all
    · cases herror

theorem alike_iff (p : Principal) (o : Opened) : Alike rfc3339 p o ↔ Within rfc3339 p o := by
  obtain ⟨v, body⟩ := o
  refine (and_iff_right fun f hf => allowed_of_search rfc3339 hf).trans ?_
  rw [search_eq_subscribe]
  dsimp only
  cases h : subscribe rfc3339 v p body with
  | error e => exact iff_of_true rfl (within_of_error rfc3339 h)
  | ok sub =>
    rw [within_iff_of_ok rfc3339 h, ← filter_eq_self]
    constructor
    · intro heq
      exact (Except.ok.inj heq).symm
    · intro heq
      exact congrArg Except.ok heq.symm

end Request

/-! ### A session -/

/-- **What a session is about to read is what its last request covers**: every fanout so far reads sources of some
request that was served, and each such request has been read. -/
structure Traced (p : Principal) (st : Session) : Prop where
  reads : ∀ f ∈ st.reads, ∃ o ∈ st.opened, ∃ sub, subscribe rfc3339 o.server p o.body = .ok sub ∧
    ∀ s ∈ f.sources, s ∈ sub.resolved
  opened : ∀ o ∈ st.opened, ∀ sub, subscribe rfc3339 o.server p o.body = .ok sub → sub.backfill ∈ st.reads
  current : ∀ sub, (st.phase = .filling sub ∨ ∃ tail, st.phase = .live sub tail) →
    ∃ o ∈ st.opened, subscribe rfc3339 o.server p o.body = .ok sub

/-- Where a session stands: until somebody is let in nothing is read, and from then on all is traced. -/
structure Inv (st : Session) : Prop where
  auth : st.phase = .auth → st.principal = none
  nobody : st.principal = none → st.reads = [] ∧ st.opened = [] ∧
    ∀ sub, ¬(st.phase = .filling sub ∨ ∃ tail, st.phase = .live sub tail)
  traced : ∀ p, st.principal = some p → Traced rfc3339 p st

variable {rfc3339 authenticate} {p : Principal} {st st' : Session}

theorem Traced.resub (h : Traced rfc3339 p st) (v : Server) (body : SearchRequest) :
    Traced rfc3339 p (st.resub rfc3339 v p body) := by
  rw [Session.resub]
  cases hsub : subscribe rfc3339 v p body with
  | error e =>
    refine ⟨fun f hf => ?_, fun o ho sub hok => ?_, fun sub hphase => ?_⟩
    · obtain ⟨o, ho, rest⟩ := h.reads f hf
      exact ⟨o, mem_append_left _ ho, rest⟩
    · rcases mem_append.1 ho with ho | ho
      · exact h.opened o ho sub hok
      · rw [mem_singleton.1 ho, hsub] at hok
        cases hok
    · rcases hphase with hphase | ⟨tail, hphase⟩ <;> cases hphase
  | ok new =>
    have hnew : (⟨v, body⟩ : Opened) ∈ st.opened ++ [⟨v, body⟩] := by simp
    refine ⟨fun f hf => ?_, fun o ho sub hok => ?_, fun sub hphase => ?_⟩
    · rcases mem_append.1 hf with hf | hf
      · obtain ⟨o, ho, rest⟩ := h.reads f hf
        exact ⟨o, mem_append_left _ ho, rest⟩
      · rw [mem_singleton.1 hf]
        exact ⟨_, hnew, new, hsub, fun s hs => hs⟩
    · rcases mem_append.1 ho with ho | ho
      · exact mem_append_left _ (h.opened o ho sub hok)
      · rw [mem_singleton.1 ho, hsub] at hok
        cases hok
        simp
    · rcases hphase with hphase | ⟨tail, hphase⟩
      · cases hphase
        exact ⟨_, hnew, hsub⟩
      · cases hphase

theorem Traced.turn (h : Traced rfc3339 p st) {sub : Sub} {tail : Tail} {nowMs : Int} {e : LoopEvent}
    (hphase : st.phase = .live sub tail) (hturn : st.turn sub tail nowMs e = some st') : Traced rfc3339 p st' := by
  obtain ⟨⟨tail', read⟩, hon, rfl⟩ := Option.map_eq_some_iff.1 hturn
  have hcurrent := h.current sub (.inr ⟨tail, hphase⟩)
  refine ⟨fun f hf => ?_, fun o ho sub' hok => ?_, fun sub' hphase' => ?_⟩
  · rcases mem_append.1 hf with hf | hf
    · exact h.reads f hf
    · rw [Option.mem_toList.1 hf] at hon
      obtain ⟨o, ho, hok⟩ := hcurrent
      exact ⟨o, ho, sub, hok, Tail.mem_on hon⟩
  · exact mem_append_left _ (h.opened o ho sub' hok)
  · rcases hphase' with hphase' | ⟨tail'', hphase'⟩
    · cases hphase'
    · cases hphase'
      exact hcurrent

theorem Inv.init : Inv rfc3339 Session.init := ⟨fun _ => rfl, fun _ => ⟨rfl, rfl, nofun⟩, nofun⟩

theorem Inv.of_phase (h : Inv rfc3339 st) {phase : Phase} (hauth : phase ≠ .auth)
    (hphase : ∀ sub, (phase = .filling sub ∨ ∃ tail, phase = .live sub tail) →
      st.phase = .filling sub ∨ ∃ tail, st.phase = .live sub tail) :
    Inv rfc3339 { st with phase := phase } := by
  refine ⟨fun heq => absurd heq hauth, fun hnone => ?_, fun p hp => ?_⟩
  · obtain ⟨hreads, hopened, hno⟩ := h.nobody hnone
    exact ⟨hreads, hopened, fun sub hsub => hno sub (hphase sub hsub)⟩
  · have ht := h.traced p hp
    exact ⟨ht.reads, ht.opened, fun sub hsub => ht.current sub (hphase sub hsub)⟩

theorem principal_resub {v : Server} {body : SearchRequest} :
    (st.resub rfc3339 v p body).principal = st.principal := by
  rw [Session.resub]
  split <;> rfl

theorem phase_resub {v : Server} {body : SearchRequest} : (st.resub rfc3339 v p body).phase ≠ .auth := by
  rw [Session.resub]
  split <;> exact nofun

theorem Inv.step (h : Inv rfc3339 st) {i : Input} (hstep : st.step rfc3339 authenticate i = some st') :
    Inv rfc3339 st' := by
  rcases Session.step_cases rfc3339 authenticate hstep with
    rfl | rfl | ⟨p, hphase, rfl⟩ | ⟨p, body, hp, rfl⟩ | ⟨sub, hphase, rfl⟩ | ⟨sub, tail, e, hphase, hturn⟩
  · exact h
  · exact h.of_phase nofun (by simp)
  · obtain ⟨hreads, hopened, hno⟩ := h.nobody (h.auth hphase)
    refine ⟨nofun, nofun, fun q hq => ⟨?_, ?_, by simp⟩⟩
    · intro f hf
      rw [hreads] at hf
      cases hf
    · intro o ho
      rw [hopened] at ho
      cases ho
  · refine ⟨fun hauth => absurd hauth phase_resub, fun hnone => ?_, fun q hq => ?_⟩
    · rw [principal_resub, hp] at hnone
      cases hnone
    · rw [principal_resub, hp] at hq
      cases hq
      exact (h.traced p hp).resub i.server body
  · refine h.of_phase nofun fun sub' hsub' => ?_
    rcases hsub' with hsub' | ⟨tail, hsub'⟩
    · cases hsub'
    · cases hsub'
      exact .inl hphase
  · have hprincipal : st'.principal = st.principal ∧ st'.phase ≠ .auth := by
      obtain ⟨r, -, rfl⟩ := Option.map_eq_some_iff.1 hturn
      exact ⟨rfl, nofun⟩
    refine ⟨fun hauth => absurd hauth hprincipal.2, fun hnone => ?_, fun p hp => ?_⟩
    · rw [hprincipal.1] at hnone
      exact absurd (.inr ⟨tail, hphase⟩) ((h.nobody hnone).2.2 sub)
    · rw [hprincipal.1] at hp
      exact (h.traced p hp).turn hphase hturn

theorem traced_of_reach (h : Runs.Reach (Session.step rfc3339 authenticate) Runs.Free Session.init st)
    (hp : st.principal = some p) : Traced rfc3339 p st :=
  (h.inv Inv.init fun _ _ _ hi _ hstep => hi.step hstep).traced p hp

theorem Traced.within_of_confined (h : Traced rfc3339 p st) (hall : ∀ f ∈ st.reads, Confined p f)
    {o : Opened} (ho : o ∈ st.opened) : Within rfc3339 p o := by
  cases hsub : subscribe rfc3339 o.server p o.body with
  | error e => exact within_of_error rfc3339 hsub
  | ok sub => exact (within_iff_of_ok rfc3339 hsub).2 (hall _ (h.opened o ho sub hsub))

theorem Traced.confined_of_within (h : Traced rfc3339 p st) (hall : ∀ o ∈ st.opened, Within rfc3339 p o) :
    ∀ f ∈ st.reads, Confined p f := by
  intro f hf s hs
  obtain ⟨o, ho, sub, hsub, hmem⟩ := h.reads f hf
  exact (within_iff_of_ok rfc3339 hsub).1 (hall o ho) s (hmem s hs)

/-- **The allow-list is enforced exactly in the runs whose requests all lie within it.** -/
theorem enforced_iff (h : Runs.Reach (Session.step rfc3339 authenticate) Runs.Free Session.init st)
    (hp : st.principal = some p) : Enforced rfc3339 p st ↔ ∀ o ∈ st.opened, Within rfc3339 p o := by
  have ht := traced_of_reach h hp
  constructor
  · intro henforced o ho
    exact ht.within_of_confined henforced.confined ho
  · intro hall
    exact ⟨ht.confined_of_within hall, fun o ho => (alike_iff rfc3339 p o).2 (hall o ho)⟩

/-! ### Two databases, one of them allowed -/

def twoDatabases : Server where
  listDatabases _ := .ok ["prod".toList, "secret".toList]
  listTables _ _ := .ok [⟨"logs".toList, []⟩]
  savedViews := none
  maxSources := none

def analyst : Principal := ⟨0, .read, none, some ["prod".toList]⟩

def searchIn (scope : Scope) : SearchRequest := ⟨[], scope, none, none⟩

def noTimestamp : Text → Except String Int := fun _ => .error "input is not enough for unique date and time"

def anyToken : Text → Option Principal := fun _ => some analyst

theorem parse_nil : parse [] = .ok [] := by
  rw [parse, parse_eq_evalWords, words]
  rfl

def subscribed (scope : Scope) : Session :=
  Session.resub noTimestamp ⟨some analyst, .subscribing, [], []⟩ twoDatabases analyst (searchIn scope)

theorem reach_subscribed (scope : Scope) :
    Runs.Reach (Session.step noTimestamp anyToken) Runs.Free Session.init (subscribed scope) := by
  have hauth : Runs.Reach (Session.step noTimestamp anyToken) Runs.Free Session.init
      ⟨some analyst, .subscribing, [], []⟩ :=
    .step ⟨twoDatabases, 0, .text (some (.auth []))⟩ .init trivial rfl
  exact hauth.step ⟨twoDatabases, 0, .text (some (.subscribe (searchIn scope)))⟩ trivial rfl

theorem opened_subscribed (scope : Scope) : (subscribed scope).opened = [⟨twoDatabases, searchIn scope⟩] := by
  rw [subscribed, Session.resub]
  split <;> rfl

/-- Searched within what is allowed, the allow-list is enforced. -/
theorem enforced_in_prod : Enforced noTimestamp analyst (subscribed (.sources ["prod.*".toList])) := by
  refine (enforced_iff (reach_subscribed _) principal_resub).2 fun o ho => ?_
  rw [opened_subscribed, mem_singleton] at ho
  subst ho
  intro _ _ _
  decide

/-- **A session that reads a database its principal is not allowed**: the live tail of everything. -/
theorem reads_forbidden : ∃ st, Runs.Reach (Session.step noTimestamp anyToken) Runs.Free Session.init st ∧
      st.principal = some analyst ∧ ¬Enforced noTimestamp analyst st := by
  refine ⟨subscribed .all, reach_subscribed _, principal_resub, fun h => ?_⟩
  have halike := h.alike ⟨twoDatabases, searchIn .all⟩ (by rw [opened_subscribed]; exact mem_cons_self)
  have hwithin := (alike_iff noTimestamp analyst _).1 halike ⟨_, parse_nil⟩ ⟨none, rfl⟩ (by decide)
  have hsecret := hwithin ⟨"secret".toList, ⟨"logs".toList, []⟩⟩ (by decide)
  exact absurd hsecret (by decide)

end Discover
