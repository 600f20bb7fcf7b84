/-
**The live tail of an explore search.**

A live session authenticates, subscribes, reads what is there (the backfill), and from then on reads
what has been added since: when the write path reports rows it waits a moment and scans the sources
that were touched; every half minute, and when the client resumes, it scans them all.
-/

import Pensieve.ExploreScope
import Pensieve.Runs

namespace Discover

/-! ### The time column of a source -/

inductive TsKind
  | timestamp
  | isoString
  deriving DecidableEq

structure TsColumn where
  name : String
  kind : TsKind
  deriving DecidableEq

def reservedAtColumn : String := "at"

def isoStringTimeNames : List String := ["ts", "timestamp", "event_time", "observed_time", "_time"]

def isTimestamp : Arrow.DataType → Bool
  | .timestamp _ _ => true
  | _ => false

def isStringType (ty : Arrow.DataType) : Bool := ty = .utf8 || ty = .largeUtf8 || ty = .other "Utf8View"

def eqIgnoreAsciiCase (a b : String) : Bool := a.toList.map Char.toLower = b.toList.map Char.toLower

def findTimestampColumn (source : TableRef) : Option TsColumn :=
  match source.schema.find? fun f => f.name ≠ reservedAtColumn && isTimestamp f.dataType with
  | some f => some ⟨f.name, .timestamp⟩
  | none =>
    match source.schema.find? fun f =>
      isStringType f.dataType && isoStringTimeNames.any (eqIgnoreAsciiCase f.name) with
    | some f => some ⟨f.name, .isoString⟩
    | none =>
      (source.schema.find? fun f => isTimestamp f.dataType).map fun f => ⟨f.name, .timestamp⟩

/-! ### Subscriptions -/

def incrementalPerSourceLimit : ℕ := 500

def sourceKey (s : ResolvedSource) : Text := s.db ++ '.' :: s.table.name

structure Sub where
  resolved : List ResolvedSource
  clauses : List (Clause Text)
  timeRange : Option TimeRange
  perSourceLimit : ℕ
  deriving DecidableEq

def Sub.tsSources (sub : Sub) : List ResolvedSource :=
  sub.resolved.filter fun s => (findTimestampColumn s.table).isSome

def Sub.resolvedKeys (sub : Sub) : List Text := sub.tsSources.map sourceKey

variable (rfc3339 : Text → Except String Int)

/-- **How the live session resolves a request**: the same parsers and the same resolver as the HTTP search
(`resolve_for`). -/
def subscribe (v : Server) (p : Principal) (body : SearchRequest) : Except CodedError Sub :=
  match parse body.query with
  | .error e => .error ⟨"grammar_error", e.text⟩
  | .ok clauses =>
    match body.range rfc3339 with
    | .error msg => .error ⟨"bad_time_range", msg⟩
    | .ok timeRange =>
      match resolve body.scope p.tenant v (v.lookup p) v.cap with
      | .error e => .error e.coded
      | .ok resolved => .ok ⟨resolved, clauses, timeRange, body.limit⟩

def Sub.backfill (sub : Sub) : FanoutInput := ⟨sub.resolved, sub.clauses, sub.timeRange, sub.perSourceLimit⟩

def nextWindow (cursorMs nowMs : Int) : Option TimeRange :=
  if nowMs ≤ cursorMs then none else some ⟨cursorMs, nowMs⟩

def Sub.scanIncremental (sub : Sub) (sources : List ResolvedSource) (fromMs toMs : Int) : Option FanoutInput :=
  match nextWindow fromMs toMs with
  | none => none
  | some window =>
    let sources := sources.filter fun s => sub.resolvedKeys.contains (sourceKey s)
    if sources = [] then none else some ⟨sources, sub.clauses, some window, incrementalPerSourceLimit⟩

/-! ### The loop -/

/-- The variables of the loop; `debounce` says that the timer is armed. -/
structure Tail where
  cursorMs : Int
  paused : Bool
  pending : List Text
  debounce : Bool
  deriving DecidableEq

def Tail.start (sub : Sub) (backfillDoneMs : Int) : Tail where
  cursorMs := match sub.timeRange with
    | some t => t.toMs
    | none => backfillDoneMs
  paused := false
  pending := []
  debounce := false

inductive LoopEvent
  | pause
  | resume
  | rowsAppended (database table : Text)
  | lagged
  | debounced
  | fallback
  | heartbeat
  | ignored
  deriving DecidableEq

def Tail.arm (t : Tail) : Tail :=
  if t.debounce = false ∧ t.pending ≠ [] ∧ t.paused = false then { t with debounce := true } else t

def Sub.touched (sub : Sub) (pending : List Text) : List ResolvedSource :=
  sub.tsSources.filter fun s => pending.contains (sourceKey s)

/-- **One turn of the loop** at the time `nowMs`: the loop afterwards, and what it reads in between.  The debounce
timer fires only if it is armed. -/
def Tail.on (sub : Sub) (nowMs : Int) (t : Tail) : LoopEvent → Option (Tail × Option FanoutInput)
  | .pause => some ({ t with paused := true, debounce := false }, none)
  | .resume =>
    some ({ t with paused := false, cursorMs := nowMs, pending := [] },
      sub.scanIncremental sub.tsSources t.cursorMs nowMs)
  | .rowsAppended database table =>
    let key := database ++ '.' :: table
    some ({ t with
      pending := if sub.resolvedKeys.contains key && !t.pending.contains key then t.pending ++ [key]
        else t.pending }, none)
  | .lagged =>
    some ({ t with
      pending := t.pending ++ sub.resolvedKeys.filter fun key => !t.pending.contains key }, none)
  | .debounced =>
    if t.debounce = false then none
    else if t.paused = false ∧ t.pending ≠ [] then
      some ({ t with debounce := false, pending := [], cursorMs := nowMs },
        sub.scanIncremental (sub.touched t.pending) t.cursorMs nowMs)
    else some ({ t with debounce := false }, none)
  | .fallback =>
    if t.paused = false then
      some ({ t with cursorMs := nowMs, pending := [] }, sub.scanIncremental sub.tsSources t.cursorMs nowMs)
    else some (t, none)
  | .heartbeat => some (t, none)
  | .ignored => some (t, none)

theorem mem_scanIncremental {sub : Sub} {sources : List ResolvedSource} {fromMs toMs : Int} {f : FanoutInput}
    (h : sub.scanIncremental sources fromMs toMs = some f) : ∀ s ∈ f.sources, s ∈ sources := by
  rw [Sub.scanIncremental] at h
  split at h
  · cases h
  · dsimp only at h
    split_ifs at h
    cases h
    intro s hs
    exact (List.mem_filter.1 hs).1

theorem Tail.mem_on {sub : Sub} {nowMs : Int} {t t' : Tail} {e : LoopEvent} {f : FanoutInput}
    (h : t.on sub nowMs e = some (t', some f)) : ∀ s ∈ f.sources, s ∈ sub.resolved := by
  have hts : ∀ s ∈ sub.tsSources, s ∈ sub.resolved := fun s hs => (List.mem_filter.1 hs).1
  cases e with
  | pause | rowsAppended | lagged | heartbeat | ignored => cases h
  | resume =>
    have hscan := congrArg Prod.snd (Option.some.inj h)
    exact fun s hs => hts s (mem_scanIncremental hscan s hs)
  | debounced =>
    rw [Tail.on] at h
    split_ifs at h
    · have hscan := congrArg Prod.snd (Option.some.inj h)
      exact fun s hs => hts s (List.mem_filter.1 (mem_scanIncremental hscan s hs)).1
    · cases h
  | fallback =>
    rw [Tail.on] at h
    split_ifs at h
    · have hscan := congrArg Prod.snd (Option.some.inj h)
      exact fun s hs => hts s (mem_scanIncremental hscan s hs)
    · cases h

/-! ### The session -/

inductive ClientMsg
  | auth (token : Text)
  | subscribe (body : SearchRequest)
  | update (body : SearchRequest)
  | pause
  | resume
  deriving DecidableEq

inductive Phase
  | auth
  | subscribing
  /-- after an error, for an `update` -/
  | waiting
  | filling (sub : Sub)
  | live (sub : Sub) (tail : Tail)
  | closed
  deriving DecidableEq

/-- A request as the session met it: with what it found on the server. -/
structure Opened where
  server : Server
  body : SearchRequest

/-- A session; `reads` are the fanouts it has run, and `opened` the requests it has taken. -/
structure Session where
  principal : Option Principal
  phase : Phase
  reads : List FanoutInput
  opened : List Opened

def Session.init : Session := ⟨none, .auth, [], []⟩

inductive Event
  /-- a text message; `none` is one that does not parse -/
  | text (msg : Option ClientMsg)
  | ping
  | gone
  | backfillDone
  | rowsAppended (database table : Text)
  | lagged
  | debounced
  | fallback
  | heartbeat

structure Input where
  server : Server
  nowMs : Int
  event : Event

def Session.resub (st : Session) (v : Server) (p : Principal) (body : SearchRequest) : Session :=
  match subscribe rfc3339 v p body with
  | .error _ => { st with phase := .waiting, opened := st.opened ++ [⟨v, body⟩] }
  | .ok sub =>
    { st with phase := .filling sub, reads := st.reads ++ [sub.backfill], opened := st.opened ++ [⟨v, body⟩] }

def Session.turn (st : Session) (sub : Sub) (tail : Tail) (nowMs : Int) (e : LoopEvent) : Option Session :=
  (tail.arm.on sub nowMs e).map fun (tail', read) =>
    { st with phase := .live sub tail', reads := st.reads ++ read.toList }

def Phase.request : Phase → Option ClientMsg → Option SearchRequest
  | .subscribing, some (.subscribe body) => some body
  | .waiting, some (.update body) => some body
  | .waiting, some (.subscribe body) => some body
  | .live _ _, some (.update body) => some body
  | _, _ => none

def Event.toLoop : Event → LoopEvent
  | .text (some .pause) => .pause
  | .text (some .resume) => .resume
  | .rowsAppended database table => .rowsAppended database table
  | .lagged => .lagged
  | .debounced => .debounced
  | .fallback => .fallback
  | .heartbeat => .heartbeat
  | .text _ | .ping | .gone | .backfillDone => .ignored

variable (authenticate : Text → Option Principal)

def Session.login (st : Session) : Option ClientMsg → Session
  | some (.auth token) =>
    match authenticate token with
    | none => { st with phase := .closed }
    | some p =>
      if p.role.rank < Role.read.rank then { st with phase := .closed }
      else { st with principal := some p, phase := .subscribing }
  | _ => { st with phase := .closed }

/-- **One step of a live session.** -/
def Session.step (st : Session) (i : Input) : Option Session :=
  match st.phase, i.event with
  | .closed, _ => none
  | _, .gone => some { st with phase := .closed }
  | .auth, .text msg => some (st.login authenticate msg)
  | .auth, .ping => some st
  | .filling sub, .backfillDone => some { st with phase := .live sub (.start sub i.nowMs) }
  | .filling _, _ => none
  | .live sub tail, .text msg =>
    match (Phase.live sub tail).request msg, st.principal with
    | some body, some p => some (st.resub rfc3339 i.server p body)
    | _, _ => st.turn sub tail i.nowMs i.event.toLoop
  | .live sub tail, e => st.turn sub tail i.nowMs e.toLoop
  | phase, .text msg =>
    match phase.request msg, st.principal with
    | some body, some p => some (st.resub rfc3339 i.server p body)
    | _, _ => some st
  | _, .ping => some st
  | _, _ => none

theorem Session.login_cases (st : Session) (msg : Option ClientMsg) :
    st.login authenticate msg = { st with phase := .closed } ∨
      ∃ p, st.login authenticate msg = { st with principal := some p, phase := .subscribing } := by
  rw [Session.login.eq_def]
  split
  · split
    · exact .inl rfl
    · split_ifs
      · exact .inl rfl
      · exact .inr ⟨_, rfl⟩
  · exact .inl rfl

/-- **What a step does**: it leaves the phase with no new subscription, lets somebody in, resolves a request, ends
the backfill, or takes a turn of the loop. -/
theorem Session.step_cases {st st' : Session} {i : Input}
    (h : st.step rfc3339 authenticate i = some st') :
    st' = st ∨ st' = { st with phase := .closed } ∨
      (∃ p, st.phase = .auth ∧ st' = { st with principal := some p, phase := .subscribing }) ∨
      (∃ p body, st.principal = some p ∧ st' = st.resub rfc3339 i.server p body) ∨
      (∃ sub, st.phase = .filling sub ∧ st' = { st with phase := .live sub (.start sub i.nowMs) }) ∨
      ∃ sub tail e, st.phase = .live sub tail ∧ st.turn sub tail i.nowMs e = some st' := by
  rw [Session.step] at h
  split at h
  · cases h
  · cases h
    exact .inr (.inl rfl)
  · rename_i msg hphase _
    cases h
    rcases st.login_cases authenticate msg with heq | ⟨p, heq⟩
    · exact .inr (.inl heq)
    · exact .inr (.inr (.inl ⟨p, hphase, heq⟩))
  · cases h
    exact .inl rfl
  · rename_i sub hphase _
    cases h
    exact .inr (.inr (.inr (.inr (.inl ⟨sub, hphase, rfl⟩))))
  · cases h
  · rename_i sub tail msg hphase _
    split at h
    · rename_i body p _ hp
      cases h
      exact .inr (.inr (.inr (.inl ⟨p, body, hp, rfl⟩)))
    · exact .inr (.inr (.inr (.inr (.inr ⟨sub, tail, _, hphase, h⟩))))
  · rename_i sub tail hphase _ _
    exact .inr (.inr (.inr (.inr (.inr ⟨sub, tail, _, hphase, h⟩))))
  · split at h
    · rename_i body p _ hp
      cases h
      exact .inr (.inr (.inr (.inl ⟨p, body, hp, rfl⟩)))
    · cases h
      exact .inl rfl
  · cases h
    exact .inl rfl
  · cases h

end Discover
