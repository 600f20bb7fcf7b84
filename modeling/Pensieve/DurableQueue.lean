/-
**The durable queue.**

`submit` takes a number, writes the job to the task store if it is to be durable, and offers it to
the channel of the queue's worker; where the channel is full a durable job is left to the store.
-/

import Pensieve.TaskQueue

namespace DurableQueue

open List
open Catalog (Backend)
open TaskQueue (TaskId NodeId Timestamp submitTask claimTask completeTask failTask picks)

/-! ### Jobs -/

inductive Value
  | null
  | str (text : String)
  | object (fields : List (String × Value))
  | other (text : String)

def Value.asStr : Value → Option String
  | .str text => some text
  | _ => none

def envelope (partition : String) (payload : Value) : Value :=
  .object [("partition", .str partition), ("payload", payload)]

abbrev Row := TaskQueue.Task Value

structure Job where
  seq : ℕ
  partition : String
  payload : Value
  durable : Bool
  taskId : Option TaskId

def openEnvelope : Value → String × Value
  | .object fields =>
    (((fields.lookup "partition").bind Value.asStr).getD "default", (fields.lookup "payload").getD .null)
  | v => ("default", v)

/-- **`job_from_task`**: the job gets a new number. -/
def jobFromTask (seq : ℕ) (task : Row) : Job where
  seq := seq
  partition := (openEnvelope task.payload).1
  payload := (openEnvelope task.payload).2
  durable := true
  taskId := some task.id

/-! ### Processes -/

/-- How far a call of `submit` has come. -/
inductive Stage
  | numbered
  | ready
  | sent
  | closed
  deriving DecidableEq

structure Call where
  job : Job
  stage : Stage

inductive Source
  | channel
  | store
  | drain
  deriving DecidableEq

inductive Phase
  | idle
  | collecting (batch : List Job)
  | claiming (batch : List Job)
  | draining (batch : List Job)
  | handling (source : Source) (batch : List Job) (attempt : ℕ)
  /-- the batch has been handed over; the rows of `rest` are still to be settled -/
  | settling (source : Source) (batch rest : List Job) (ok : Bool)
  | leaving
  | stopped

def Phase.batch : Phase → List Job
  | .collecting batch | .claiming batch | .draining batch | .handling _ batch _ => batch
  | _ => []

def Phase.jobs : Phase → List Job
  | .collecting batch | .claiming batch | .draining batch | .handling _ batch _ | .settling _ batch _ _ => batch
  | _ => []

def Phase.rest : Phase → List Job
  | .settling _ _ rest _ => rest
  | _ => []

def Phase.open? : Phase → Option (Source × List Job)
  | .collecting batch => some (.channel, batch)
  | .claiming batch => some (.store, batch)
  | .draining batch => some (.drain, batch)
  | _ => none

def Phase.receive (maxBatch : ℕ) : Phase → Job → Option Phase
  | .idle, job => some (.collecting [job])
  | .collecting batch, job =>
    if batch.length < maxBatch then some (.collecting (batch ++ [job])) else none
  | .draining batch, job =>
    if batch.length < maxBatch then some (.draining (batch ++ [job])) else none
  | _, _ => none

def Source.next : Source → Phase
  | .channel => .idle
  | .store => .claiming []
  | .drain => .draining []

def Source.exit : Source → Phase
  | .channel | .store => .idle
  | .drain => .leaving

/-- A process with a queue; the marks are 0 for a partition without one. -/
structure Proc where
  seq : ℕ
  channel : List Job
  submitted : String → ℕ
  attempted : String → ℕ
  phase : Phase
  calls : List Call

def Proc.start (durable : Bool) : Proc := ⟨0, [], fun _ => 0, fun _ => 0, if durable then .claiming [] else .idle, []⟩

def raise (marks : String → ℕ) (job : Job) : String → ℕ :=
  Function.update marks job.partition (max (marks job.partition) job.seq)

/-! ### The system -/

structure Config where
  name : String
  maxBatch : ℕ
  channelCap : ℕ
  maxRetries : ℕ

structure Setup (P : Type) where
  backend : Backend
  cfg : Config
  durable : P → Bool
  node : P → NodeId

/-- A job that `submit` has accepted: by the channel, or left to the store. -/
structure Accepted (P : Type) where
  proc : P
  job : Job
  spilled : Bool

structure St (P : Type) where
  tasks : List Row
  procs : P → Proc
  spilled : List TaskId
  accepted : List (Accepted P)
  handed : List (P × Job)

variable {P : Type} [DecidableEq P]

def St.setProc (s : St P) (p : P) (q : Proc) : St P :=
  { s with procs := Function.update s.procs p q }

inductive Action (P : Type)
  /-- `submit` is called and takes its number -/
  | submit (p : P) (partition : String) (payload : Value) (durable : Bool)
  /-- `submit_task` of the call at place `i` -/
  | store (p : P) (i : ℕ) (id : TaskId) (now : Timestamp)
  /-- `try_send` -/
  | send (p : P) (i : ℕ)
  /-- the mark is set, and `submit` returns -/
  | mark (p : P) (i : ℕ)
  /-- `complete_task` for a row whose job the channel has refused -/
  | retire (p : P) (i : ℕ) (now : Timestamp)
  | recv (p : P)
  | close (p : P)
  | poll (p : P)
  | claim (p : P) (now : Timestamp) (locked : List TaskId) (id : TaskId)
  | handle (p : P) (ok : Bool)
  | settle (p : P) (now : Timestamp)
  | finish (p : P)
  | shutdown (p : P)
  | leave (p : P)

def Action.proc : Action P → P
  | .submit p .. | .store p .. | .send p _ | .mark p _ | .retire p .. | .recv p | .close p | .poll p |
    .claim p .. | .handle p _ | .settle p _ | .finish p | .shutdown p | .leave p => p

/-- `claim_from_store` asks for a lease of two minutes. -/
def lease : Int := 120 * 1000000

def retired (S : Setup P) (job : Job) (now : Timestamp) (tasks : List Row) : List Row :=
  match job.taskId with
  | some id => completeTask S.backend id now tasks
  | none => tasks

def settled (S : Setup P) (p : P) (job : Job) (ok : Bool) (now : Timestamp) (tasks : List Row) : List Row :=
  match S.durable p, job.taskId with
  | true, some id =>
    if ok then completeTask S.backend id now tasks
    else failTask S.backend id "batch failed after in-process retries" now tasks
  | _, _ => tasks

def afterHandle (maxRetries : ℕ) (source : Source) (batch : List Job) (attempt : ℕ) (ok : Bool) : Phase :=
  if ok then .settling source batch batch true
  else if maxRetries < attempt + 1 then .settling source batch batch false
  else .handling source batch (attempt + 1)

/-- What `barrier` waits for: the marks of its partitions, or of all of them, when it was called. -/
def Reached (partitions : List String) (marks : String → ℕ) (q : Proc) : Prop :=
  ∀ part, partitions = [] ∨ part ∈ partitions → marks part ≤ q.attempted part

/-- **One step.** -/
def step (S : Setup P) (s : St P) : Action P → Option (St P)
  | .submit p partition payload durable =>
    let q := s.procs p
    let job : Job := ⟨q.seq + 1, partition, payload, durable, none⟩
    let stage := if durable && S.durable p then Stage.numbered else .ready
    some (s.setProc p { q with seq := q.seq + 1, calls := q.calls ++ [⟨job, stage⟩] })
  | .store p i id now =>
    let q := s.procs p
    match q.calls[i]? with
    | some ⟨job, .numbered⟩ =>
      if id ∈ s.tasks.map TaskQueue.Task.id then none
      else
        let row := envelope job.partition job.payload
        some { s.setProc p { q with calls := q.calls.set i ⟨{ job with taskId := some id }, .ready⟩ } with
          tasks := submitTask S.backend id S.cfg.name none row 0 now s.tasks }
    | _ => none
  | .send p i =>
    let q := s.procs p
    match q.calls[i]? with
    | some ⟨job, .ready⟩ =>
      if q.phase matches .stopped then
        some (s.setProc p { q with calls := q.calls.set i ⟨job, .closed⟩ })
      else if q.channel.length < S.cfg.channelCap then
        some (s.setProc p
          { q with channel := q.channel ++ [job], calls := q.calls.set i ⟨job, .sent⟩ })
      else
        match job.taskId with
        | some id =>
          some { s.setProc p { q with calls := q.calls.eraseIdx i } with
            spilled := s.spilled ++ [id], accepted := s.accepted ++ [⟨p, job, true⟩] }
        | none => some (s.setProc p { q with calls := q.calls.eraseIdx i })
    | _ => none
  | .mark p i =>
    let q := s.procs p
    match q.calls[i]? with
    | some ⟨job, .sent⟩ =>
      some { s.setProc p
          { q with submitted := raise q.submitted job, calls := q.calls.eraseIdx i } with
        accepted := s.accepted ++ [⟨p, job, false⟩] }
    | _ => none
  | .retire p i now =>
    let q := s.procs p
    match q.calls[i]? with
    | some ⟨job, .closed⟩ =>
      some { s.setProc p { q with calls := q.calls.eraseIdx i } with
        tasks := retired S job now s.tasks }
    | _ => none
  | .recv p =>
    let q := s.procs p
    match q.channel with
    | job :: rest =>
      (q.phase.receive S.cfg.maxBatch job).map fun phase =>
        s.setProc p { q with phase := phase, channel := rest }
    | [] => none
  | .close p =>
    let q := s.procs p
    match q.phase.open? with
    | some (source, batch) =>
      -- only `drain_channel` goes on for as long as the channel has more
      if source = .drain && !q.channel.isEmpty && batch.length < S.cfg.maxBatch then none
      else
        let phase := if batch.isEmpty then source.exit else .handling source batch 0
        some (s.setProc p { q with phase := phase })
    | none => none
  | .poll p =>
    let q := s.procs p
    match q.phase, q.channel with
    | .idle, [] => if S.durable p then some (s.setProc p { q with phase := .claiming [] }) else none
    | _, _ => none
  | .claim p now locked id =>
    let q := s.procs p
    match q.phase, s.tasks.find? (·.id = id) with
    | .claiming batch, some task =>
      if batch.length < S.cfg.maxBatch && picks S.backend S.cfg.name now locked s.tasks id then
        some { s.setProc p { q with
            seq := q.seq + 1, phase := .claiming (batch ++ [jobFromTask (q.seq + 1) task]) } with
          tasks := claimTask S.backend (S.node p) lease now id s.tasks }
      else none
    | _, _ => none
  | .handle p ok =>
    let q := s.procs p
    match q.phase with
    | .handling source batch attempt =>
      some { s.setProc p { q with
          phase := afterHandle S.cfg.maxRetries source batch attempt ok } with
        handed := s.handed ++ batch.map fun job => (p, job) }
    | _ => none
  | .settle p now =>
    let q := s.procs p
    match q.phase with
    | .settling source batch (job :: rest) ok =>
      some { s.setProc p { q with phase := .settling source batch rest ok } with
        tasks := settled S p job ok now s.tasks }
    | _ => none
  | .finish p =>
    let q := s.procs p
    match q.phase with
    | .settling source batch [] _ =>
      some (s.setProc p
        { q with attempted := batch.foldl raise q.attempted, phase := source.next })
    | _ => none
  | .shutdown p =>
    let q := s.procs p
    match q.phase with
    | .idle => some (s.setProc p { q with phase := .draining [] })
    | _ => none
  | .leave p =>
    let q := s.procs p
    match q.phase with
    | .leaving => some (s.setProc p { q with phase := .stopped, channel := [] })
    | _ => none

section Moves

variable {S : Setup P} {s s' : St P} {a : Action P}

inductive Moved (S : Setup P) (s : St P) : Action P → St P → Prop
  | submit (p : P) (partition : String) (payload : Value) (durable : Bool) :
      Moved S s (.submit p partition payload durable) (s.setProc p { s.procs p with
          seq := (s.procs p).seq + 1
          calls := (s.procs p).calls ++ [⟨⟨(s.procs p).seq + 1, partition, payload, durable, none⟩,
            if durable && S.durable p then .numbered else .ready⟩] })
  | store {p : P} {i : ℕ} {job : Job} {id : TaskId} (now : Timestamp)
      (hcall : (s.procs p).calls[i]? = some ⟨job, .numbered⟩)
      (hid : id ∉ s.tasks.map TaskQueue.Task.id) :
      Moved S s (.store p i id now)
        { s.setProc p { s.procs p with
            calls := (s.procs p).calls.set i ⟨{ job with taskId := some id }, .ready⟩ } with
          tasks := submitTask S.backend id S.cfg.name none (envelope job.partition job.payload) 0 now
            s.tasks }
  | refused {p : P} {i : ℕ} {job : Job} (hcall : (s.procs p).calls[i]? = some ⟨job, .ready⟩)
      (hphase : (s.procs p).phase = .stopped) :
      Moved S s (.send p i)
        (s.setProc p { s.procs p with calls := (s.procs p).calls.set i ⟨job, .closed⟩ })
  | sent {p : P} {i : ℕ} {job : Job} (hcall : (s.procs p).calls[i]? = some ⟨job, .ready⟩)
      (hphase : (s.procs p).phase ≠ .stopped)
      (hcap : (s.procs p).channel.length < S.cfg.channelCap) :
      Moved S s (.send p i) (s.setProc p { s.procs p with
          channel := (s.procs p).channel ++ [job]
          calls := (s.procs p).calls.set i ⟨job, .sent⟩ })
  | spilled {p : P} {i : ℕ} {job : Job} {id : TaskId}
      (hcall : (s.procs p).calls[i]? = some ⟨job, .ready⟩)
      (hfull : S.cfg.channelCap ≤ (s.procs p).channel.length) (hid : job.taskId = some id) :
      Moved S s (.send p i)
        { s.setProc p { s.procs p with calls := (s.procs p).calls.eraseIdx i } with
          spilled := s.spilled ++ [id], accepted := s.accepted ++ [⟨p, job, true⟩] }
  | full {p : P} {i : ℕ} {job : Job} (hcall : (s.procs p).calls[i]? = some ⟨job, .ready⟩)
      (hid : job.taskId = none) :
      Moved S s (.send p i)
        (s.setProc p { s.procs p with calls := (s.procs p).calls.eraseIdx i })
  | mark {p : P} {i : ℕ} {job : Job} (hcall : (s.procs p).calls[i]? = some ⟨job, .sent⟩) : Moved S s (.mark p i)
        { s.setProc p { s.procs p with
            submitted := raise (s.procs p).submitted job
            calls := (s.procs p).calls.eraseIdx i } with
          accepted := s.accepted ++ [⟨p, job, false⟩] }
  | retire {p : P} {i : ℕ} {job : Job} (now : Timestamp)
      (hcall : (s.procs p).calls[i]? = some ⟨job, .closed⟩) :
      Moved S s (.retire p i now)
        { s.setProc p { s.procs p with calls := (s.procs p).calls.eraseIdx i } with
          tasks := retired S job now s.tasks }
  | recv {p : P} {job : Job} {rest : List Job} {phase : Phase}
      (hchannel : (s.procs p).channel = job :: rest)
      (hphase : (s.procs p).phase.receive S.cfg.maxBatch job = some phase) :
      Moved S s (.recv p) (s.setProc p { s.procs p with phase := phase, channel := rest })
  | close {p : P} {source : Source} {batch : List Job}
      (hopen : (s.procs p).phase.open? = some (source, batch)) :
      Moved S s (.close p) (s.setProc p { s.procs p with
          phase := if batch.isEmpty then source.exit else .handling source batch 0 })
  | poll {p : P} (hphase : (s.procs p).phase = .idle) (hchannel : (s.procs p).channel = [])
      (hdurable : S.durable p = true) :
      Moved S s (.poll p) (s.setProc p { s.procs p with phase := .claiming [] })
  | claim {p : P} {batch : List Job} {task : Row} {now : Timestamp} {locked : List TaskId}
      (hphase : (s.procs p).phase = .claiming batch) (htask : task ∈ s.tasks)
      (hpicks : picks S.backend S.cfg.name now locked s.tasks task.id = true) :
      Moved S s (.claim p now locked task.id)
        { s.setProc p { s.procs p with
            seq := (s.procs p).seq + 1
            phase := .claiming (batch ++ [jobFromTask ((s.procs p).seq + 1) task]) } with
          tasks := claimTask S.backend (S.node p) lease now task.id s.tasks }
  | handle {p : P} {source : Source} {batch : List Job} {attempt : ℕ} (ok : Bool)
      (hphase : (s.procs p).phase = .handling source batch attempt) :
      Moved S s (.handle p ok)
        { s.setProc p { s.procs p with
            phase := afterHandle S.cfg.maxRetries source batch attempt ok } with
          handed := s.handed ++ batch.map fun job => (p, job) }
  | settle {p : P} {source : Source} {batch rest : List Job} {job : Job} {ok : Bool}
      (now : Timestamp) (hphase : (s.procs p).phase = .settling source batch (job :: rest) ok) :
      Moved S s (.settle p now)
        { s.setProc p { s.procs p with phase := .settling source batch rest ok } with
          tasks := settled S p job ok now s.tasks }
  | finish {p : P} {source : Source} {batch : List Job} {ok : Bool}
      (hphase : (s.procs p).phase = .settling source batch [] ok) :
      Moved S s (.finish p) (s.setProc p { s.procs p with
          attempted := batch.foldl raise (s.procs p).attempted, phase := source.next })
  | shutdown {p : P} (hphase : (s.procs p).phase = .idle) :
      Moved S s (.shutdown p) (s.setProc p { s.procs p with phase := .draining [] })
  | leave {p : P} (hphase : (s.procs p).phase = .leaving) :
      Moved S s (.leave p) (s.setProc p { s.procs p with phase := .stopped, channel := [] })

theorem moved_of_step (h : step S s a = some s') : Moved S s a s' := by
  cases a with
  | submit p partition payload durable =>
    cases h
    exact .submit p partition payload durable
  | store p i id now =>
    simp only [step] at h
    split at h
    · rename_i job hcall
      split_ifs at h with hid
      cases h
      exact .store now hcall hid
    · cases h
  | send p i =>
    simp only [step] at h
    split at h
    · rename_i job hcall
      split_ifs at h with hstop hcap
      · cases h
        refine .refused hcall ?_
        split at hstop
        · assumption
        · cases hstop
      · cases h
        refine .sent hcall (fun hphase => hstop ?_) hcap
        rw [hphase]
      · split at h
        · rename_i id hid
          cases h
          exact .spilled hcall (Nat.le_of_not_lt hcap) hid
        · rename_i hid
          cases h
          exact .full hcall hid
    · cases h
  | mark p i =>
    simp only [step] at h
    split at h
    · rename_i job hcall
      cases h
      exact .mark hcall
    · cases h
  | retire p i now =>
    simp only [step] at h
    split at h
    · rename_i job hcall
      cases h
      exact .retire now hcall
    · cases h
  | recv p =>
    simp only [step] at h
    split at h
    · rename_i job rest hchannel
      obtain ⟨phase, hphase, rfl⟩ := Option.map_eq_some_iff.1 h
      exact .recv hchannel hphase
    · cases h
  | close p =>
    simp only [step] at h
    split at h
    · rename_i source batch hopen
      split at h
      · cases h
      · cases h
        exact .close hopen
    · cases h
  | poll p =>
    simp only [step] at h
    split at h
    · rename_i hphase hchannel
      split_ifs at h with hdurable
      cases h
      exact .poll hphase hchannel hdurable
    · cases h
  | claim p now locked id =>
    simp only [step] at h
    split at h
    · rename_i batch task hphase htask
      split_ifs at h with hpicks
      cases h
      have hid : task.id = id := by simpa using find?_some htask
      subst hid
      exact .claim hphase (mem_of_find?_eq_some htask) (Bool.and_eq_true _ _ ▸ hpicks).2
    · cases h
  | handle p ok =>
    simp only [step] at h
    split at h
    · rename_i source batch attempt hphase
      cases h
      exact .handle ok hphase
    · cases h
  | settle p now =>
    simp only [step] at h
    split at h
    · rename_i source batch job rest ok hphase
      cases h
      exact .settle now hphase
    · cases h
  | finish p =>
    simp only [step] at h
    split at h
    · rename_i source batch ok hphase
      cases h
      exact .finish hphase
    · cases h
  | shutdown p =>
    simp only [step] at h
    split at h
    · rename_i hphase
      cases h
      exact .shutdown hphase
    · cases h
  | leave p =>
    simp only [step] at h
    split at h
    · rename_i hphase
      cases h
      exact .leave hphase
    · cases h

theorem Moved.frame (h : Moved S s a s') : (∀ p, p ≠ a.proc → s'.procs p = s.procs p) ∧
    (∀ e ∈ s.handed, e ∈ s'.handed) ∧ ∀ x ∈ s'.accepted, x ∈ s.accepted ∨ x.proc = a.proc := by
  have hother : ∀ {p r : P} {q : Proc}, r ≠ p → Function.update s.procs p q r = s.procs r :=
    fun hr => Function.update_of_ne hr _ _
  have hkept : ∀ {p : P} {job : Job} {b : Bool}, ∀ x ∈ s.accepted ++ [⟨p, job, b⟩], x ∈ s.accepted ∨ x.proc = p := by
    intro p job b x hx
    rcases mem_append.1 hx with hx | hx
    · exact .inl hx
    · rw [mem_singleton.1 hx]
      exact .inr rfl
  cases h with
  | submit | store | refused | sent | full | retire | recv | close | poll | claim | settle | finish |
    shutdown | leave => exact ⟨fun _ hr => hother hr, fun _ he => he, fun _ hx => .inl hx⟩
  | spilled | mark => exact ⟨fun _ hr => hother hr, fun _ he => he, hkept⟩
  | handle => exact ⟨fun _ hr => hother hr, fun _ he => mem_append_left _ he, fun _ hx => .inl hx⟩

end Moves

/-! ### Batches -/

variable {phase : Phase}

theorem receive_batch {maxBatch : ℕ} {phase' : Phase} {job : Job}
    (h : phase.receive maxBatch job = some phase') :
    phase'.batch = phase.batch ++ [job] ∧ phase.rest = [] ∧ phase'.rest = [] := by
  cases phase with
  | idle =>
    obtain rfl := Option.some_inj.1 h
    exact ⟨rfl, rfl, rfl⟩
  | collecting batch | draining batch =>
    simp only [Phase.receive] at h
    split_ifs at h
    obtain rfl := Option.some_inj.1 h
    exact ⟨rfl, rfl, rfl⟩
  | claiming _ | handling _ _ _ | settling _ _ _ _ | leaving | stopped => cases h

theorem receive_phase {maxBatch : ℕ} {phase' : Phase} {job : Job}
    (h : phase.receive maxBatch job = some phase') :
    (∃ batch, phase' = .collecting batch) ∨ ∃ batch, phase' = .draining batch := by
  cases phase with
  | idle => exact .inl ⟨[job], (Option.some_inj.1 h).symm⟩
  | collecting batch =>
    simp only [Phase.receive] at h
    split_ifs at h
    exact .inl ⟨_, (Option.some_inj.1 h).symm⟩
  | draining batch =>
    simp only [Phase.receive] at h
    split_ifs at h
    exact .inr ⟨_, (Option.some_inj.1 h).symm⟩
  | claiming _ | handling _ _ _ | settling _ _ _ _ | leaving | stopped => cases h

theorem jobs_of_receive {maxBatch : ℕ} {phase' : Phase} {job : Job}
    (h : phase.receive maxBatch job = some phase') : phase'.jobs = phase.jobs ++ [job] := by
  have hbatch := (receive_batch h).1
  obtain ⟨batch, rfl⟩ | ⟨batch, rfl⟩ := receive_phase h
  all_goals
    refine hbatch.trans (congrArg (· ++ [job]) ?_)
    cases phase with
    | idle | collecting _ | draining _ | claiming _ | handling _ _ _ | leaving | stopped => rfl
    | settling _ _ _ _ => cases h

theorem open_batch {source : Source} {batch : List Job}
    (h : phase.open? = some (source, batch)) : phase.batch = batch ∧ phase.rest = [] := by
  cases phase with
  | collecting b | claiming b | draining b =>
    simp only [Phase.open?, Option.some_inj, Prod.mk.injEq] at h
    exact ⟨h.2, rfl⟩
  | idle | handling _ _ _ | settling _ _ _ _ | leaving | stopped => cases h

theorem closed_batch (source : Source) (batch : List Job) :
    (if batch.isEmpty then source.exit else .handling source batch 0).batch = batch ∧
      (if batch.isEmpty then source.exit else .handling source batch 0).rest = [] := by
  cases batch with
  | nil => cases source <;> exact ⟨rfl, rfl⟩
  | cons job batch => exact ⟨rfl, rfl⟩

theorem next_batch (source : Source) : source.next.batch = [] ∧ source.next.rest = [] := by
  cases source <;> exact ⟨rfl, rfl⟩

theorem settled_cases {P : Type} (S : Setup P) (p : P) (job : Job) (ok : Bool) (now : Timestamp)
    (tasks : List Row) : settled S p job ok now tasks = tasks ∨ ∃ id, job.taskId = some id ∧
      settled S p job ok now tasks = if ok then completeTask S.backend id now tasks
        else failTask S.backend id "batch failed after in-process retries" now tasks := by
  cases hdurable : S.durable p with
  | false => exact .inl (by rw [settled, hdurable])
  | true =>
    cases hid : job.taskId with
    | none => exact .inl (by rw [settled, hdurable, hid])
    | some id => exact .inr ⟨id, rfl, by rw [settled, hdurable, hid]⟩

end DurableQueue
