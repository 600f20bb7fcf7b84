/-
**The jobs of the worker fabric.**

`PgFabricStore` keeps one row per job and moves it by single `UPDATE` statements: a worker claims a
job under a lease, reports progress, extends the lease, and reports that the job is done or failed;
a sweep takes back the jobs whose lease has run out.
-/

import Pensieve.Rows
import Pensieve.Runs
import Mathlib.Data.List.Count

namespace Fabric

open List

/-! ### The row -/

abbrev JobId := Nat
abbrev WorkerId := Nat
abbrev TenantId := Nat

abbrev Timestamp := Int

/-- The statuses of the column's `CHECK`. -/
inductive JobStatus where
  | pending
  | claimed
  | running
  | done
  | failed
  | canceled
  deriving DecidableEq

/-- A row of `jobs`, over the type `J` of JSON values. -/
structure Job (J : Type) where
  id : JobId
  tenantId : TenantId
  kind : String
  payload : J
  status : JobStatus
  priority : Int
  affinityWorkerId : Option WorkerId
  reqCapabilities : List String
  claimedBy : Option WorkerId
  claimExpiresAt : Option Timestamp
  attempt : Int
  maxAttempts : Int
  progress : J
  result : Option J
  lastError : Option String
  createdAt : Timestamp
  updatedAt : Timestamp
  deriving DecidableEq

/-- What `enqueue_job` is given. -/
structure EnqueueJob (J : Type) where
  kind : String
  payload : J
  priority : Int
  affinityWorkerId : Option WorkerId
  reqCapabilities : List String
  maxAttempts : Int

/-- One answer of `claim_job`: the job, the worker and the attempt it was handed out as. -/
structure Handout where
  job : JobId
  worker : WorkerId
  attempt : Int
  deriving DecidableEq

variable {J : Type}

/-- `status IN ('claimed','running')`. -/
def JobStatus.leased : JobStatus → Bool
  | .claimed => true
  | .running => true
  | _ => false

def JobStatus.inFlight : JobStatus → Bool
  | .pending => true
  | .claimed => true
  | .running => true
  | _ => false

/-- `done` and `failed`. -/
def JobStatus.terminal : JobStatus → Bool
  | .done => true
  | .failed => true
  | _ => false

/-- `($n || ' seconds')::interval`. -/
def seconds (n : Int) : Int := n * 1000000

/-! ### The statements -/

/-- Two columns of a unique index collide: `NULL` equals nothing. -/
def sameKey {α : Type} [DecidableEq α] (a b : Option α) : Bool := a.isSome && a = b

/-- The indexes of `jobs`: the primary key, and for jobs in flight one sync per data source and
schedule, one sync per worker and source, one dreaming job per tenant. -/
def conflicts (text : J → String → Option String) (q r : Job J) : Bool :=
  q.id = r.id ||
  (q.status.inFlight && r.status.inFlight && q.kind = r.kind && ((r.kind = "data_source_sync" &&
        sameKey (text q.payload "data_source_id") (text r.payload "data_source_id") &&
        sameKey (text q.payload "scheduled_for") (text r.payload "scheduled_for")) ||
      (r.kind = "source_sync" && sameKey q.affinityWorkerId r.affinityWorkerId &&
        sameKey (text q.payload "source") (text r.payload "source")) ||
      (r.kind = "dreaming" && q.tenantId = r.tenantId)))

def newJob (emptyJson : J) (id : JobId) (tenant : TenantId) (job : EnqueueJob J) (now : Timestamp) : Job J where
  id := id
  tenantId := tenant
  kind := job.kind
  payload := job.payload
  status := .pending
  priority := job.priority
  affinityWorkerId := job.affinityWorkerId
  reqCapabilities := job.reqCapabilities
  claimedBy := none
  claimExpiresAt := none
  attempt := 0
  maxAttempts := job.maxAttempts
  progress := emptyJson
  result := none
  lastError := none
  createdAt := now
  updatedAt := now

def enqueueJob (text : J → String → Option String) (emptyJson : J) (id : JobId)
    (tenant : TenantId) (job : EnqueueJob J) (now : Timestamp) (jobs : List (Job J)) : List (Job J) :=
  Rows.insertNew (conflicts text) (newJob emptyJson id tenant job now) jobs

structure ClaimRequest where
  workerId : WorkerId
  tenant : Option TenantId
  capabilities : List String
  kinds : List String
  leaseSecs : Int

/-- The `WHERE` of the claim. -/
def ClaimRequest.matches (req : ClaimRequest) (now : Timestamp) (j : Job J) : Bool :=
  req.kinds.contains j.kind &&
  req.tenant.all (· = j.tenantId) &&
  j.affinityWorkerId.all (· = req.workerId) &&
  j.reqCapabilities.all req.capabilities.contains &&
  (j.status = .pending || (j.status.leased && j.claimExpiresAt.any (· < now) && j.attempt < j.maxAttempts))

/-- The `ORDER BY` of the claim: pinned jobs first, then by priority, then the oldest. -/
def ClaimRequest.precedes (req : ClaimRequest) (i j : Job J) : Bool :=
  let pinned (j : Job J) : Bool := j.affinityWorkerId = some req.workerId
  if pinned i ≠ pinned j then pinned i
  else if i.priority ≠ j.priority then j.priority < i.priority
  else i.createdAt < j.createdAt

/-- `LIMIT 1 FOR UPDATE SKIP LOCKED` may take the row `id`: it matches, and of the matching rows
that nobody else has locked none comes before it. -/
def ClaimRequest.picks (req : ClaimRequest) (now : Timestamp) (locked : List JobId)
    (jobs : List (Job J)) (id : JobId) : Bool :=
  let next := jobs.filter fun j => req.matches now j && !locked.contains j.id
  next.any fun j => j.id = id && next.all fun i => !req.precedes i j

def Job.claim (req : ClaimRequest) (now : Timestamp) (j : Job J) : Job J :=
  { j with
    status := .claimed
    claimedBy := some req.workerId
    claimExpiresAt := some (now + seconds req.leaseSecs)
    attempt := j.attempt + 1
    updatedAt := now }

/-- The claim's `UPDATE`, for the row the `SELECT` took. -/
def claimJob (req : ClaimRequest) (now : Timestamp) (id : JobId) (jobs : List (Job J)) : List (Job J) :=
  Rows.updateWhere (fun j => j.id = id) (Job.claim req now) jobs

/-- `WHERE id = $1 AND claimed_by = $2 AND status IN ('claimed','running')`. -/
def Job.heldBy (id : JobId) (worker : WorkerId) (j : Job J) : Bool :=
  j.id = id && j.claimedBy = some worker && j.status.leased

def Job.setProgress (snapshot : J) (now : Timestamp) (j : Job J) : Job J :=
  { j with
    progress := snapshot
    status := if j.status = .claimed then .running else j.status
    updatedAt := now }

def jobProgress (id : JobId) (worker : WorkerId) (snapshot : J) (now : Timestamp) : List (Job J) → List (Job J) :=
  Rows.updateWhere (Job.heldBy id worker) (Job.setProgress snapshot now)

def Job.complete (result : J) (now : Timestamp) (j : Job J) : Job J :=
  { j with status := .done, result := some result, claimExpiresAt := none, updatedAt := now }

def completeJob (id : JobId) (worker : WorkerId) (result : J) (now : Timestamp) : List (Job J) → List (Job J) :=
  Rows.updateWhere (Job.heldBy id worker) (Job.complete result now)

def Job.fail (error : String) (now : Timestamp) (j : Job J) : Job J :=
  { j with
    status := if j.maxAttempts ≤ j.attempt then .failed else .pending
    claimedBy := if j.maxAttempts ≤ j.attempt then j.claimedBy else none
    claimExpiresAt := none
    lastError := some error
    updatedAt := now }

def failJob (id : JobId) (worker : WorkerId) (error : String) (now : Timestamp) : List (Job J) → List (Job J) :=
  Rows.updateWhere (Job.heldBy id worker) (Job.fail error now)

def Job.failTerminal (error : String) (now : Timestamp) (j : Job J) : Job J :=
  { j with status := .failed, claimExpiresAt := none, lastError := some error, updatedAt := now }

def failJobTerminal (id : JobId) (worker : WorkerId) (error : String) (now : Timestamp) : List (Job J) → List (Job J) :=
  Rows.updateWhere (Job.heldBy id worker) (Job.failTerminal error now)

def Job.extend (leaseSecs : Int) (now : Timestamp) (j : Job J) : Job J :=
  { j with claimExpiresAt := some (now + seconds leaseSecs), updatedAt := now }

def extendLease (id : JobId) (worker : WorkerId) (leaseSecs : Int) (now : Timestamp) : List (Job J) → List (Job J) :=
  Rows.updateWhere (Job.heldBy id worker) (Job.extend leaseSecs now)

/-- `status IN ('claimed','running') AND claim_expires_at < now()`. -/
def Job.expired (now : Timestamp) (j : Job J) : Bool := j.status.leased && j.claimExpiresAt.any (· < now)

def Job.requeue (now : Timestamp) (j : Job J) : Job J :=
  { j with
    status := .pending
    claimedBy := none
    claimExpiresAt := none
    lastError := some (j.lastError.getD "" ++ " [recovered: stale lease]")
    updatedAt := now }

/-- The first statement of `sweep_stale`. -/
def sweepRequeue (now : Timestamp) : List (Job J) → List (Job J) :=
  Rows.updateWhere (fun j => j.expired now && j.attempt < j.maxAttempts) (Job.requeue now)

def Job.exhaust (now : Timestamp) (j : Job J) : Job J :=
  { j with
    status := .failed
    claimExpiresAt := none
    lastError := some (j.lastError.getD "" ++ " [failed: lease expired, attempts exhausted]")
    updatedAt := now }

/-- The second statement of `sweep_stale`. -/
def sweepFail (now : Timestamp) : List (Job J) → List (Job J) :=
  Rows.updateWhere (fun j => j.expired now && j.maxAttempts ≤ j.attempt) (Job.exhaust now)

/-! ### Runs -/

structure St (J : Type) where
  jobs : List (Job J)
  handouts : List Handout
  deriving DecidableEq

inductive Report (J : Type) where
  | progress (snapshot : J)
  | complete (result : J)
  | fail (error : String)
  | failTerminal (error : String)
  | extendLease (leaseSecs : Int)

def deliver (id : JobId) (worker : WorkerId) (now : Timestamp) : Report J → List (Job J) → List (Job J)
  | .progress snapshot => jobProgress id worker snapshot now
  | .complete result => completeJob id worker result now
  | .fail error => failJob id worker error now
  | .failTerminal error => failJobTerminal id worker error now
  | .extendLease leaseSecs => extendLease id worker leaseSecs now

/-- One statement of some process.  The sweep's two statements are two steps: others may run in
between. -/
inductive Action (J : Type) where
  | enqueue (id : JobId) (tenant : TenantId) (job : EnqueueJob J) (now : Timestamp)
  | claim (req : ClaimRequest) (now : Timestamp) (locked : List JobId) (id : JobId)
  | report (id : JobId) (worker : WorkerId) (r : Report J) (now : Timestamp)
  | sweepRequeue (now : Timestamp)
  | sweepFail (now : Timestamp)

/-- The hand-outs that a claim of `id` makes. -/
def newHandouts (req : ClaimRequest) (id : JobId) (jobs : List (Job J)) : List Handout :=
  (jobs.filter fun j => j.id = id).map fun j => ⟨j.id, req.workerId, j.attempt + 1⟩

/-- **One step.**  A claim that finds no row changes nothing and is not a step. -/
def step (text : J → String → Option String) (emptyJson : J) (s : St J) : Action J → Option (St J)
  | .enqueue id tenant job now =>
    some { s with jobs := enqueueJob text emptyJson id tenant job now s.jobs }
  | .claim req now locked id =>
    if req.picks now locked s.jobs id then
      some { jobs := claimJob req now id s.jobs
             handouts := s.handouts ++ newHandouts req id s.jobs }
    else none
  | .report id worker r now => some { s with jobs := deliver id worker now r s.jobs }
  | .sweepRequeue now => some { s with jobs := Fabric.sweepRequeue now s.jobs }
  | .sweepFail now => some { s with jobs := Fabric.sweepFail now s.jobs }

def St.init : St J := ⟨[], []⟩

/-! ### The invariant of a row -/

structure Job.Ok (j : Job J) : Prop where
  attempt_le : 1 ≤ j.maxAttempts → j.attempt ≤ j.maxAttempts
  pending_lt : j.status = .pending → 1 ≤ j.maxAttempts → j.attempt < j.maxAttempts
  pending_free : j.status = .pending → j.claimedBy = none
  leased_held : j.status.leased → j.claimedBy.isSome ∧ j.claimExpiresAt.isSome

theorem JobStatus.not_terminal_of_leased {st : JobStatus} (h : st.leased) : st.terminal = false := by
  cases st <;> simp_all [JobStatus.leased, JobStatus.terminal]

theorem Job.heldBy_iff {id : JobId} {w : WorkerId} {j : Job J} :
    j.heldBy id w = true ↔ j.id = id ∧ j.claimedBy = some w ∧ j.status.leased = true := by
  simp [Job.heldBy, and_assoc]

variable {req : ClaimRequest}

theorem ClaimRequest.matches_status {now : Timestamp} {j : Job J} (h : req.matches now j = true) :
    j.status = .pending ∨ (j.status.leased = true ∧ j.attempt < j.maxAttempts) := by
  simp only [ClaimRequest.matches, Bool.and_eq_true, Bool.or_eq_true, decide_eq_true_eq] at h
  obtain ⟨-, hp | ⟨⟨hl, -⟩, ha⟩⟩ := h
  · exact .inl hp
  · exact .inr ⟨hl, ha⟩

theorem ClaimRequest.exists_of_picks {now : Timestamp} {locked : List JobId} {jobs : List (Job J)}
    {id : JobId} (h : req.picks now locked jobs id = true) :
    ∃ j ∈ jobs, j.id = id ∧ req.matches now j = true := by
  obtain ⟨j, hj, hc⟩ := any_eq_true.mp h
  obtain ⟨hmem, hm⟩ := mem_filter.mp hj
  simp only [Bool.and_eq_true, decide_eq_true_eq] at hc hm
  exact ⟨j, hmem, hc.1, hm.1⟩

section Rows

variable {j : Job J} {now : Timestamp}

theorem Job.ok_newJob (emptyJson : J) (id : JobId) (tenant : TenantId) (job : EnqueueJob J) :
    (newJob emptyJson id tenant job now).Ok where
  attempt_le h := by
    simp only [newJob] at h ⊢
    omega
  pending_lt _ h := by
    simp only [newJob] at h ⊢
    omega
  pending_free _ := rfl
  leased_held h := by simp [newJob, JobStatus.leased] at h

theorem Job.ok_of_status (ha : 1 ≤ j.maxAttempts → j.attempt ≤ j.maxAttempts)
    (hp : j.status ≠ .pending) (hl : j.status.leased = false) : j.Ok where
  attempt_le := ha
  pending_lt h := absurd h hp
  pending_free h := absurd h hp
  leased_held h := by simp [hl] at h

theorem Job.Ok.claim (h : j.Ok) {req : ClaimRequest} (hm : req.matches now j = true) : (j.claim req now).Ok where
  attempt_le hmax := by
    -- a pending job has attempts left, and so has an expired one by the guard
    rcases req.matches_status hm with hp | ⟨-, hlt⟩
    · have := h.pending_lt hp hmax
      simp only [Job.claim]
      omega
    · simp only [Job.claim]
      omega
  pending_lt hp := by simp [Job.claim] at hp
  pending_free hp := by simp [Job.claim] at hp
  leased_held _ := by simp [Job.claim]

theorem Job.Ok.setProgress (h : j.Ok) (hl : j.status.leased = true) (snapshot : J) :
    (j.setProgress snapshot now).Ok where
  attempt_le := h.attempt_le
  pending_lt hp := by
    simp only [Job.setProgress] at hp
    split at hp
    · cases hp
    · exact h.pending_lt hp
  pending_free hp := by
    simp only [Job.setProgress] at hp
    split at hp
    · cases hp
    · exact h.pending_free hp
  leased_held _ := h.leased_held hl

theorem Job.Ok.complete (h : j.Ok) (result : J) : (j.complete result now).Ok :=
  Job.ok_of_status h.attempt_le (by simp [Job.complete]) rfl

theorem Job.Ok.fail (h : j.Ok) (error : String) : (j.fail error now).Ok where
  attempt_le := h.attempt_le
  pending_lt hp _ := by
    simp only [Job.fail] at hp ⊢
    split at hp
    · cases hp
    · omega
  pending_free hp := by
    simp only [Job.fail] at hp ⊢
    split at hp
    · cases hp
    · rename_i hlt
      simp [hlt]
  leased_held hl := by
    simp only [Job.fail] at hl
    split at hl <;> cases hl

theorem Job.Ok.failTerminal (h : j.Ok) (error : String) : (j.failTerminal error now).Ok :=
  Job.ok_of_status h.attempt_le (by simp [Job.failTerminal]) rfl

theorem Job.Ok.extend (h : j.Ok) (leaseSecs : Int) : (j.extend leaseSecs now).Ok where
  attempt_le := h.attempt_le
  pending_lt := h.pending_lt
  pending_free := h.pending_free
  leased_held hl := ⟨(h.leased_held hl).1, rfl⟩

theorem Job.Ok.requeue (h : j.Ok) (hlt : j.attempt < j.maxAttempts) : (j.requeue now).Ok where
  attempt_le := h.attempt_le
  pending_lt _ _ := hlt
  pending_free _ := rfl
  leased_held hl := by simp [Job.requeue, JobStatus.leased] at hl

theorem Job.Ok.exhaust (h : j.Ok) : (j.exhaust now).Ok := Job.ok_of_status h.attempt_le (by simp [Job.exhaust]) rfl

end Rows

/-! ### What a step can do -/

/-- **A move of a held job.**  It keeps what identifies the job and the attempt it is at; if the
job is still held afterwards, then by the same worker. -/
structure Job.Moves (j j' : Job J) : Prop where
  leased : j.status.leased = true
  id_eq : j'.id = j.id
  attempt_eq : j'.attempt = j.attempt
  owner : j'.status.leased = true → j'.claimedBy = j.claimedBy
  ok : j.Ok → j'.Ok

def Report.apply (r : Report J) (now : Timestamp) : Job J → Job J :=
  match r with
  | .progress snapshot => Job.setProgress snapshot now
  | .complete result => Job.complete result now
  | .fail error => Job.fail error now
  | .failTerminal error => Job.failTerminal error now
  | .extendLease leaseSecs => Job.extend leaseSecs now

theorem deliver_eq (id : JobId) (w : WorkerId) (now : Timestamp) (r : Report J) (jobs : List (Job J)) :
    deliver id w now r jobs = Rows.updateWhere (Job.heldBy id w) (r.apply now) jobs := by
  cases r <;> rfl

@[simp] theorem Report.apply_id (r : Report J) (now : Timestamp) (j : Job J) : (r.apply now j).id = j.id := by
  cases r <;> rfl

theorem Report.moves (r : Report J) (now : Timestamp) {j : Job J} (hl : j.status.leased = true) :
    j.Moves (r.apply now j) where
  leased := hl
  id_eq := r.apply_id now j
  attempt_eq := by cases r <;> rfl
  owner h := by
    cases r with
    | fail error =>
      simp only [Report.apply, Job.fail] at h
      split at h <;> cases h
    | _ => rfl
  ok h := by
    cases r with
    | progress snapshot => exact h.setProgress hl snapshot
    | complete result => exact h.complete result
    | fail error => exact h.fail error
    | failTerminal error => exact h.failTerminal error
    | extendLease leaseSecs => exact h.extend leaseSecs

theorem Job.moves_requeue (now : Timestamp) {j : Job J} (hl : j.status.leased = true)
    (hlt : j.attempt < j.maxAttempts) : j.Moves (j.requeue now) where
  leased := hl
  id_eq := rfl
  attempt_eq := rfl
  owner h := by simp [Job.requeue, JobStatus.leased] at h
  ok h := h.requeue hlt

theorem Job.moves_exhaust (now : Timestamp) {j : Job J} (hl : j.status.leased = true) : j.Moves (j.exhaust now) where
  leased := hl
  id_eq := rfl
  attempt_eq := rfl
  owner h := by simp [Job.exhaust, JobStatus.leased] at h
  ok h := h.exhaust

variable {text : J → String → Option String} {emptyJson : J} {s s' : St J}

/-- **What a step can do:** add a new job, hand out a job, or move held jobs. -/
theorem step_cases {a : Action J} (h : step text emptyJson s a = some s') : (∃ id tenant job now,
      s' = { s with jobs := enqueueJob text emptyJson id tenant job now s.jobs }) ∨
    (∃ req now j, j ∈ s.jobs ∧ req.matches now j = true ∧
      s' = { jobs := claimJob req now j.id s.jobs
             handouts := s.handouts ++ newHandouts req j.id s.jobs }) ∨
    (∃ p f, (∀ j : Job J, (f j).id = j.id) ∧ (∀ j : Job J, p j = true → j.Moves (f j)) ∧
      s' = { s with jobs := Rows.updateWhere p f s.jobs }) := by
  cases a with
  | enqueue id tenant job now =>
    cases h
    exact .inl ⟨id, tenant, job, now, rfl⟩
  | claim req now locked id =>
    simp only [step] at h
    split at h
    · rename_i hp
      obtain ⟨j, hj, rfl, hm⟩ := req.exists_of_picks hp
      cases h
      exact .inr (.inl ⟨req, now, j, hj, hm, rfl⟩)
    · cases h
  | report id w r now =>
    cases h
    refine .inr (.inr ⟨Job.heldBy id w, r.apply now, r.apply_id now, fun j hj => ?_, ?_⟩)
    · exact r.moves now (Job.heldBy_iff.mp hj).2.2
    · rw [deliver_eq]
  | sweepRequeue now =>
    cases h
    refine .inr (.inr ⟨_, Job.requeue now, fun _ => rfl, fun j hj => ?_, rfl⟩)
    simp only [Job.expired, Bool.and_eq_true, decide_eq_true_eq] at hj
    exact Job.moves_requeue now hj.1.1 hj.2
  | sweepFail now =>
    cases h
    refine .inr (.inr ⟨_, Job.exhaust now, fun _ => rfl, fun j hj => ?_, rfl⟩)
    simp only [Job.expired, Bool.and_eq_true, decide_eq_true_eq] at hj
    exact Job.moves_exhaust now hj.1.1

/-! ### The invariant of a state -/

def handoutsOf (id : JobId) (hs : List Handout) : List Handout := hs.filter fun h => h.job = id

/-- **The invariant.**  Ids are unique, every row is sound, a job has been handed out as often as
its attempt says, each time under another number, and a job that is held is held by the worker of
its last hand-out. -/
structure Inv (s : St J) : Prop where
  nodup : (s.jobs.map Job.id).Nodup
  ok : ∀ j ∈ s.jobs, j.Ok
  count : ∀ j ∈ s.jobs, ((handoutsOf j.id s.handouts).length : Int) = j.attempt
  known : ∀ h ∈ s.handouts, ∃ j ∈ s.jobs, j.id = h.job ∧ h.attempt ≤ j.attempt
  unique : ∀ h ∈ s.handouts, ∀ h' ∈ s.handouts, h.job = h'.job → h.attempt = h'.attempt → h = h'
  holder : ∀ j ∈ s.jobs, j.status.leased = true → ∀ w, j.claimedBy = some w → ⟨j.id, w, j.attempt⟩ ∈ s.handouts

theorem inv_init : Inv (St.init : St J) := by
  constructor <;> simp [St.init]

theorem Inv.enqueue (h : Inv s) (id : JobId) (tenant : TenantId) (job : EnqueueJob J) (now : Timestamp) :
    Inv { s with jobs := enqueueJob text emptyJson id tenant job now s.jobs } where
  nodup := by
    refine Rows.nodup_insertNew (fun q hq => ?_) h.nodup
    simp [conflicts, hq]
  ok j hj := by
    rcases Rows.mem_insertNew hj with hj | rfl
    · exact h.ok j hj
    · exact Job.ok_newJob emptyJson id tenant job
  count j hj := by
    unfold enqueueJob Rows.insertNew at hj
    split at hj
    · exact h.count j hj
    · rename_i hno
      rcases mem_append.mp hj with hj | hj
      · exact h.count j hj
      · -- nobody has the new id, so nothing was handed out under it
        obtain rfl := mem_singleton.mp hj
        have hnone : handoutsOf id s.handouts = [] := by
          refine filter_eq_nil_iff.mpr fun x hx hid => hno ?_
          obtain ⟨q, hq, hqid, -⟩ := h.known x hx
          have hqe : q.id = id := hqid.trans (of_decide_eq_true hid)
          exact any_eq_true.mpr ⟨q, hq, by simp [conflicts, newJob, hqe]⟩
        simp [newJob, hnone]
  known x hx := by
    obtain ⟨j, hj, hid, ha⟩ := h.known x hx
    exact ⟨j, Rows.subset_insertNew hj, hid, ha⟩
  unique := h.unique
  holder j hj hl w hw := by
    rcases Rows.mem_insertNew hj with hj | rfl
    · exact h.holder j hj hl w hw
    · simp [newJob] at hw

theorem Inv.newHandouts_eq (h : Inv s) {j : Job J} (hj : j ∈ s.jobs) (req : ClaimRequest) :
    newHandouts req j.id s.jobs = [⟨j.id, req.workerId, j.attempt + 1⟩] := by
  have hfilter : (s.jobs.filter fun i => i.id = j.id) = [j] := Rows.filter_key_eq h.nodup hj
  simp [newHandouts, hfilter]

theorem handoutsOf_append_singleton (id : JobId) (hs : List Handout) (x : Handout) :
    handoutsOf id (hs ++ [x]) = handoutsOf id hs ++ if x.job = id then [x] else [] := by
  simp only [handoutsOf, filter_append]
  by_cases hx : x.job = id
  · simp [hx]
  · simp [hx]

theorem Inv.claim (h : Inv s) {j : Job J} (hj : j ∈ s.jobs) {now : Timestamp}
    (hm : req.matches now j = true) :
    Inv { jobs := claimJob req now j.id s.jobs
          handouts := s.handouts ++ newHandouts req j.id s.jobs : St J } := by
  rw [h.newHandouts_eq hj req]
  -- the rows after the claim: the claimed one, and the others as they were
  have hrows : ∀ q ∈ claimJob req now j.id s.jobs, q = j.claim req now ∨ (q ∈ s.jobs ∧ q.id ≠ j.id) := by
    intro q hq
    obtain ⟨i, hi, ⟨hp, rfl⟩ | ⟨hp, rfl⟩⟩ := Rows.mem_updateWhere.mp hq
    · obtain rfl := Rows.eq_of_key_eq h.nodup hi hj (of_decide_eq_true hp)
      exact .inl rfl
    · exact .inr ⟨hi, of_decide_eq_false hp⟩
  refine ⟨?nodup, ?ok, ?count, ?known, ?unique, ?holder⟩
  case nodup =>
    have hkeys : (claimJob req now j.id s.jobs).map Job.id = s.jobs.map Job.id :=
      Rows.map_key_updateWhere fun _ => rfl
    rw [hkeys]
    exact h.nodup
  case ok =>
    intro q hq
    rcases hrows q hq with rfl | ⟨hq, -⟩
    · exact (h.ok j hj).claim hm
    · exact h.ok q hq
  case count =>
    intro q hq
    rcases hrows q hq with rfl | ⟨hq, hne⟩
    · have hc := h.count j hj
      simp only [Job.claim, handoutsOf_append_singleton, if_true, length_append, length_singleton]
      omega
    · rw [handoutsOf_append_singleton, if_neg (Ne.symm hne), append_nil]
      exact h.count q hq
  case known =>
    intro x hx
    rcases mem_append.mp hx with hx | hx
    · obtain ⟨i, hi, hid, ha⟩ := h.known x hx
      by_cases hij : i.id = j.id
      · obtain rfl := Rows.eq_of_key_eq h.nodup hi hj hij
        refine ⟨i.claim req now, ?_, hid, by simp only [Job.claim]; omega⟩
        exact Rows.mem_updateWhere.mpr ⟨i, hi, .inl ⟨by simp, rfl⟩⟩
      · exact ⟨i, Rows.mem_updateWhere.mpr ⟨i, hi, .inr ⟨by simp [hij], rfl⟩⟩, hid, ha⟩
    · obtain rfl := mem_singleton.mp hx
      exact ⟨j.claim req now, Rows.mem_updateWhere.mpr ⟨j, hj, .inl ⟨by simp, rfl⟩⟩, rfl, Int.le_refl _⟩
  case unique =>
    -- the new hand-out has a number that no earlier one of the job has
    have hnew : ∀ x ∈ s.handouts, x.job = j.id → x.attempt ≠ j.attempt + 1 := by
      intro x hx hid
      obtain ⟨i, hi, hie, ha⟩ := h.known x hx
      obtain rfl := Rows.eq_of_key_eq h.nodup hi hj (hie.trans hid)
      omega
    intro x hx y hy hid ha
    rcases mem_append.mp hx with hx | hx <;> rcases mem_append.mp hy with hy | hy
    · exact h.unique x hx y hy hid ha
    · obtain rfl := mem_singleton.mp hy
      exact absurd ha (hnew x hx hid)
    · obtain rfl := mem_singleton.mp hx
      exact absurd ha.symm (hnew y hy hid.symm)
    · rw [mem_singleton.mp hx, mem_singleton.mp hy]
  case holder =>
    intro q hq hl w hw
    rcases hrows q hq with rfl | ⟨hq, -⟩
    · cases hw
      exact mem_append_right _ (mem_singleton.mpr rfl)
    · exact mem_append_left _ (h.holder q hq hl w hw)

theorem Inv.moves (h : Inv s) {p : Job J → Bool} {f : Job J → Job J}
    (hid : ∀ j, (f j).id = j.id) (hf : ∀ j, p j = true → j.Moves (f j)) :
    Inv { s with jobs := Rows.updateWhere p f s.jobs } where
  nodup := by
    rw [Rows.map_key_updateWhere hid]
    exact h.nodup
  ok := Rows.forall_updateWhere h.ok fun j _ hp => (hf j hp).ok
  count := Rows.forall_updateWhere h.count fun j _ hp hc => by
    rw [hid, (hf j hp).attempt_eq]
    exact hc
  known x hx := by
    obtain ⟨j, hj, hjx, ha⟩ := h.known x hx
    cases hp : p j with
    | true =>
      refine ⟨f j, Rows.mem_updateWhere.mpr ⟨j, hj, .inl ⟨hp, rfl⟩⟩, (hid j).trans hjx, ?_⟩
      rw [(hf j hp).attempt_eq]
      exact ha
    | false => exact ⟨j, Rows.mem_updateWhere.mpr ⟨j, hj, .inr ⟨hp, rfl⟩⟩, hjx, ha⟩
  unique := h.unique
  holder := Rows.forall_updateWhere h.holder fun j hj hp _ hl w hw => by
    have hm := hf j hp
    rw [hid, hm.attempt_eq]
    exact h.holder j hj hm.leased w ((hm.owner hl).symm.trans hw)

theorem Inv.step {a : Action J} (h : Inv s) (hs : step text emptyJson s a = some s') : Inv s' := by
  obtain ⟨id, tenant, job, now, rfl⟩ | ⟨req, now, j, hj, hm, rfl⟩ | ⟨p, f, hid, hf, rfl⟩ := step_cases hs
  · exact h.enqueue id tenant job now
  · exact h.claim hj hm
  · exact h.moves hid hf

theorem inv_of_reach (h : Runs.Reach (step text emptyJson) Runs.Free St.init s) : Inv s :=
  h.inv inv_init fun _ _ _ hi _ hst => hi.step hst

/-! ### The state machine of a job -/

def Job.Later (j j' : Job J) : Prop := j.status.terminal = true → j' = j

theorem Job.Later.refl (j : Job J) : j.Later j := fun _ => rfl

theorem Job.Later.trans (i j k : Job J) (h₁ : i.Later j) (h₂ : j.Later k) : i.Later k := by
  intro ht
  have hij := h₁ ht
  rw [← hij]
  exact h₂ (by rw [hij]; exact ht)

theorem JobStatus.not_terminal_of_matches {now : Timestamp} {j : Job J}
    (h : req.matches now j = true) : j.status.terminal = false := by
  rcases req.matches_status h with hp | ⟨hl, -⟩
  · rw [hp]
    rfl
  · exact JobStatus.not_terminal_of_leased hl

theorem evolves_step {a : Action J} (h : Inv s) (hs : step text emptyJson s a = some s') :
    Rows.Evolves Job.id Job.Later s.jobs s'.jobs := by
  obtain ⟨id, tenant, job, now, rfl⟩ | ⟨req, now, j, hj, hm, rfl⟩ | ⟨p, f, hid, hf, rfl⟩ := step_cases hs
  · exact .insertNew Job.Later.refl
  · refine .updateWhere Job.Later.refl (fun _ => rfl) fun i hi hp ht => ?_
    obtain rfl := Rows.eq_of_key_eq h.nodup hi hj (of_decide_eq_true hp)
    simp [JobStatus.not_terminal_of_matches hm] at ht
  · refine .updateWhere Job.Later.refl hid fun i _ hp ht => ?_
    simp [JobStatus.not_terminal_of_leased (hf i hp).leased] at ht

theorem evolves_of_reach (h : Inv s) (hs : Runs.Reach (step text emptyJson) Runs.Free s s') :
    Inv s' ∧ Rows.Evolves Job.id Job.Later s.jobs s'.jobs := by
  have h₀ : Rows.Evolves Job.id Job.Later s.jobs s.jobs := .of_subset Job.Later.refl (List.Subset.refl _)
  refine hs.inv (I := fun t => Inv t ∧ Rows.Evolves Job.id Job.Later s.jobs t.jobs) ⟨h, h₀⟩ ?_
  rintro t _ t' ⟨hi, he⟩ - hst
  exact ⟨hi.step hst, he.trans Job.Later.trans (evolves_step hi hst)⟩

/-- **The state machine of a job, over all runs.**  A job with at least one attempt is never handed
out more often than it may be; while it is held it has an owner and an expiry, while it is pending
it has no owner; and once it is done or failed its row stays as it is. -/
theorem jobs_lawful (h : Runs.Reach (step text emptyJson) Runs.Free St.init s) :
    (s.jobs.map Job.id).Nodup ∧ ∀ j ∈ s.jobs, 1 ≤ j.maxAttempts → j.attempt ≤ j.maxAttempts ∧
      (j.status = .claimed ∨ j.status = .running → j.claimedBy.isSome ∧ j.claimExpiresAt.isSome) ∧
      (j.status = .pending → j.claimedBy = none) ∧ ((handoutsOf j.id s.handouts).length : Int) ≤ j.maxAttempts ∧
      (j.status = .done ∨ j.status = .failed → ∀ s', Runs.Reach (step text emptyJson) Runs.Free s s' →
          ∃ j' ∈ s'.jobs, j'.id = j.id ∧ j'.status = j.status ∧ j'.attempt = j.attempt ∧
            j'.claimedBy = j.claimedBy) := by
  have hi := inv_of_reach h
  refine ⟨hi.nodup, fun j hj hmax => ?_⟩
  have hok := hi.ok j hj
  have hle := hok.attempt_le hmax
  refine ⟨hle, fun hst => hok.leased_held ?_, hok.pending_free, ?_, fun hst s' hs' => ?_⟩
  · rcases hst with hst | hst <;> simp [hst, JobStatus.leased]
  · rw [hi.count j hj]
    exact hle
  · obtain ⟨j', hj', hid, hlater⟩ := (evolves_of_reach hi hs').2 j hj
    have ht : j.status.terminal = true := by
      rcases hst with hst | hst <;> simp [hst, JobStatus.terminal]
    obtain rfl := hlater ht
    exact ⟨j', hj', rfl, rfl, rfl, rfl⟩

/-! ### Reports of a hand-out that is over -/

theorem Inv.claimedBy_iff (h : Inv s) {j : Job J} (hj : j ∈ s.jobs) (hl : j.status.leased = true)
    (w : WorkerId) : j.claimedBy = some w ↔ ⟨j.id, w, j.attempt⟩ ∈ s.handouts := by
  refine ⟨h.holder j hj hl w, fun hw => ?_⟩
  obtain ⟨v, hv⟩ := Option.isSome_iff_exists.mp ((h.ok j hj).leased_held hl).1
  have heq := h.unique _ (h.holder j hj hl v hv) _ hw rfl rfl
  cases heq
  exact hv

/-- Every report of `w` on the job leaves the table as it is. -/
def ReportsIgnored (s : St J) (id : JobId) (w : WorkerId) : Prop :=
  ∀ (r : Report J) (now : Timestamp), deliver id w now r s.jobs = s.jobs

theorem reportsIgnored_iff [Inhabited J] (h : Inv s) {j : Job J} (hj : j ∈ s.jobs) (w : WorkerId) :
    ReportsIgnored s j.id w ↔ j.heldBy j.id w = false := by
  constructor
  · intro hall
    by_contra hheld
    rw [Bool.not_eq_false] at hheld
    -- a completion would make the job done, and it is not
    have hmem : j.complete default 0 ∈ s.jobs := by
      rw [← hall (.complete default) 0, deliver_eq]
      exact Rows.mem_updateWhere.mpr ⟨j, hj, .inl ⟨hheld, rfl⟩⟩
    have hsame := Rows.eq_of_key_eq h.nodup hmem hj rfl
    have hleased := (Job.heldBy_iff.mp hheld).2.2
    rw [← hsame] at hleased
    simp [Job.complete, JobStatus.leased] at hleased
  · intro hfree r now
    rw [deliver_eq]
    refine Rows.updateWhere_of_forall_not fun q hq => ?_
    by_cases hqj : q.id = j.id
    · rw [Rows.eq_of_key_eq h.nodup hq hj hqj]
      exact hfree
    · simp [Job.heldBy, hqj]

/-- **Stale reports.**  Take a hand-out `n` of a job, to the worker `w`, after which the job has
been handed out again.  Reports for it are ignored exactly if it is not `w` itself that now holds
the job: the statements check who reports, not for which lease. -/
theorem stale_reports_ignored_iff [Inhabited J]
    (h : Runs.Reach (step text emptyJson) Runs.Free St.init s) {id : JobId} {w w' : WorkerId}
    {n m : Int} (_hn : ⟨id, w, n⟩ ∈ s.handouts) (_hm : ⟨id, w', m⟩ ∈ s.handouts) (_hlt : n < m)
    {j : Job J} (hj : j ∈ s.jobs) (hid : j.id = id) :
    ReportsIgnored s id w ↔ ¬((j.status = .claimed ∨ j.status = .running) ∧ ⟨id, w, j.attempt⟩ ∈ s.handouts) := by
  subst hid
  have hi := inv_of_reach h
  have hleased : j.status.leased = true ↔ j.status = .claimed ∨ j.status = .running := by
    cases j.status <;> simp [JobStatus.leased]
  rw [reportsIgnored_iff hi hj, ← Bool.not_eq_true, Job.heldBy_iff, ← hleased]
  refine not_congr ⟨fun ⟨_, hw, hl⟩ => ⟨hl, (hi.claimedBy_iff hj hl w).mp hw⟩, fun ⟨hl, hw⟩ => ?_⟩
  exact ⟨rfl, (hi.claimedBy_iff hj hl w).mpr hw, hl⟩

/-! ### A lease that runs out -/

/-- Worker `w` asks for any job of the kind `dreaming`, for a minute. -/
def dreamingRequest (w : WorkerId) : ClaimRequest := ⟨w, none, [], ["dreaming"], 60⟩

/-- Worker 7 is handed job 1 and falls silent; the sweep puts the job back after 61 seconds, and
worker `v` takes it as the second attempt. -/
def handedOutTwice (v : WorkerId) : List (Action String) :=
  [.enqueue 1 0 ⟨"dreaming", "", 0, none, [], 3⟩ 0, .claim (dreamingRequest 7) 0 [] 1, .sweepRequeue (seconds 61),
   .claim (dreamingRequest v) (seconds 62) [] 1]

def secondAttempt (v : WorkerId) : Job String where
  id := 1
  tenantId := 0
  kind := "dreaming"
  payload := ""
  status := .claimed
  priority := 0
  affinityWorkerId := none
  reqCapabilities := []
  claimedBy := some v
  claimExpiresAt := some (seconds 122)
  attempt := 2
  maxAttempts := 3
  progress := ""
  result := none
  lastError := some " [recovered: stale lease]"
  createdAt := 0
  updatedAt := seconds 62

def twice (v : WorkerId) : St String := ⟨[secondAttempt v], [⟨1, 7, 1⟩, ⟨1, v, 2⟩]⟩

def noText (_ : String) (_ : String) : Option String := none

theorem run_handedOutTwice (v : WorkerId) :
    Runs.run (step noText "") Runs.Free St.init (handedOutTwice v) = some (twice v) := rfl

theorem reach_twice (v : WorkerId) : Runs.Reach (step noText "") Runs.Free St.init (twice v) :=
  Runs.reach_of_run (run_handedOutTwice v)

/-- The second attempt is one of at most three, it has an owner and an expiry. -/
theorem jobs_lawful_twice : (secondAttempt 7).attempt ≤ 3 ∧ (secondAttempt 7).claimedBy.isSome = true ∧
      (handoutsOf 1 (twice 7).handouts).length = 2 := by
  have hjob := (jobs_lawful (reach_twice 7)).2 (secondAttempt 7) (by decide) (by decide)
  exact ⟨hjob.1, (hjob.2.1 (.inl rfl)).1, rfl⟩

/-- **A late report counts for the next lease.**  Worker 7 has been handed the job again, as its
second attempt; the report that the first attempt is complete arrives now, and the job is done. -/
theorem stale_complete_finishes_second_lease : Runs.Reach (step noText "") Runs.Free St.init (twice 7) ∧
      ⟨1, 7, 1⟩ ∈ (twice 7).handouts ∧ ⟨1, 7, 2⟩ ∈ (twice 7).handouts ∧
      deliver 1 7 (seconds 63) (.complete "late") (twice 7).jobs ≠ (twice 7).jobs ∧
      (deliver 1 7 (seconds 63) (.complete "late") (twice 7).jobs).map Job.status = [.done] :=
  ⟨reach_twice 7, by decide, by decide, by decide, rfl⟩

/-- If the second hand-out goes to worker 8, the reports of worker 7 are ignored. -/
theorem stale_reports_ignored_other_worker : ReportsIgnored (twice 8) 1 7 := by
  have hfirst : (⟨1, 7, 1⟩ : Handout) ∈ (twice 8).handouts := by decide
  have hsecond : (⟨1, 8, 2⟩ : Handout) ∈ (twice 8).handouts := by decide
  have hjob : secondAttempt 8 ∈ (twice 8).jobs := by decide
  refine (stale_reports_ignored_iff (reach_twice 8) hfirst hsecond (by decide) hjob rfl).mpr ?_
  decide

end Fabric
