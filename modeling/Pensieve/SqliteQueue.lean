/-
**The local job queue beside the fabric.**

Local mode keeps the jobs of the worker fabric in a SQLite table, and works them off through the
same trait as the server does with Postgres.
-/

import Mathlib.Tactic
import Pensieve.Fabric

namespace LocalQueue

open List
open Fabric (JobId WorkerId TenantId Timestamp JobStatus Handout ClaimRequest EnqueueJob Report sameKey seconds)

variable {J : Type}

/-! ### The local table -/

/-- A row of the local table `jobs`. -/
structure LocalJob (J : Type) where
  id : JobId
  tenantId : TenantId
  kind : String
  payload : J
  status : JobStatus
  priority : Int
  reqCapabilities : List String
  claimedBy : Option WorkerId
  claimExpiresAt : Option Timestamp
  attempt : Int
  maxAttempts : Int
  progress : J
  result : Option J
  lastError : Option String
  createdAt : Timestamp
  updatedAt : Timestamp
  deriving DecidableEq

def conflicts (text : J → String → Option String) (q r : LocalJob J) : Bool :=
  q.id = r.id ||
  (q.status.inFlight && r.status.inFlight && q.kind = r.kind && r.kind = "data_source_sync" &&
    sameKey (text q.payload "data_source_id") (text r.payload "data_source_id") &&
    sameKey (text q.payload "scheduled_for") (text r.payload "scheduled_for"))

def newJob (emptyJson : J) (id : JobId) (tenant : TenantId) (job : EnqueueJob J) (now : Timestamp) : LocalJob J where
  id := id
  tenantId := tenant
  kind := job.kind
  payload := job.payload
  status := .pending
  priority := job.priority
  reqCapabilities := job.reqCapabilities
  claimedBy := none
  claimExpiresAt := none
  attempt := 0
  maxAttempts := job.maxAttempts
  progress := emptyJson
  result := none
  lastError := none
  createdAt := now
  updatedAt := now

def enqueue (text : J → String → Option String) (emptyJson : J) (id : JobId) (tenant : TenantId) (job : EnqueueJob J)
    (now : Timestamp) (jobs : List (LocalJob J)) : List (LocalJob J) :=
  Rows.insertNew (conflicts text) (newJob emptyJson id tenant job now) jobs

/-! ### The claim -/

/-- `status IN ('claimed','running') AND claim_expires_at < ?` -/
def LocalJob.expired (now : Timestamp) (j : LocalJob J) : Bool := j.status.leased && j.claimExpiresAt.any (· < now)

def LocalJob.claimable (now : Timestamp) (j : LocalJob J) : Bool :=
  j.status = .pending || (j.expired now && j.attempt < j.maxAttempts)

/-- `ORDER BY priority DESC, created_at ASC` -/
def LocalJob.precedes (i j : LocalJob J) : Bool :=
  if i.priority ≠ j.priority then j.priority < i.priority else i.createdAt < j.createdAt

structure Urgent (now : Timestamp) (jobs : List (LocalJob J)) (kind : String) (j : LocalJob J) : Prop where
  mem : j ∈ jobs
  kind_eq : j.kind = kind
  claimable : j.claimable now = true
  first : ∀ i ∈ jobs, i.kind = kind → i.claimable now = true → i.precedes j = false

/-- What `SELECT … LIMIT 1` may answer. -/
def Selects (now : Timestamp) (jobs : List (LocalJob J)) (kind : String) : Option (LocalJob J) → Prop
  | none => ∀ j ∈ jobs, j.kind = kind → j.claimable now = false
  | some j => Urgent now jobs kind j

def LocalJob.capable (req : ClaimRequest) (j : LocalJob J) : Bool := j.reqCapabilities.all req.capabilities.contains

/-- The guard of the claim's `UPDATE`. -/
def LocalJob.stillFree (now : Timestamp) (id : JobId) (j : LocalJob J) : Bool :=
  j.id = id && (j.status = .pending || j.expired now)

def LocalJob.claim (req : ClaimRequest) (now : Timestamp) (j : LocalJob J) : LocalJob J :=
  { j with
    status := .claimed
    claimedBy := some req.workerId
    claimExpiresAt := some (now + seconds req.leaseSecs)
    attempt := j.attempt + 1
    updatedAt := now }

/-- **One round of the claim**: the accepted kinds in turn, `select` being what the `SELECT` answers for each. -/
def claimOne (req : ClaimRequest) (now : Timestamp) (select : String → Option (LocalJob J)) (jobs : List (LocalJob J)) :
    List String → Option (List (LocalJob J) × Handout)
  | [] => none
  | kind :: kinds =>
    match select kind with
    | none => claimOne req now select jobs kinds
    | some row =>
      if !row.capable req then claimOne req now select jobs kinds
      else if !jobs.any (·.stillFree now row.id) then claimOne req now select jobs kinds
      else some (Rows.updateWhere (·.stillFree now row.id) (·.claim req now) jobs,
        ⟨row.id, req.workerId, row.attempt + 1⟩)

/-! ### The reports -/

/-- `WHERE id = ? AND claimed_by = ?` -/
def LocalJob.ownedBy (id : JobId) (worker : WorkerId) (j : LocalJob J) : Bool := j.id = id && j.claimedBy = some worker

def progress (id : JobId) (worker : WorkerId) (snapshot : J) (now : Timestamp) :
    List (LocalJob J) → List (LocalJob J) :=
  Rows.updateWhere (LocalJob.ownedBy id worker) fun j => { j with progress := snapshot, updatedAt := now }

def complete (id : JobId) (worker : WorkerId) (result : J) (now : Timestamp) : List (LocalJob J) → List (LocalJob J) :=
  Rows.updateWhere (LocalJob.ownedBy id worker) fun j =>
    { j with status := .done, result := some result, updatedAt := now }

def exhausted (id : JobId) (jobs : List (LocalJob J)) : Bool :=
  match jobs.find? (·.id = id) with
  | none => true
  | some j => j.maxAttempts ≤ j.attempt

def fail (id : JobId) (worker : WorkerId) (error : String) (now : Timestamp) (jobs : List (LocalJob J)) :
    List (LocalJob J) :=
  let newStatus : JobStatus := if exhausted id jobs then .failed else .pending
  Rows.updateWhere (LocalJob.ownedBy id worker) (fun j =>
    { j with
      status := newStatus
      lastError := some error
      claimedBy := none
      claimExpiresAt := none
      updatedAt := now }) jobs

def failTerminal (id : JobId) (worker : WorkerId) (error : String) (now : Timestamp) :
    List (LocalJob J) → List (LocalJob J) :=
  Rows.updateWhere (LocalJob.ownedBy id worker) fun j =>
    { j with
      status := .failed
      lastError := some error
      claimedBy := none
      claimExpiresAt := none
      updatedAt := now }

def extendLease (id : JobId) (worker : WorkerId) (leaseSecs : Int) (now : Timestamp) :
    List (LocalJob J) → List (LocalJob J) :=
  Rows.updateWhere (LocalJob.ownedBy id worker) fun j =>
    { j with claimExpiresAt := some (now + seconds leaseSecs), updatedAt := now }

def deliver (id : JobId) (worker : WorkerId) (now : Timestamp) : Report J → List (LocalJob J) → List (LocalJob J)
  | .progress snapshot => progress id worker snapshot now
  | .complete result => complete id worker result now
  | .fail error => fail id worker error now
  | .failTerminal error => failTerminal id worker error now
  | .extendLease leaseSecs => extendLease id worker leaseSecs now

/-! ### Both queues -/

structure Both (J : Type) where
  jobs : List (LocalJob J)
  handouts : List Handout
  fabric : Fabric.St J

def Both.init : Both J := ⟨[], [], Fabric.St.init⟩

/-- A call of both queues.  For a claim, what the local `SELECT` answers for each kind, and the job that the fabric's
claim takes. -/
inductive Action (J : Type) where
  | enqueue (id : JobId) (tenant : TenantId) (job : EnqueueJob J) (now : Timestamp)
  | claim (req : ClaimRequest) (now : Timestamp) (select : String → Option (LocalJob J)) (pick : Option JobId)
  | report (id : JobId) (worker : WorkerId) (r : Report J) (now : Timestamp)
  | sweepRequeue (now : Timestamp)
  | sweepFail (now : Timestamp)

def Both.claimLocal (s : Both J) (req : ClaimRequest) (now : Timestamp) (select : String → Option (LocalJob J)) :
    List (LocalJob J) × List Handout :=
  match claimOne req now select s.jobs req.kinds with
  | none => (s.jobs, s.handouts)
  | some (jobs, handout) => (jobs, s.handouts ++ [handout])

def fabricAction : Action J → Option (Fabric.Action J)
  | .enqueue id tenant job now => some (.enqueue id tenant job now)
  | .claim req now _ pick => pick.map fun id => .claim req now [] id
  | .report id worker r now => some (.report id worker r now)
  | .sweepRequeue now => some (.sweepRequeue now)
  | .sweepFail now => some (.sweepFail now)

def stepFabric (text : J → String → Option String) (emptyJson : J) (s : Fabric.St J) (a : Action J) :
    Option (Fabric.St J) :=
  match fabricAction a with
  | none => some s
  | some b => Fabric.step text emptyJson s b

def stepLocal (text : J → String → Option String) (emptyJson : J) (s : Both J) :
    Action J → List (LocalJob J) × List Handout
  | .enqueue id tenant job now => (enqueue text emptyJson id tenant job now s.jobs, s.handouts)
  | .claim req now select _ => s.claimLocal req now select
  | .report id worker r now => (deliver id worker now r s.jobs, s.handouts)
  | .sweepRequeue _ => (s.jobs, s.handouts)
  | .sweepFail _ => (s.jobs, s.handouts)

/-- **A step of both queues**. -/
def step (text : J → String → Option String) (emptyJson : J) (s : Both J) (a : Action J) : Option (Both J) :=
  (stepFabric text emptyJson s.fabric a).map fun fabric =>
    ⟨(stepLocal text emptyJson s a).1, (stepLocal text emptyJson s a).2, fabric⟩

/-- What the databases may answer: each local `SELECT` a front row, the fabric, asked for all tenants, no job only if
there is none, and where both may take the same job they do. -/
def Possible (s : Both J) : Action J → Prop
  | .claim req now select pick =>
    req.tenant = none ∧ (∀ kind, Selects now s.jobs kind (select kind)) ∧
      (pick = none → ∀ j ∈ s.fabric.jobs, req.matches now j = false) ∧
      ∀ jobs handout, claimOne req now select s.jobs req.kinds = some (jobs, handout) →
        req.picks now [] s.fabric.jobs handout.job = true → pick = some handout.job
  | _ => True

/-- **The queues show the same**: the same jobs with the same status, attempt and owner, and the same hand-outs. -/
def Agrees (s : Both J) : Prop :=
  List.Forall₂ (fun l f => l.id = f.id ∧ l.status = f.status ∧ l.attempt = f.attempt ∧ l.claimedBy = f.claimedBy)
    s.jobs s.fabric.jobs ∧ s.handouts = s.fabric.handouts

/-! ### The condition -/

def LocalJob.eligible (req : ClaimRequest) (now : Timestamp) (j : LocalJob J) : Bool :=
  req.kinds.contains j.kind && j.capable req && j.claimable now

/-- **The rounds of a claim come to the right job**: there is none for the worker, or the first kind whose front row the
worker is capable of has in front only rows that it is capable of and that no job for the worker precedes. -/
def Fair (req : ClaimRequest) (now : Timestamp) (jobs : List (LocalJob J)) : Prop :=
  (∀ j ∈ jobs, j.eligible req now = false) ∨ ∃ pre kind post, req.kinds = pre ++ kind :: post ∧
      (∀ k ∈ pre, ∀ j, Urgent now jobs k j → j.capable req = false) ∧
      (∃ j, Urgent now jobs kind j) ∧
      ∀ j, Urgent now jobs kind j → j.capable req = true ∧ ∀ i ∈ jobs, i.eligible req now = true → i.precedes j = false

def LocalJob.HeedsReport (j : LocalJob J) : Report J → Prop
  | .progress _ => j.status ≠ .claimed
  | .complete _ => j.status.leased = true ∨ j.status = .done
  | .fail _ => j.status.leased = true ∧ j.attempt < j.maxAttempts
  | .failTerminal _ => False
  | .extendLease _ => True

/-- **The condition on a step.** -/
def Heeds (s : Both J) : Action J → Prop
  | .enqueue _ tenant job _ =>
    job.affinityWorkerId = none ∧ (job.kind = "dreaming" →
        ∀ j ∈ s.jobs, j.kind = "dreaming" → j.tenantId = tenant → j.status.inFlight = false)
  | .claim req now _ _ => Fair req now s.jobs
  | .report id worker r _ => ∀ j ∈ s.jobs, j.ownedBy id worker = true → j.HeedsReport r
  | .sweepRequeue now => ∀ j ∈ s.jobs, j.expired now = true → j.maxAttempts ≤ j.attempt
  | .sweepFail now => ∀ j ∈ s.jobs, j.expired now = true → j.attempt < j.maxAttempts

/-! ### Two rows that are alike -/

structure LocalJob.Same (l : LocalJob J) (f : Fabric.Job J) : Prop where
  id : l.id = f.id
  tenantId : l.tenantId = f.tenantId
  kind : l.kind = f.kind
  payload : l.payload = f.payload
  status : l.status = f.status
  priority : l.priority = f.priority
  reqCapabilities : l.reqCapabilities = f.reqCapabilities
  claimedBy : l.claimedBy = f.claimedBy
  lease : f.status.leased = true → l.claimExpiresAt = f.claimExpiresAt
  attempt : l.attempt = f.attempt
  maxAttempts : l.maxAttempts = f.maxAttempts
  createdAt : l.createdAt = f.createdAt
  unpinned : f.affinityWorkerId = none

section Same

variable {l : LocalJob J} {f : Fabric.Job J} {now : Timestamp} {req : ClaimRequest}

theorem LocalJob.Same.expired_eq (h : l.Same f) : l.expired now = f.expired now := by
  unfold LocalJob.expired Fabric.Job.expired
  rw [h.status]
  cases hleased : f.status.leased with
  | false => rfl
  | true => rw [h.lease hleased]

theorem LocalJob.Same.eligible_eq (h : l.Same f) (htenant : req.tenant = none) :
    l.eligible req now = req.matches now f := by
  unfold LocalJob.eligible LocalJob.capable LocalJob.claimable ClaimRequest.matches
  rw [h.expired_eq, h.kind, h.reqCapabilities, h.status, h.attempt, h.maxAttempts, htenant, h.unpinned]
  simp only [Option.all_none, Bool.and_true, Fabric.Job.expired]

theorem LocalJob.Same.precedes_eq {l' : LocalJob J} {f' : Fabric.Job J} (h : l.Same f) (h' : l'.Same f') :
    l.precedes l' = req.precedes f f' := by
  simp only [LocalJob.precedes, ClaimRequest.precedes, h.unpinned, h'.unpinned, h.priority, h'.priority, h.createdAt,
    h'.createdAt, ne_eq, not_true_eq_false, if_false]

theorem LocalJob.Same.claim (h : l.Same f) : (l.claim req now).Same (f.claim req now) where
  __ := h
  status := rfl
  claimedBy := rfl
  lease _ := rfl
  attempt := by
    show l.attempt + 1 = f.attempt + 1
    rw [h.attempt]

theorem same_newJob (emptyJson : J) (id : JobId) (tenant : TenantId) {job : EnqueueJob J}
    (h : job.affinityWorkerId = none) :
    (newJob emptyJson id tenant job now).Same (Fabric.newJob emptyJson id tenant job now) where
  id := rfl
  tenantId := rfl
  kind := rfl
  payload := rfl
  status := rfl
  priority := rfl
  reqCapabilities := rfl
  claimedBy := rfl
  lease h := by cases h
  attempt := rfl
  maxAttempts := rfl
  createdAt := rfl
  unpinned := h

end Same

/-! ### The invariant -/

/-- **The invariant**: the tables are alike row by row, and the fabric is sound. -/
structure Inv (s : Both J) : Prop where
  rows : List.Forall₂ LocalJob.Same s.jobs s.fabric.jobs
  handouts : s.handouts = s.fabric.handouts
  fabric : Fabric.Inv s.fabric

variable {text : J → String → Option String} {emptyJson : J} {s s' : Both J}

theorem inv_init : Inv (Both.init : Both J) := ⟨.nil, rfl, Fabric.inv_init⟩

theorem Inv.agrees (h : Inv s) : Agrees s :=
  ⟨h.rows.imp fun _ _ hsame => ⟨hsame.id, hsame.status, hsame.attempt, hsame.claimedBy⟩, h.handouts⟩

theorem Inv.exists_fabric (h : Inv s) {l : LocalJob J} (hl : l ∈ s.jobs) : ∃ f ∈ s.fabric.jobs, l.Same f := by
  obtain ⟨i, hi, rfl⟩ := mem_iff_getElem.1 hl
  have hi' : i < s.fabric.jobs.length := h.rows.length_eq ▸ hi
  exact ⟨s.fabric.jobs[i], getElem_mem hi', h.rows.get hi hi'⟩

theorem Inv.exists_local (h : Inv s) {f : Fabric.Job J} (hf : f ∈ s.fabric.jobs) : ∃ l ∈ s.jobs, l.Same f := by
  obtain ⟨i, hi, rfl⟩ := mem_iff_getElem.1 hf
  have hi' : i < s.jobs.length := h.rows.length_eq ▸ hi
  exact ⟨s.jobs[i], getElem_mem hi', h.rows.get hi' hi⟩

theorem Inv.map_id (h : Inv s) : s.jobs.map LocalJob.id = s.fabric.jobs.map Fabric.Job.id := by
  have hrows := h.rows
  generalize s.jobs = jobs, s.fabric.jobs = rows at hrows ⊢
  induction hrows with
  | nil => rfl
  | cons hsame _ ih => rw [map_cons, map_cons, hsame.id, ih]

theorem Inv.nodup (h : Inv s) : (s.jobs.map LocalJob.id).Nodup := h.map_id ▸ h.fabric.nodup

/-! ### Enqueue -/

variable {id : JobId}

theorem Inv.conflicts_eq (h : Inv s) {tenant : TenantId} {job : EnqueueJob J} {now : Timestamp}
    (hheeds : Heeds s (.enqueue id tenant job now)) :
    (s.jobs.any fun q => conflicts text q (newJob emptyJson id tenant job now)) =
      s.fabric.jobs.any fun q => Fabric.conflicts text q (Fabric.newJob emptyJson id tenant job now) := by
  obtain ⟨hpinned, hdreaming⟩ := hheeds
  refine Rows.any_eq_of_forall₂ h.rows fun l f hf hsame => ?_
  have hfree : job.kind = "dreaming" → f.kind = "dreaming" → f.tenantId = tenant → f.status.inFlight = false := by
    intro hjob hkind htenant
    obtain ⟨l', hl', hsame'⟩ := h.exists_local hf
    rw [← hsame'.status]
    exact hdreaming hjob l' hl' (hsame'.kind.trans hkind) (hsame'.tenantId.trans htenant)
  unfold conflicts Fabric.conflicts newJob Fabric.newJob
  rw [hsame.id, hsame.status, hsame.kind, hsame.payload, hsame.unpinned]
  dsimp only
  by_cases hsync : job.kind = "data_source_sync"
  · simp [hsync, sameKey, Bool.and_assoc]
  · by_cases hdream : job.kind = "dreaming" ∧ f.kind = "dreaming" ∧ f.tenantId = tenant
    · simp [hfree hdream.1 hdream.2.1 hdream.2.2]
    · by_cases hkind : f.kind = job.kind
      · have hneither : ¬ (job.kind = "dreaming" ∧ f.tenantId = tenant) := fun hboth =>
          hdream ⟨hboth.1, hkind.trans hboth.1, hboth.2⟩
        simp [hsync, hneither, sameKey]
      · simp [hkind]

theorem Inv.enqueue (h : Inv s) {tenant : TenantId} {job : EnqueueJob J} {now : Timestamp}
    (hheeds : Heeds s (.enqueue id tenant job now)) :
    List.Forall₂ LocalJob.Same (LocalQueue.enqueue text emptyJson id tenant job now s.jobs)
      (Fabric.enqueueJob text emptyJson id tenant job now s.fabric.jobs) := by
  unfold LocalQueue.enqueue Fabric.enqueueJob Rows.insertNew
  rw [h.conflicts_eq hheeds]
  split
  · exact h.rows
  · exact rel_append h.rows (.cons (same_newJob emptyJson id tenant hheeds.1) .nil)

section Claim

variable {req : ClaimRequest} {now : Timestamp} {select : String → Option (LocalJob J)} {jobs : List (LocalJob J)}

theorem LocalJob.eligible_iff {j : LocalJob J} :
    j.eligible req now = true ↔ j.kind ∈ req.kinds ∧ j.capable req = true ∧ j.claimable now = true := by
  simp [LocalJob.eligible, and_assoc]

theorem LocalJob.stillFree_of_claimable {j : LocalJob J} (h : j.claimable now = true) :
    j.stillFree now j.id = true := by
  simp only [LocalJob.claimable, LocalJob.stillFree, Bool.or_eq_true, Bool.and_eq_true, decide_eq_true_eq] at h ⊢
  exact ⟨trivial, h.imp_right fun hexpired => hexpired.1⟩

variable {kinds : List String}

theorem claimOne_skip {kind : String} (h : ∀ row, select kind = some row → row.capable req = false) :
    claimOne req now select jobs (kind :: kinds) = claimOne req now select jobs kinds := by
  rw [claimOne]
  split
  · rfl
  · rename_i row hrow
    rw [if_pos (by simp [h row hrow])]

theorem claimOne_append {pre post : List String}
    (h : ∀ kind ∈ pre, ∀ row, select kind = some row → row.capable req = false) :
    claimOne req now select jobs (pre ++ post) = claimOne req now select jobs post := by
  induction pre with
  | nil => rfl
  | cons kind pre ih =>
    rw [cons_append, claimOne_skip (h kind mem_cons_self)]
    exact ih fun k hk => h k (mem_cons_of_mem _ hk)

theorem claimOne_none (h : ∀ kind ∈ kinds, ∀ row, select kind = some row → row.capable req = false) :
    claimOne req now select jobs kinds = none := by
  have happ : claimOne req now select jobs (kinds ++ []) = claimOne req now select jobs [] := claimOne_append h
  rwa [append_nil] at happ

theorem claimOne_found {kind : String} {row : LocalJob J} (hselect : select kind = some row)
    (hrow : Urgent now jobs kind row) (hcapable : row.capable req = true) :
    claimOne req now select jobs (kind :: kinds) =
      some (Rows.updateWhere (·.stillFree now row.id) (·.claim req now) jobs,
        ⟨row.id, req.workerId, row.attempt + 1⟩) := by
  have hfree : jobs.any (·.stillFree now row.id) = true :=
    any_eq_true.2 ⟨row, hrow.mem, LocalJob.stillFree_of_claimable hrow.claimable⟩
  rw [claimOne, hselect]
  simp [hcapable, hfree]

/-- **A fair claim**: there is no job for the worker and no round finds one, or one takes the front job of all. -/
theorem claimOne_cases (hselects : ∀ kind, Selects now jobs kind (select kind)) (hfair : Fair req now jobs) :
    ((∀ j ∈ jobs, j.eligible req now = false) ∧ claimOne req now select jobs req.kinds = none) ∨
      ∃ row ∈ jobs, row.eligible req now = true ∧ (∀ i ∈ jobs, i.eligible req now = true → i.precedes row = false) ∧
        claimOne req now select jobs req.kinds = some (Rows.updateWhere (·.stillFree now row.id) (·.claim req now) jobs,
            ⟨row.id, req.workerId, row.attempt + 1⟩) := by
  have hurgent {kind : String} {row : LocalJob J} (h : select kind = some row) : Urgent now jobs kind row := by
    have hrow := hselects kind
    rwa [h] at hrow
  rcases hfair with hnone | ⟨pre, kind, post, hkinds, hpre, ⟨j, hj⟩, hkind⟩
  · refine .inl ⟨hnone, claimOne_none fun kind hmem row hrow => ?_⟩
    have hrow' := hurgent hrow
    by_contra hcapable
    rw [Bool.not_eq_false] at hcapable
    have heligible : row.eligible req now = true :=
      LocalJob.eligible_iff.2 ⟨by rw [hrow'.kind_eq]; exact hmem, hcapable, hrow'.claimable⟩
    rw [hnone row hrow'.mem] at heligible
    cases heligible
  · cases hselect : select kind with
    | none =>
      have hempty := hselects kind
      rw [hselect] at hempty
      have hj' := hj.claimable
      rw [hempty j hj.mem hj.kind_eq] at hj'
      cases hj'
    | some row =>
      have hrow := hurgent hselect
      obtain ⟨hcapable, hfirst⟩ := hkind row hrow
      refine .inr ⟨row, hrow.mem, LocalJob.eligible_iff.2 ⟨?_, hcapable, hrow.claimable⟩, hfirst, ?_⟩
      · rw [hrow.kind_eq, hkinds]
        exact mem_append_right _ mem_cons_self
      · rw [hkinds, claimOne_append fun k hk row' hrow' => hpre k hk row' (hurgent hrow')]
        exact claimOne_found hselect hrow hcapable

end Claim

theorem Inv.same_of_id (h : Inv s) {l : LocalJob J} (hl : l ∈ s.jobs) {f : Fabric.Job J} (hf : f ∈ s.fabric.jobs)
    (hid : f.id = l.id) : l.Same f := by
  obtain ⟨g, hg, hsame⟩ := h.exists_fabric hl
  obtain rfl := Rows.eq_of_key_eq h.fabric.nodup hf hg (hid.trans hsame.id)
  exact hsame

theorem Inv.claimRows (h : Inv s) {req : ClaimRequest} {now : Timestamp} {row : LocalJob J} (hrow : row ∈ s.jobs)
    (hclaimable : row.claimable now = true) :
    List.Forall₂ LocalJob.Same (Rows.updateWhere (·.stillFree now row.id) (·.claim req now) s.jobs)
      (Fabric.claimJob req now row.id s.fabric.jobs) := by
  refine Rows.forall₂_updateWhere h.rows fun l f hf hsame => ?_
  by_cases hid : f.id = row.id
  · have hsame' := h.same_of_id hrow hf hid
    have hfree : l.stillFree now row.id = true := by
      have hrow' := LocalJob.stillFree_of_claimable hclaimable
      unfold LocalJob.stillFree at hrow' ⊢
      rw [hsame.id, hid, hsame.status, hsame.expired_eq]
      rwa [hsame'.status, hsame'.expired_eq] at hrow'
    rw [hfree, decide_eq_true hid]
    exact hsame.claim
  · have hnot : l.stillFree now row.id = false := by simp [LocalJob.stillFree, hsame.id, hid]
    rw [hnot, decide_eq_false hid]
    exact hsame

theorem Inv.picks (h : Inv s) {req : ClaimRequest} {now : Timestamp} {row : LocalJob J} (htenant : req.tenant = none)
    (hrow : row ∈ s.jobs) (heligible : row.eligible req now = true)
    (hfirst : ∀ i ∈ s.jobs, i.eligible req now = true → i.precedes row = false) :
    req.picks now [] s.fabric.jobs row.id = true := by
  obtain ⟨f, hf, hsame⟩ := h.exists_fabric hrow
  refine any_eq_true.2 ⟨f, mem_filter.2 ⟨hf, ?_⟩, ?_⟩
  · rw [← hsame.eligible_eq htenant, heligible]
    rfl
  · rw [Bool.and_eq_true, decide_eq_true_eq, all_eq_true]
    refine ⟨hsame.id.symm, fun g hg => ?_⟩
    obtain ⟨hg, hmatches⟩ := mem_filter.1 hg
    obtain ⟨i, hi, hsame'⟩ := h.exists_local hg
    rw [Bool.and_eq_true, ← hsame'.eligible_eq htenant] at hmatches
    rw [← hsame'.precedes_eq hsame, hfirst i hi hmatches.1]
    rfl

theorem stepFabric_claim {req : ClaimRequest} {now : Timestamp}
    {select : String → Option (LocalJob J)} {fabric : Fabric.St J}
    (h : stepFabric text emptyJson s.fabric (.claim req now select (some id)) = some fabric) :
    req.picks now [] s.fabric.jobs id = true ∧ fabric = ⟨Fabric.claimJob req now id s.fabric.jobs,
        s.fabric.handouts ++ Fabric.newHandouts req id s.fabric.jobs⟩ := by
  simp only [stepFabric, fabricAction, Option.map_some, Fabric.step] at h
  split at h
  · rename_i hpicks
    exact ⟨hpicks, (Option.some.inj h).symm⟩
  · cases h

theorem Inv.claim (h : Inv s) {req : ClaimRequest} {now : Timestamp} {select : String → Option (LocalJob J)}
    {pick : Option JobId} {fabric : Fabric.St J} (hpossible : Possible s (.claim req now select pick))
    (hfair : Fair req now s.jobs)
    (hfabric : stepFabric text emptyJson s.fabric (.claim req now select pick) = some fabric) :
    List.Forall₂ LocalJob.Same (s.claimLocal req now select).1 fabric.jobs ∧
      (s.claimLocal req now select).2 = fabric.handouts := by
  obtain ⟨htenant, hselects, -, halike⟩ := hpossible
  unfold Both.claimLocal
  rcases claimOne_cases hselects hfair with ⟨hnone, hclaim⟩ | ⟨row, hrow, heligible, hfirst, hclaim⟩
  · rw [hclaim]
    cases pick with
    | none =>
      cases hfabric
      exact ⟨h.rows, h.handouts⟩
    | some id =>
      -- the fabric would have taken a job that the worker may have
      obtain ⟨f, hf, -, hmatches⟩ := req.exists_of_picks (stepFabric_claim hfabric).1
      obtain ⟨l, hl, hsame⟩ := h.exists_local hf
      rw [← hsame.eligible_eq htenant, hnone l hl] at hmatches
      cases hmatches
  · have hpick := halike _ _ hclaim (h.picks htenant hrow heligible hfirst)
    obtain rfl := hpick
    obtain ⟨-, rfl⟩ := stepFabric_claim hfabric
    rw [hclaim]
    refine ⟨h.claimRows hrow (LocalJob.eligible_iff.1 heligible).2.2, ?_⟩
    obtain ⟨f, hf, hsame⟩ := h.exists_fabric hrow
    dsimp only
    rw [hsame.id, h.fabric.newHandouts_eq hf, h.handouts, hsame.attempt]

/-! ### Reports -/

theorem exhausted_eq_false {jobs : List (LocalJob J)} (hnodup : (jobs.map LocalJob.id).Nodup) {l : LocalJob J}
    (hl : l ∈ jobs) (hlt : l.attempt < l.maxAttempts) : exhausted l.id jobs = false := by
  unfold exhausted
  split
  · rename_i hnone
    exact absurd (find?_eq_none.1 hnone l hl) (by simp)
  · rename_i j hsome
    have hid : j.id = l.id := by simpa using find?_some hsome
    obtain rfl := Rows.eq_of_key_eq hnodup (mem_of_find?_eq_some hsome) hl hid
    exact decide_eq_false (by omega)

theorem LocalJob.Same.heldBy_eq {l : LocalJob J} {f : Fabric.Job J} (h : l.Same f) (id : JobId) (worker : WorkerId) :
    f.heldBy id worker = (l.ownedBy id worker && f.status.leased) := by
  unfold Fabric.Job.heldBy LocalJob.ownedBy
  rw [h.id, h.claimedBy]

theorem Inv.heedsReport (h : Inv s) {worker : WorkerId} {r : Report J} {now : Timestamp}
    (hheeds : Heeds s (.report id worker r now)) {l : LocalJob J} {f : Fabric.Job J}
    (hf : f ∈ s.fabric.jobs) (hsame : l.Same f) (hown : l.ownedBy id worker = true) : l.HeedsReport r := by
  obtain ⟨j, hj, hsame'⟩ := h.exists_local hf
  have hstatus : j.status = l.status := hsame'.status.trans hsame.status.symm
  have hattempt : j.attempt = l.attempt := hsame'.attempt.trans hsame.attempt.symm
  have hmax : j.maxAttempts = l.maxAttempts := hsame'.maxAttempts.trans hsame.maxAttempts.symm
  have hown' : j.ownedBy id worker = true := by
    unfold LocalJob.ownedBy at hown ⊢
    rwa [hsame'.id, hsame'.claimedBy, ← hsame.id, ← hsame.claimedBy]
  have hj' := hheeds j hj hown'
  cases r <;> simp only [LocalJob.HeedsReport, hstatus, hattempt, hmax] at hj' ⊢ <;> exact hj'

theorem Inv.deliver (h : Inv s) {worker : WorkerId} {r : Report J} {now : Timestamp}
    (hheeds : Heeds s (.report id worker r now)) :
    List.Forall₂ LocalJob.Same (LocalQueue.deliver id worker now r s.jobs)
      (Fabric.deliver id worker now r s.fabric.jobs) := by
  have hheeds' := @Inv.heedsReport _ _ id h _ _ _ hheeds
  cases r with
  | progress snapshot =>
    refine Rows.forall₂_updateWhere h.rows fun l f hf hsame => ?_
    rw [hsame.heldBy_eq]
    cases hown : l.ownedBy id worker with
    | false => exact hsame
    | true =>
      have hne : f.status ≠ .claimed := hsame.status ▸ hheeds' hf hsame hown
      cases hleased : f.status.leased with
      | false => exact { hsame with }
      | true => exact { hsame with status := by simp [Fabric.Job.setProgress, hne, hsame.status]
                                   lease := fun _ => hsame.lease hleased }
  | complete result =>
    refine Rows.forall₂_updateWhere h.rows fun l f hf hsame => ?_
    rw [hsame.heldBy_eq]
    cases hown : l.ownedBy id worker with
    | false => exact hsame
    | true =>
      have hst := hheeds' hf hsame hown
      simp only [LocalJob.HeedsReport, hsame.status] at hst
      cases hleased : f.status.leased with
      | false =>
        have hdone : f.status = .done := hst.resolve_left (by simp [hleased])
        exact { hsame with status := hdone.symm }
      | true => exact { hsame with status := rfl, lease := fun hl => by cases hl }
  | fail error =>
    refine Rows.forall₂_updateWhere h.rows fun l f hf hsame => ?_
    rw [hsame.heldBy_eq]
    cases hown : l.ownedBy id worker with
    | false => exact hsame
    | true =>
      obtain ⟨hleased, hlt⟩ := hheeds' hf hsame hown
      have hleft : exhausted id s.jobs = false := by
        obtain ⟨j, hj, hsame'⟩ := h.exists_local hf
        have hid : j.id = id := by
          rw [hsame'.id, ← hsame.id]
          simp only [LocalJob.ownedBy, Bool.and_eq_true, decide_eq_true_eq] at hown
          exact hown.1
        rw [hsame.attempt, hsame.maxAttempts, ← hsame'.attempt, ← hsame'.maxAttempts] at hlt
        exact hid ▸ exhausted_eq_false h.nodup hj hlt
      rw [hsame.status] at hleased
      rw [hsame.attempt, hsame.maxAttempts, ← not_le] at hlt
      rw [hleased, hleft]
      exact { hsame with
        status := by simp [Fabric.Job.fail, hlt]
        claimedBy := by simp [Fabric.Job.fail, hlt]
        lease := fun _ => rfl }
  | failTerminal error =>
    refine Rows.forall₂_updateWhere h.rows fun l f hf hsame => ?_
    rw [hsame.heldBy_eq]
    cases hown : l.ownedBy id worker with
    | false => exact hsame
    | true => exact (hheeds' hf hsame hown).elim
  | extendLease leaseSecs =>
    refine Rows.forall₂_updateWhere h.rows fun l f hf hsame => ?_
    rw [hsame.heldBy_eq]
    cases hown : l.ownedBy id worker with
    | false => exact hsame
    | true =>
      cases hleased : f.status.leased with
      | false => exact { hsame with lease := fun hl => by simp [hleased] at hl }
      | true => exact { hsame with lease := fun _ => rfl }

/-! ### Steps and runs -/

theorem Inv.sweep (h : Inv s) {p : Fabric.Job J → Bool} {f : Fabric.Job J → Fabric.Job J}
    (hp : ∀ l ∈ s.jobs, ∀ g : Fabric.Job J, l.Same g → p g = false) :
    List.Forall₂ LocalJob.Same s.jobs (Rows.updateWhere p f s.fabric.jobs) := by
  rw [Rows.updateWhere_of_forall_not fun g hg => ?_]
  · exact h.rows
  · obtain ⟨l, hl, hsame⟩ := h.exists_local hg
    exact hp l hl g hsame

variable {a : Action J}

theorem step_eq_some (h : step text emptyJson s a = some s') :
    stepFabric text emptyJson s.fabric a = some s'.fabric ∧ s'.jobs = (stepLocal text emptyJson s a).1 ∧
      s'.handouts = (stepLocal text emptyJson s a).2 := by
  obtain ⟨fabric, hfabric, rfl⟩ := Option.map_eq_some_iff.1 h
  exact ⟨hfabric, rfl, rfl⟩

theorem fabric_of_step (h : step text emptyJson s a = some s') :
    s'.fabric = s.fabric ∨ ∃ b, Fabric.step text emptyJson s.fabric b = some s'.fabric := by
  have hfabric := (step_eq_some h).1
  unfold stepFabric at hfabric
  split at hfabric
  · exact .inl (Option.some.inj hfabric).symm
  · exact .inr ⟨_, hfabric⟩

theorem Inv.step (h : Inv s) (hpossible : Possible s a) (hheeds : Heeds s a)
    (hst : step text emptyJson s a = some s') : Inv s' := by
  obtain ⟨hfabric, hjobs, hhandouts⟩ := step_eq_some hst
  have hsound : Fabric.Inv s'.fabric := by
    rcases fabric_of_step hst with heq | ⟨b, hb⟩
    · exact heq ▸ h.fabric
    · exact h.fabric.step hb
  suffices hboth : List.Forall₂ LocalJob.Same (stepLocal text emptyJson s a).1 s'.fabric.jobs ∧
      (stepLocal text emptyJson s a).2 = s'.fabric.handouts from
    ⟨hjobs ▸ hboth.1, hhandouts ▸ hboth.2, hsound⟩
  cases a with
  | enqueue id tenant job now =>
    have hfab : Fabric.St.mk _ _ = s'.fabric := Option.some.inj hfabric
    rw [← hfab]
    exact ⟨h.enqueue hheeds, h.handouts⟩
  | claim req now select pick => exact h.claim hpossible hheeds hfabric
  | report id worker r now =>
    have hfab : Fabric.St.mk _ _ = s'.fabric := Option.some.inj hfabric
    rw [← hfab]
    exact ⟨h.deliver hheeds, h.handouts⟩
  | sweepRequeue now =>
    have hfab : Fabric.St.mk _ _ = s'.fabric := Option.some.inj hfabric
    rw [← hfab]
    refine ⟨h.sweep fun l hl g hsame => ?_, h.handouts⟩
    rw [← hsame.expired_eq]
    cases hexpired : l.expired now with
    | false => rfl
    | true =>
      have hle := hheeds l hl hexpired
      rw [hsame.attempt, hsame.maxAttempts] at hle
      simp [hle]
  | sweepFail now =>
    have hfab : Fabric.St.mk _ _ = s'.fabric := Option.some.inj hfabric
    rw [← hfab]
    refine ⟨h.sweep fun l hl g hsame => ?_, h.handouts⟩
    rw [← hsame.expired_eq]
    cases hexpired : l.expired now with
    | false => rfl
    | true =>
      have hlt := hheeds l hl hexpired
      rw [hsame.attempt, hsame.maxAttempts] at hlt
      simp [hlt]

/-- What a step must not do: make a finished job anything else, or find no job for a worker that may have one. -/
structure Keeps (s s' : Both J) (a : Action J) : Prop where
  finished : ∀ l ∈ s.jobs, l.status.terminal = true → ∃ l' ∈ s'.jobs, l'.id = l.id ∧ l'.status = l.status
  unblocked : ∀ req now select pick, a = .claim req now select pick →
    (∃ j ∈ s.jobs, j.eligible req now = true) → ∃ handout, s'.handouts = s.handouts ++ [handout]

theorem Inv.keeps (h : Inv s) (h' : Inv s') (hpossible : Possible s a)
    (hst : LocalQueue.step text emptyJson s a = some s') : Keeps s s' a where
  finished l hl hterminal := by
    obtain ⟨f, hf, hsame⟩ := h.exists_fabric hl
    have hkept : f ∈ s'.fabric.jobs := by
      rcases fabric_of_step hst with heq | ⟨b, hb⟩
      · rwa [heq]
      · obtain ⟨f', hf', -, hlater⟩ := Fabric.evolves_step h.fabric hb f hf
        rwa [hlater (hsame.status ▸ hterminal)] at hf'
    obtain ⟨l', hl', hsame'⟩ := h'.exists_local hkept
    exact ⟨l', hl', hsame'.id.trans hsame.id.symm, hsame'.status.trans hsame.status.symm⟩
  unblocked req now select pick heq := by
    rintro ⟨l, hl, heligible⟩
    subst heq
    obtain ⟨htenant, -, hnone, -⟩ := hpossible
    obtain ⟨f, hf, hsame⟩ := h.exists_fabric hl
    rw [hsame.eligible_eq htenant] at heligible
    cases pick with
    | none =>
      rw [hnone rfl f hf] at heligible
      cases heligible
    | some id =>
      obtain ⟨hpicks, hfabric⟩ := stepFabric_claim (step_eq_some hst).1
      obtain ⟨g, hg, rfl, -⟩ := req.exists_of_picks hpicks
      refine ⟨⟨g.id, req.workerId, g.attempt + 1⟩, ?_⟩
      rw [h'.handouts, hfabric, h.handouts, h.fabric.newHandouts_eq hg]

/-- **The local queue implements the fabric's** in every run whose steps meet the condition: the two show the same after
every step, and no step touches a finished job or misses a job for the worker. -/
theorem implements_of_heeds (h : Runs.Reach (step text emptyJson) (fun s a => Possible s a ∧ Heeds s a) Both.init s) :
    Agrees s ∧ ∀ a s', Possible s a → Heeds s a → step text emptyJson s a = some s' → Keeps s s' a := by
  have hinv : Inv s := h.inv inv_init fun _ _ _ hi hok hst => hi.step hok.1 hok.2 hst
  exact ⟨hinv.agrees, fun a s' hpossible hheeds hst =>
    hinv.keeps (hinv.step hpossible hheeds hst) hpossible hst⟩

/-! #### One job -/

def noText (_ : Unit) (_ : String) : Option String := none

def indexJob : EnqueueJob Unit := ⟨"index_build", (), 0, none, [], 3⟩

/-- Worker `7` asks for such a job, for a minute. -/
def indexRequest : ClaimRequest := ⟨7, none, [], ["index_build"], 60⟩

def waiting : LocalJob Unit := newJob () 1 0 indexJob 0

def front (kind : String) : Option (LocalJob Unit) := if kind = "index_build" then some waiting else none

def enqueued : Both Unit := ⟨[waiting], [], ⟨[Fabric.newJob () 1 0 indexJob 0], []⟩⟩

theorem urgent_waiting : Urgent 1 enqueued.jobs "index_build" waiting := by
  refine ⟨mem_singleton_self _, rfl, rfl, fun i hi _ _ => ?_⟩
  obtain rfl := mem_singleton.1 hi
  rfl

theorem possible_claim : Possible enqueued (.claim indexRequest 1 front (some 1)) := by
  refine ⟨rfl, fun kind => ?_, fun h => (by cases h), fun jobs handout h _ => ?_⟩
  · by_cases hkind : kind = "index_build"
    · subst hkind
      exact urgent_waiting
    · rw [front, if_neg hkind]
      intro j hj hj'
      obtain rfl := mem_singleton.1 hj
      exact absurd hj'.symm hkind
  · cases h
    rfl

/-- The job, claimed and done. -/
theorem implements_of_heeds_done : ∃ s : Both Unit,
    Runs.Reach (step noText ()) (fun s a => Possible s a ∧ Heeds s a) Both.init s ∧
      (s.jobs.map fun j => (j.status, j.claimedBy)) = [(.done, some 7)] ∧ Agrees s := by
  have h₀ : Runs.Reach (step noText ()) (fun s a => Possible s a ∧ Heeds s a) Both.init Both.init := .init
  have h₁ := h₀.step (Action.enqueue 1 0 indexJob 0) ⟨trivial, rfl, fun h => absurd h (by decide)⟩
    (rfl : _ = some enqueued)
  have hfair : Fair indexRequest 1 enqueued.jobs := by
    refine .inr ⟨[], "index_build", [], rfl, fun k hk => (by cases hk), ⟨waiting, urgent_waiting⟩, fun j hj => ?_⟩
    obtain rfl := mem_singleton.1 hj.mem
    refine ⟨rfl, fun i hi _ => ?_⟩
    obtain rfl := mem_singleton.1 hi
    rfl
  have h₂ := h₁.step (Action.claim indexRequest 1 front (some 1)) ⟨possible_claim, hfair⟩ rfl
  have h₃ := h₂.step (Action.report 1 7 (.complete ()) 2) ⟨trivial, fun j hj _ => by
    obtain rfl := mem_singleton.1 hj
    exact .inl rfl⟩ rfl
  exact ⟨_, h₃, rfl, (implements_of_heeds h₃).1⟩

/-- **A job that is done and fails afterwards**, reported by its last owner: it waits again in the local table, without
an owner, and the fabric leaves it done. -/
theorem revives_finished : ∃ s : Both Unit, Runs.Reach (step noText ()) Possible Both.init s ∧
      (s.jobs.map LocalJob.status, s.fabric.jobs.map Fabric.Job.status) = ([.pending], [.done]) ∧ ¬ Agrees s := by
  have h₀ : Runs.Reach (step noText ()) Possible Both.init Both.init := .init
  have h₁ := h₀.step (Action.enqueue 1 0 indexJob 0) trivial (rfl : _ = some enqueued)
  have h₂ := h₁.step (Action.claim indexRequest 1 front (some 1)) possible_claim rfl
  have h₃ := h₂.step (Action.report 1 7 (.complete ()) 2) trivial rfl
  have h₄ := h₃.step (Action.report 1 7 (.fail "late") 3) trivial rfl
  refine ⟨_, h₄, rfl, fun h => ?_⟩
  have hrow := (forall₂_cons.1 h.1).1
  exact absurd hrow.2.1 (by decide)

end LocalQueue
