/-
**The background task queue of the two catalogs.**

`claim_task` hands a task out under a lease, `complete_task` and `fail_task` report how it ended.
The two catalogs write the same queue in two dialects: a task that is handed out is `claimed` in
Postgres and `running` in SQLite, and the guards differ.
-/

import Pensieve.Rows
import Pensieve.Runs
import Pensieve.SnapshotDb

namespace TaskQueue

open List
open Catalog (Backend)

/-! ### The row -/

abbrev TaskId := Nat
abbrev NodeId := Nat

abbrev Timestamp := Int

/-- The values of the `status` column; `claimed` is Postgres's, `running` SQLite's. -/
inductive TaskStatus where
  | pending
  | claimed
  | running
  | done
  | failed
  deriving DecidableEq

/-- A row of `background_tasks`, over the type `J` of JSON values. -/
structure Task (J : Type) where
  id : TaskId
  kind : String
  tableId : Option Nat
  payload : J
  priority : Int
  status : TaskStatus
  attempt : Int
  maxAttempts : Int
  claimExpiresAt : Option Timestamp
  claimedBy : Option NodeId
  lastError : Option String
  createdAt : Timestamp
  updatedAt : Timestamp
  deriving DecidableEq

variable {J : Type}

def held : Backend → TaskStatus
  | .sqlite => .running
  | .postgres => .claimed

/-- `max_attempts` of a new task. -/
def defaultMaxAttempts : Backend → Int
  | .sqlite => 5
  | .postgres => 3

def leaseTime : Backend → Int → Int
  | .sqlite, lease => lease
  | .postgres, lease => lease.tdiv 1000000 * 1000000

/-! ### The statements -/

def newTask (b : Backend) (id : TaskId) (kind : String) (tableId : Option Nat) (payload : J)
    (priority : Int) (now : Timestamp) : Task J where
  id := id
  kind := kind
  tableId := tableId
  payload := payload
  priority := priority
  status := .pending
  attempt := 0
  maxAttempts := defaultMaxAttempts b
  claimExpiresAt := none
  claimedBy := none
  lastError := none
  createdAt := now
  updatedAt := now

def sameId (q r : Task J) : Bool := q.id = r.id

def submitTask (b : Backend) (id : TaskId) (kind : String) (tableId : Option Nat) (payload : J)
    (priority : Int) (now : Timestamp) (tasks : List (Task J)) : List (Task J) :=
  Rows.insertNew sameId (newTask b id kind tableId payload priority now) tasks

/-- The `WHERE` of the claim. -/
def Task.claimable (b : Backend) (kind : String) (now : Timestamp) (t : Task J) : Bool :=
  t.kind = kind &&
  match b with
  | .sqlite => (t.status = .pending || t.status = .running) && t.claimExpiresAt.all (· < now)
  | .postgres => t.status = .pending || (t.status = .claimed && t.claimExpiresAt.any (· < now))

/-- `ORDER BY priority DESC, created_at`. -/
def Task.precedes (t u : Task J) : Bool :=
  if t.priority ≠ u.priority then u.priority < t.priority else t.createdAt < u.createdAt

/-- `LIMIT 1` may take the row `id`: it can be claimed, and of the others that can be claimed none
comes before it.  Postgres skips the rows that others have locked. -/
def picks (b : Backend) (kind : String) (now : Timestamp) (locked : List TaskId)
    (tasks : List (Task J)) (id : TaskId) : Bool :=
  let free (t : Task J) : Bool := b = .sqlite || !locked.contains t.id
  tasks.any fun t => t.id = id && t.claimable b kind now && free t &&
    tasks.all fun u => !(u.claimable b kind now && free u && u.precedes t)

def Task.claim (b : Backend) (node : NodeId) (lease : Int) (now : Timestamp) (t : Task J) : Task J :=
  { t with
    status := held b
    attempt := t.attempt + 1
    claimExpiresAt := some (now + leaseTime b lease)
    claimedBy := some node
    updatedAt := now }

def claimTask (b : Backend) (node : NodeId) (lease : Int) (now : Timestamp) (id : TaskId) :
    List (Task J) → List (Task J) :=
  Rows.updateWhere (fun t => t.id = id) (Task.claim b node lease now)

/-- The `WHERE` of the completion: only Postgres asks for the status. -/
def Task.completable (b : Backend) (id : TaskId) (t : Task J) : Bool :=
  match b with
  | .sqlite => t.id = id
  | .postgres => t.id = id && t.status = .claimed

def Task.complete (b : Backend) (now : Timestamp) (t : Task J) : Task J :=
  match b with
  | .sqlite => { t with status := .done, updatedAt := now }
  | .postgres => { t with status := .done, updatedAt := now, claimExpiresAt := none }

def completeTask (b : Backend) (id : TaskId) (now : Timestamp) : List (Task J) → List (Task J) :=
  Rows.updateWhere (Task.completable b id) (Task.complete b now)

def Task.fail (b : Backend) (error : String) (now : Timestamp) (t : Task J) : Task J :=
  { t with
    status := if t.maxAttempts ≤ t.attempt then .failed else .pending
    claimExpiresAt := none
    claimedBy := match b with
      | .sqlite => t.claimedBy
      | .postgres => none
    lastError := some error
    updatedAt := now }

def failTask (b : Backend) (id : TaskId) (error : String) (now : Timestamp) : List (Task J) → List (Task J) :=
  Rows.updateWhere (fun t => t.id = id) (Task.fail b error now)

/-! ### Runs -/

structure St (J : Type) where
  tasks : List (Task J)
  handouts : List TaskId
  deriving DecidableEq

inductive Action (J : Type) where
  | submit (id : TaskId) (kind : String) (tableId : Option Nat) (payload : J) (priority : Int) (now : Timestamp)
  | claim (kind : String) (node : NodeId) (lease : Int) (now : Timestamp) (locked : List TaskId) (id : TaskId)
  | complete (id : TaskId) (now : Timestamp)
  | fail (id : TaskId) (error : String) (now : Timestamp)

/-- **One step.**  A claim that finds no row changes nothing and is not a step. -/
def step (b : Backend) (s : St J) : Action J → Option (St J)
  | .submit id kind tableId payload priority now =>
    some { s with tasks := submitTask b id kind tableId payload priority now s.tasks }
  | .claim kind node lease now locked id =>
    if picks b kind now locked s.tasks id then
      some { tasks := claimTask b node lease now id s.tasks, handouts := s.handouts ++ [id] }
    else none
  | .complete id now => some { s with tasks := completeTask b id now s.tasks }
  | .fail id error now => some { s with tasks := failTask b id error now s.tasks }

/-- A table of tasks that have just been submitted, with any number of attempts. -/
structure Fresh (s : St J) : Prop where
  nodup : (s.tasks.map Task.id).Nodup
  pending : ∀ t ∈ s.tasks, t.status = .pending
  attempt : ∀ t ∈ s.tasks, t.attempt = 0
  unclaimed : ∀ t ∈ s.tasks, t.claimExpiresAt = none
  handouts : s.handouts = []

/-- **The condition on a run.**  No claim takes a task whose attempts are used up, and no failure is
reported for a task that is done. -/
def WithinLimits (s : St J) : Action J → Prop
  | .claim _ _ _ _ _ id => ∀ t ∈ s.tasks, t.id = id → 1 ≤ t.maxAttempts → t.attempt < t.maxAttempts
  | .fail id _ _ => ∀ t ∈ s.tasks, t.id = id → t.status ≠ .done
  | _ => True

/-! ### What a step can do -/

variable {b : Backend} {s s' : St J} {t : Task J}

variable {now : Timestamp}

theorem Task.status_of_claimable {kind : String}
    (h : t.claimable b kind now = true) : t.status = .pending ∨ t.status = held b := by
  simp only [Task.claimable, Bool.and_eq_true] at h
  cases b with
  | sqlite =>
    simp only [Bool.and_eq_true, Bool.or_eq_true, decide_eq_true_eq] at h
    exact h.2.1
  | postgres =>
    simp only [Bool.and_eq_true, Bool.or_eq_true, decide_eq_true_eq] at h
    exact h.2.imp_right And.left

theorem exists_of_picks {kind : String} {locked : List TaskId} {tasks : List (Task J)} {id : TaskId}
    (h : picks b kind now locked tasks id = true) : ∃ t ∈ tasks, t.id = id ∧ t.claimable b kind now = true := by
  obtain ⟨t, ht, hc⟩ := any_eq_true.mp h
  simp only [Bool.and_eq_true, decide_eq_true_eq] at hc
  exact ⟨t, ht, hc.1.1.1, hc.1.1.2⟩

variable {a : Action J}

/-- **What a step can do:** add a task, hand out a task, or record how a task ended. -/
theorem step_cases (h : step b s a = some s') : (∃ id kind tableId payload priority now,
      a = .submit id kind tableId payload priority now ∧
      s' = { s with tasks := submitTask b id kind tableId payload priority now s.tasks }) ∨
    (∃ kind node lease now locked t, a = .claim kind node lease now locked t.id ∧ t ∈ s.tasks ∧
      t.claimable b kind now = true ∧
      s' = { tasks := claimTask b node lease now t.id s.tasks, handouts := s.handouts ++ [t.id] }) ∨
    (∃ id now, a = .complete id now ∧ s' = { s with tasks := completeTask b id now s.tasks }) ∨
    (∃ id error now, a = .fail id error now ∧ s' = { s with tasks := failTask b id error now s.tasks }) := by
  cases a with
  | submit id kind tableId payload priority now =>
    cases h
    exact .inl ⟨id, kind, tableId, payload, priority, now, rfl, rfl⟩
  | claim kind node lease now locked id =>
    simp only [step] at h
    split at h
    · rename_i hp
      obtain ⟨t, ht, rfl, hc⟩ := exists_of_picks hp
      cases h
      exact .inr (.inl ⟨kind, node, lease, now, locked, t, rfl, ht, hc, rfl⟩)
    · cases h
  | complete id now =>
    cases h
    exact .inr (.inr (.inl ⟨id, now, rfl, rfl⟩))
  | fail id error now =>
    cases h
    exact .inr (.inr (.inr ⟨id, error, now, rfl, rfl⟩))

@[simp] theorem Task.complete_id (b : Backend) (now : Timestamp) (t : Task J) : (t.complete b now).id = t.id := by
  cases b <;> rfl

@[simp] theorem Task.complete_status (b : Backend) (now : Timestamp) (t : Task J) :
    (t.complete b now).status = .done := by
  cases b <;> rfl

@[simp] theorem Task.complete_attempt (b : Backend) (now : Timestamp) (t : Task J) :
    (t.complete b now).attempt = t.attempt := by
  cases b <;> rfl

@[simp] theorem Task.complete_maxAttempts (b : Backend) (now : Timestamp) (t : Task J) :
    (t.complete b now).maxAttempts = t.maxAttempts := by
  cases b <;> rfl

theorem held_ne_pending (b : Backend) : held b ≠ .pending := by
  cases b <;> simp [held]

theorem held_ne_done (b : Backend) : held b ≠ .done := by
  cases b <;> simp [held]

theorem held_ne_failed (b : Backend) : held b ≠ .failed := by
  cases b <;> simp [held]

/-! ### The invariant of every run -/

structure Task.Ok (b : Backend) (t : Task J) : Prop where
  pending_lt : t.status = .pending → 1 ≤ t.maxAttempts → t.attempt < t.maxAttempts
  pending_unclaimed : t.status = .pending → t.claimExpiresAt = none
  held_claimed : t.status = held b → t.claimExpiresAt.isSome
  failed_spent : t.status = .failed → t.maxAttempts ≤ t.attempt

theorem Task.Ok.newTask (b : Backend) (id : TaskId) (kind : String) (tableId : Option Nat)
    (payload : J) (priority : Int) (now : Timestamp) :
    (newTask b id kind tableId payload priority now).Ok b where
  pending_lt _ h := by
    simp only [TaskQueue.newTask] at h ⊢
    omega
  pending_unclaimed _ := rfl
  held_claimed h := absurd h.symm (held_ne_pending b)
  failed_spent h := by simp [TaskQueue.newTask] at h

theorem Task.Ok.claim (b : Backend) (node : NodeId) (lease : Int) (now : Timestamp) (t : Task J) :
    (t.claim b node lease now).Ok b where
  pending_lt h := absurd h (held_ne_pending b)
  pending_unclaimed h := absurd h (held_ne_pending b)
  held_claimed _ := rfl
  failed_spent h := absurd h (held_ne_failed b)

theorem Task.Ok.complete (b : Backend) (now : Timestamp) (t : Task J) : (t.complete b now).Ok b where
  pending_lt h := by simp at h
  pending_unclaimed h := by simp at h
  held_claimed h := absurd h (by simpa using (held_ne_done b).symm)
  failed_spent h := by simp at h

theorem Task.Ok.fail (b : Backend) (error : String) (now : Timestamp) (t : Task J) : (t.fail b error now).Ok b where
  pending_lt h _ := by
    simp only [Task.fail] at h ⊢
    split at h
    · cases h
    · omega
  pending_unclaimed _ := rfl
  held_claimed h := by
    simp only [Task.fail] at h
    split at h
    · exact absurd h.symm (held_ne_failed b)
    · exact absurd h.symm (held_ne_pending b)
  failed_spent h := by
    simp only [Task.fail] at h ⊢
    split at h
    · assumption
    · cases h

structure Inv (b : Backend) (s : St J) : Prop where
  nodup : (s.tasks.map Task.id).Nodup
  ok : ∀ t ∈ s.tasks, t.Ok b

theorem Fresh.inv (h : Fresh s) (b : Backend) : Inv b s where
  nodup := h.nodup
  ok t ht :=
    { pending_lt := fun _ hmax => by rw [h.attempt t ht]; omega
      pending_unclaimed := fun _ => h.unclaimed t ht
      held_claimed := fun hst => absurd (hst.symm.trans (h.pending t ht)) (held_ne_pending b)
      failed_spent := fun hst => by simp [h.pending t ht] at hst }

theorem Inv.step (h : Inv b s) (hs : step b s a = some s') : Inv b s' := by
  obtain ⟨id, kind, tableId, payload, priority, now, -, rfl⟩ |
    ⟨kind, node, lease, now, locked, t, -, ht, hc, rfl⟩ | ⟨id, now, -, rfl⟩ |
    ⟨id, error, now, -, rfl⟩ := step_cases hs
  · refine ⟨Rows.nodup_insertNew (fun q hq => by simpa [sameId] using hq) h.nodup, fun t ht => ?_⟩
    rcases Rows.mem_insertNew ht with ht | rfl
    · exact h.ok t ht
    · exact .newTask b id kind tableId payload priority now
  · refine ⟨?_, Rows.forall_updateWhere h.ok fun u _ _ _ => .claim b node lease now u⟩
    have hkeys : (claimTask b node lease now t.id s.tasks).map Task.id = s.tasks.map Task.id :=
      Rows.map_key_updateWhere fun _ => rfl
    rw [hkeys]
    exact h.nodup
  · refine ⟨?_, Rows.forall_updateWhere h.ok fun u _ _ _ => .complete b now u⟩
    have hkeys : (completeTask b id now s.tasks).map Task.id = s.tasks.map Task.id :=
      Rows.map_key_updateWhere (Task.complete_id b now)
    rw [hkeys]
    exact h.nodup
  · refine ⟨?_, Rows.forall_updateWhere h.ok fun u _ _ _ => .fail b error now u⟩
    have hkeys : (failTask b id error now s.tasks).map Task.id = s.tasks.map Task.id :=
      Rows.map_key_updateWhere fun _ => rfl
    rw [hkeys]
    exact h.nodup

/-! ### A failed task is not handed out again -/

def Task.Spent (t : Task J) : Prop := (t.status = .failed ∨ t.status = .done) ∧ t.maxAttempts ≤ t.attempt

theorem Task.Spent.not_claimable (h : t.Spent) {kind : String} : t.claimable b kind now = false := by
  by_contra hc
  rw [Bool.not_eq_false] at hc
  rcases h.1 with hst | hst <;> rcases Task.status_of_claimable hc with hc' | hc'
  · simp [hst] at hc'
  · exact held_ne_failed b (hc'.symm.trans hst)
  · simp [hst] at hc'
  · exact held_ne_done b (hc'.symm.trans hst)

theorem Task.Spent.complete (h : t.Spent) (b : Backend) (now : Timestamp) : (t.complete b now).Spent := by
  refine ⟨.inr (by simp), ?_⟩
  simpa using h.2

theorem Task.Spent.fail (h : t.Spent) (b : Backend) (error : String) (now : Timestamp) :
    (t.fail b error now).Spent := by
  refine ⟨.inl ?_, h.2⟩
  simp [Task.fail, h.2]

def Task.StaysSpent (t t' : Task J) : Prop := t.Spent → t'.Spent

theorem spent_step (h : Inv b s) (hs : step b s a = some s') : Rows.Evolves Task.id Task.StaysSpent s.tasks s'.tasks ∧
      ∀ t ∈ s.tasks, t.Spent → s'.handouts.count t.id = s.handouts.count t.id := by
  have hrefl : ∀ t : Task J, t.StaysSpent t := fun _ ht => ht
  obtain ⟨id, kind, tableId, payload, priority, now, -, rfl⟩ |
    ⟨kind, node, lease, now, locked, t, -, ht, hc, rfl⟩ | ⟨id, now, -, rfl⟩ |
    ⟨id, error, now, -, rfl⟩ := step_cases hs
  · exact ⟨.insertNew hrefl, fun _ _ _ => rfl⟩
  · -- the claimed row is not a spent one
    have hne : ∀ u ∈ s.tasks, u.Spent → u.id ≠ t.id := by
      intro u hu hsp hid
      rw [Rows.eq_of_key_eq h.nodup hu ht hid] at hsp
      simp [hsp.not_claimable] at hc
    refine ⟨.updateWhere hrefl (fun _ => rfl) fun u hu hp hsp => ?_, fun u hu hsp => ?_⟩
    · exact absurd (of_decide_eq_true hp) (hne u hu hsp)
    · simp [count_append, (hne u hu hsp).symm]
  · exact ⟨.updateWhere hrefl (Task.complete_id b now) fun u _ _ hsp => hsp.complete b now, fun _ _ _ => rfl⟩
  · exact ⟨.updateWhere hrefl (fun _ => rfl) fun u _ _ hsp => hsp.fail b error now, fun _ _ _ => rfl⟩

theorem spent_of_reach (h : Inv b s) (hs : Runs.Reach (step b) Runs.Free s s') (ht : t ∈ s.tasks) (hsp : t.Spent) :
    Inv b s' ∧ (∃ t' ∈ s'.tasks, t'.id = t.id ∧ t'.Spent) ∧ s'.handouts.count t.id = s.handouts.count t.id := by
  induction hs with
  | init => exact ⟨h, ⟨t, ht, rfl, hsp⟩, rfl⟩
  | step a _ _ hst ih =>
    obtain ⟨hi, ⟨u, hu, hid, husp⟩, hcount⟩ := ih
    obtain ⟨hev, hsame⟩ := spent_step hi hst
    obtain ⟨v, hv, hvid, hvsp⟩ := hev u hu
    refine ⟨hi.step hst, ⟨v, hv, hvid.trans hid, hvsp husp⟩, ?_⟩
    rw [← hcount, ← hid]
    exact hsame u hu husp

/-! ### Runs within the limits -/

def AttemptsLimited (s : St J) : Prop := ∀ t ∈ s.tasks, 1 ≤ t.maxAttempts → t.attempt ≤ t.maxAttempts

theorem Fresh.attemptsLimited (h : Fresh s) : AttemptsLimited s := by
  intro t ht hmax
  rw [h.attempt t ht]
  omega

theorem AttemptsLimited.step (h : AttemptsLimited s) (ha : WithinLimits s a)
    (hs : step b s a = some s') : AttemptsLimited s' := by
  obtain ⟨id, kind, tableId, payload, priority, now, rfl, rfl⟩ |
    ⟨kind, node, lease, now, locked, t, rfl, ht, hc, rfl⟩ | ⟨id, now, rfl, rfl⟩ |
    ⟨id, error, now, rfl, rfl⟩ := step_cases hs
  · intro t ht hmax
    rcases Rows.mem_insertNew ht with ht | rfl
    · exact h t ht hmax
    · simp only [newTask] at hmax ⊢
      omega
  · refine Rows.forall_updateWhere h fun u hu hp _ hmax => ?_
    have hlt := ha u hu (of_decide_eq_true hp) hmax
    simp only [Task.claim]
    omega
  · exact Rows.forall_updateWhere h fun u _ _ hle hmax => by simpa using hle (by simpa using hmax)
  · exact Rows.forall_updateWhere h fun u _ _ hle hmax => hle hmax

def Task.StaysDone (t t' : Task J) : Prop := t.status = .done → t'.status = .done

theorem done_step (h : Inv b s) (ha : WithinLimits s a)
    (hs : step b s a = some s') : Rows.Evolves Task.id Task.StaysDone s.tasks s'.tasks := by
  have hrefl : ∀ t : Task J, t.StaysDone t := fun _ ht => ht
  obtain ⟨id, kind, tableId, payload, priority, now, rfl, rfl⟩ |
    ⟨kind, node, lease, now, locked, t, rfl, ht, hc, rfl⟩ | ⟨id, now, rfl, rfl⟩ |
    ⟨id, error, now, rfl, rfl⟩ := step_cases hs
  · exact .insertNew hrefl
  · refine .updateWhere hrefl (fun _ => rfl) fun u hu hp hd => ?_
    rw [Rows.eq_of_key_eq h.nodup hu ht (of_decide_eq_true hp)] at hd
    rcases Task.status_of_claimable hc with hst | hst
    · simp [hst] at hd
    · exact absurd (hst.symm.trans hd) (held_ne_done b)
  · exact .updateWhere hrefl (Task.complete_id b now) fun u _ _ _ => u.complete_status b now
  · exact .updateWhere hrefl (fun _ => rfl) fun u hu hp hd =>
      absurd hd (ha u hu (of_decide_eq_true hp))

theorem limits_of_reach (h : Inv b s) (hl : AttemptsLimited s) (hs : Runs.Reach (step b) WithinLimits s s') :
    Inv b s' ∧ AttemptsLimited s' ∧ Rows.Evolves Task.id Task.StaysDone s.tasks s'.tasks := by
  induction hs with
  | init => exact ⟨h, hl, .of_subset (fun _ ht => ht) (List.Subset.refl _)⟩
  | step a _ ha hst ih =>
    obtain ⟨hi, hlim, hev⟩ := ih
    refine ⟨hi.step hst, hlim.step ha hst, hev.trans ?_ (done_step hi ha hst)⟩
    exact fun _ _ _ h₁ h₂ hd => h₂ (h₁ hd)

/-! ### The two catalogs side by side -/

/-- The status that SQLite writes where Postgres writes `st`. -/
def sqliteStatus : TaskStatus → TaskStatus
  | .claimed => .running
  | st => st

/-- **The same task** in SQLite (`q`) and in Postgres (`p`).  A completed task keeps its expiry in
SQLite; nothing reads it any more. -/
structure Agree (q p : Task J) : Prop where
  id_eq : q.id = p.id
  kind_eq : q.kind = p.kind
  priority_eq : q.priority = p.priority
  createdAt_eq : q.createdAt = p.createdAt
  status_eq : q.status = sqliteStatus p.status
  attempt_eq : q.attempt = p.attempt
  maxAttempts_eq : q.maxAttempts = p.maxAttempts
  expires_eq : p.status ≠ .done → q.claimExpiresAt = p.claimExpiresAt
  not_running : p.status ≠ .running

/-- The calls on which the two catalogs are to agree: completions that reach tasks which are handed
out or done already, claims for whole seconds that no lock gets in the way of. -/
def Aligned (s : St J) : Action J → Prop
  | .submit _ _ _ _ _ _ => False
  | .claim _ _ lease _ locked _ => lease.tmod 1000000 = 0 ∧ locked = []
  | .complete id _ => ∀ t ∈ s.tasks, t.id = id → t.status = .claimed ∨ t.status = .done
  | .fail id _ _ => ∀ t ∈ s.tasks, t.id = id → t.status ≠ .done

variable {q p : Task J}

theorem Agree.status_running_iff (h : Agree q p) : q.status = .running ↔ p.status = .claimed := by
  have hnr := h.not_running
  rw [h.status_eq]
  cases hp : p.status <;> simp_all [sqliteStatus]

theorem Agree.status_pending_iff (h : Agree q p) : q.status = .pending ↔ p.status = .pending := by
  have hnr := h.not_running
  rw [h.status_eq]
  cases hp : p.status <;> simp_all [sqliteStatus]

theorem Agree.claimable_eq (h : Agree q p) (hp : p.Ok .postgres) (kind : String)
    (now : Timestamp) : q.claimable .sqlite kind now = p.claimable .postgres kind now := by
  simp only [Task.claimable, h.kind_eq, h.status_running_iff, h.status_pending_iff]
  congr 1
  by_cases hpend : p.status = .pending
  · have hexp := h.expires_eq (by simp [hpend])
    simp [hpend, hexp, hp.pending_unclaimed hpend]
  · by_cases hcl : p.status = .claimed
    · have hexp := h.expires_eq (by simp [hcl])
      obtain ⟨e, he⟩ := Option.isSome_iff_exists.mp (hp.held_claimed hcl)
      simp [hcl, hexp, he]
    · simp [hpend, hcl]

theorem Agree.claim (h : Agree q p) {node : NodeId} {lease : Int} (hl : lease.tmod 1000000 = 0) :
    Agree (q.claim .sqlite node lease now) (p.claim .postgres node lease now) where
  id_eq := h.id_eq
  kind_eq := h.kind_eq
  priority_eq := h.priority_eq
  createdAt_eq := h.createdAt_eq
  status_eq := rfl
  attempt_eq := by simp [Task.claim, h.attempt_eq]
  maxAttempts_eq := h.maxAttempts_eq
  expires_eq _ := by
    have hwhole : lease.tdiv 1000000 * 1000000 = lease := by
      have hdiv := Int.mul_tdiv_add_tmod lease 1000000
      omega
    simp only [Task.claim, leaseTime, hwhole]
  not_running := by simp [Task.claim, held]

theorem Agree.complete (h : Agree q p) (now : Timestamp) :
    Agree (q.complete .sqlite now) (p.complete .postgres now) where
  id_eq := h.id_eq
  kind_eq := h.kind_eq
  priority_eq := h.priority_eq
  createdAt_eq := h.createdAt_eq
  status_eq := rfl
  attempt_eq := h.attempt_eq
  maxAttempts_eq := h.maxAttempts_eq
  expires_eq hd := absurd rfl hd
  not_running := by simp [Task.complete]

theorem Agree.fail (h : Agree q p) (error : String) (now : Timestamp) :
    Agree (q.fail .sqlite error now) (p.fail .postgres error now) where
  id_eq := h.id_eq
  kind_eq := h.kind_eq
  priority_eq := h.priority_eq
  createdAt_eq := h.createdAt_eq
  status_eq := by
    simp only [Task.fail, h.attempt_eq, h.maxAttempts_eq]
    split <;> rfl
  attempt_eq := h.attempt_eq
  maxAttempts_eq := h.maxAttempts_eq
  expires_eq _ := rfl
  not_running := by
    simp only [Task.fail]
    split <;> simp

theorem Agree.precedes_eq {q₁ q₂ p₁ p₂ : Task J} (h₁ : Agree q₁ p₁) (h₂ : Agree q₂ p₂) :
    q₁.precedes q₂ = p₁.precedes p₂ := by
  simp only [Task.precedes, h₁.priority_eq, h₂.priority_eq, h₁.createdAt_eq, h₂.createdAt_eq]

theorem picks_eq {sq sp : List (Task J)} (h : List.Forall₂ Agree sq sp)
    (hok : ∀ t ∈ sp, t.Ok .postgres) (kind : String) (now : Timestamp) (id : TaskId) :
    picks .sqlite kind now [] sq id = picks .postgres kind now [] sp id := by
  refine Rows.any_eq_of_forall₂ h fun q p hp hqp => ?_
  have hall := Rows.all_eq_of_forall₂ h
    (c := fun u => !(u.claimable .sqlite kind now && u.precedes q))
    (d := fun u => !(u.claimable .postgres kind now && u.precedes p)) fun q' p' hp' hqp' => by
      rw [hqp'.claimable_eq (hok p' hp'), hqp'.precedes_eq hqp]
  rw [hqp.id_eq, hqp.claimable_eq (hok p hp)]
  simp only [decide_true, Bool.and_true, contains_nil, Bool.not_false, Bool.or_true] at hall ⊢
  rw [hall]

def Alike (sq sp : St J) : Prop := List.Forall₂ Agree sq.tasks sp.tasks ∧ sq.handouts = sp.handouts

theorem Alike.step {sq sp sp' : St J} (h : Alike sq sp) (hi : Inv .postgres sp) (ha : Aligned sp a)
    (hs : step .postgres sp a = some sp') : ∃ sq', step .sqlite sq a = some sq' ∧ Alike sq' sp' := by
  cases a with
  | submit id kind tableId payload priority now => exact ha.elim
  | claim kind node lease now locked id =>
    obtain ⟨hwhole, rfl⟩ := ha
    simp only [TaskQueue.step, picks_eq h.1 hi.ok] at hs ⊢
    split at hs
    · cases hs
      rename_i hp
      refine ⟨_, if_pos hp, ?_, by rw [h.2]⟩
      refine Rows.forall₂_updateWhere h.1 fun q p _ hqp => ?_
      rw [hqp.id_eq]
      split
      · exact hqp.claim hwhole
      · exact hqp
    · cases hs
  | complete id now =>
    cases hs
    refine ⟨_, rfl, ?_, h.2⟩
    refine Rows.forall₂_updateWhere h.1 fun q p hp hqp => ?_
    by_cases hid : p.id = id
    · rcases ha p hp hid with hst | hst
      · simpa [Task.completable, hqp.id_eq, hid, hst] using hqp.complete now
      · -- done already: SQLite writes it again, Postgres does not
        have hq : q.status = .done := by rw [hqp.status_eq, hst]; rfl
        simp only [Task.completable, hqp.id_eq, hid, hst]
        exact { hqp with status_eq := hqp.status_eq ▸ hq.symm }
    · simpa [Task.completable, hqp.id_eq, hid] using hqp
  | fail id error now =>
    cases hs
    refine ⟨_, rfl, ?_, h.2⟩
    refine Rows.forall₂_updateWhere h.1 fun q p _ hqp => ?_
    rw [hqp.id_eq]
    split
    · exact hqp.fail error now
    · exact hqp

instance (s : St J) (a : Action J) : Decidable (Aligned s a) :=
  match a with
  | .submit _ _ _ _ _ _ => isFalse id
  | .claim _ _ lease _ locked _ =>
    inferInstanceAs (Decidable (lease.tmod 1000000 = 0 ∧ locked = []))
  | .complete id _ =>
    inferInstanceAs (Decidable (∀ t ∈ s.tasks, t.id = id → t.status = .claimed ∨ t.status = .done))
  | .fail id _ _ => inferInstanceAs (Decidable (∀ t ∈ s.tasks, t.id = id → t.status ≠ .done))

theorem run_agree {calls : List (Action J)} {sq sp sp' : St J} (h : Alike sq sp)
    (hi : Inv .postgres sp) (hr : Runs.run (step .postgres) Aligned sp calls = some sp') :
    ∃ sq', Runs.run (step .sqlite) Runs.Free sq calls = some sq' ∧ Alike sq' sp' := by
  induction calls generalizing sq sp with
  | nil =>
    cases hr
    exact ⟨sq, rfl, h⟩
  | cons a calls ih =>
    simp only [Runs.run] at hr
    split at hr
    · rename_i ha
      obtain ⟨sp₁, hsp₁, hrest⟩ := Option.bind_eq_some_iff.mp hr
      obtain ⟨sq₁, hsq₁, h₁⟩ := h.step hi ha hsp₁
      obtain ⟨sq', hsq', h'⟩ := ih h₁ (hi.step hsp₁) hrest
      exact ⟨sq', by simp [Runs.run, Runs.Free, hsq₁, hsq'], h'⟩
    · cases hr

theorem Fresh.alike (h : Fresh s) : Alike s s := by
  refine ⟨forall₂_same.mpr fun t ht => ?_, rfl⟩
  have hst := h.pending t ht
  exact { id_eq := rfl, kind_eq := rfl, priority_eq := rfl, createdAt_eq := rfl
          status_eq := by rw [hst]; rfl
          attempt_eq := rfl, maxAttempts_eq := rfl
          expires_eq := fun _ => rfl
          not_running := by simp [hst] }

/-! ### The law of the queue -/

/-- **The law of the queue**, for the runs from `s₀` whose calls meet `ok`: attempts stay within
their limit, a task that is done stays done, a task that has failed is never handed out again. -/
def Law (ok : St J → Action J → Prop) (b : Backend) (s₀ : St J) : Prop :=
  ∀ s, Runs.Reach (step b) ok s₀ s → AttemptsLimited s ∧ ∀ t ∈ s.tasks, ∀ s', Runs.Reach (step b) ok s s' →
      (t.status = .done → ∃ t' ∈ s'.tasks, t'.id = t.id ∧ t'.status = .done) ∧
      (t.status = .failed → s'.handouts.count t.id = s.handouts.count t.id)

/-- **Both catalogs keep the law within the limits, and make the same transitions.** -/
theorem tasks_lawful_of_withinLimits {s₀ : St J} (h₀ : Fresh s₀) :
    (∀ b, Law WithinLimits b s₀) ∧ ∀ calls sp, Runs.run (step .postgres) Aligned s₀ calls = some sp →
      ∃ sq, Runs.run (step .sqlite) Runs.Free s₀ calls = some sq ∧ Alike sq sp := by
  refine ⟨fun b s hs => ?_, fun calls sp hr => run_agree h₀.alike (h₀.inv .postgres) hr⟩
  obtain ⟨hi, hlim, -⟩ := limits_of_reach (h₀.inv b) h₀.attemptsLimited hs
  refine ⟨hlim, fun t ht s' hs' => ⟨fun hd => ?_, fun hf => ?_⟩⟩
  · obtain ⟨t', ht', hid, hdone⟩ := (limits_of_reach hi hlim hs').2.2 t ht
    exact ⟨t', ht', hid, hdone hd⟩
  · have hsp : t.Spent := ⟨.inl hf, (hi.ok t ht).failed_spent hf⟩
    exact (spent_of_reach hi (hs'.mono fun _ _ _ => trivial) ht hsp).2.2

/-! ### Claims that run out -/

def minute : Int := 60 * 1000000

/-- Task 1 is submitted and handed out `n` times: every node falls silent, and its claim runs out
before the next one is made. -/
def silentNodes (n : Nat) : List (Action Unit) :=
  .submit 1 "compaction" none () 0 0 ::
    (List.range n).map fun i => .claim "compaction" i minute (2 * i * minute) [] 1

def lateFailure : List (Action Unit) :=
  silentNodes 2 ++ [.complete 1 (3 * minute), .fail 1 "worker lost" (3 * minute + 1)]

def empty : St Unit := ⟨[], []⟩

instance (s : St J) : Decidable (AttemptsLimited s) :=
  inferInstanceAs (Decidable (∀ t ∈ s.tasks, 1 ≤ t.maxAttempts → t.attempt ≤ t.maxAttempts))

theorem not_law_of_run {b : Backend} {calls : List (Action Unit)}
    (hr : (Runs.run (step b) Runs.Free empty calls).any (¬AttemptsLimited ·) = true) : ¬Law Runs.Free b empty := by
  intro hlaw
  cases hs : Runs.run (step b) Runs.Free empty calls with
  | none => simp [hs] at hr
  | some s =>
    rw [hs, Option.any_some, decide_eq_true_eq] at hr
    exact hr (hlaw s (Runs.reach_of_run hs)).1

/-- **Expired claims are handed out beyond the limit.**  Postgres hands a task with three attempts
out a fourth time, SQLite one with five attempts a sixth time; and in both a late failure report
takes a task out of `done`. -/
theorem expired_reclaim_exceeds_max_attempts : ¬Law Runs.Free .postgres empty ∧ ¬Law Runs.Free .sqlite empty ∧
      (Runs.run (step .postgres) Runs.Free empty lateFailure).map (·.tasks.map Task.status) = some [.pending] ∧
      (Runs.run (step .sqlite) Runs.Free empty lateFailure).map (·.tasks.map Task.status) = some [.pending] := by
  have hpostgres : ((Runs.run (step .postgres) Runs.Free empty (silentNodes 4)).any
      (¬AttemptsLimited ·)) = true := by decide
  have hsqlite : ((Runs.run (step .sqlite) Runs.Free empty (silentNodes 6)).any
      (¬AttemptsLimited ·)) = true := by decide
  exact ⟨not_law_of_run hpostgres, not_law_of_run hsqlite, by decide, by decide⟩

def singleAttempt : St Unit := ⟨[{ newTask .postgres 1 "compaction" none () 0 0 with maxAttempts := 1 }], []⟩

theorem fresh_singleAttempt : Fresh singleAttempt := by
  constructor <;> simp [singleAttempt, newTask]

/-- The task is handed out once, and completed: in both catalogs. -/
theorem tasks_lawful_singleAttempt : Law WithinLimits .postgres singleAttempt ∧ Law WithinLimits .sqlite singleAttempt ∧
      ∃ sq, Runs.run (step .sqlite) Runs.Free singleAttempt
        [.claim "compaction" 1 minute 0 [] 1, .complete 1 minute] = some sq := by
  obtain ⟨hlaw, hsame⟩ := tasks_lawful_of_withinLimits fresh_singleAttempt
  obtain ⟨sq, hsq, -⟩ := hsame [.claim "compaction" 1 minute 0 [] 1, .complete 1 minute] _ rfl
  exact ⟨hlaw .postgres, hlaw .sqlite, sq, hsq⟩

end TaskQueue
