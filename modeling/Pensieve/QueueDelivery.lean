/-
**Whether the durable queue hands every job out once.**

A durable job can come to a handler by two ways: through the channel, and by a claim of its row.
Its row can be claimed from the moment it is written, so that a poll may take it while the call of
`submit` is about to offer the job to the channel, or while the job waits there.
-/

import Pensieve.DurableQueue

namespace DurableQueue

open Function
open List
open Catalog (Backend)
open TaskQueue (TaskId NodeId Timestamp submitTask claimTask completeTask failTask picks)

/-! ### Rows that a statement leaves alone -/

variable {now : Timestamp} {b : Backend}

section Statements

/-- Nothing has happened but to the row `i`. -/
structure OnlyRow (i : TaskId) (tasks tasks' : List Row) : Prop where
  ids : tasks'.map TaskQueue.Task.id = tasks.map TaskQueue.Task.id
  other : ∀ t, t.id ≠ i → (t ∈ tasks' ↔ t ∈ tasks)

variable {i : TaskId} {tasks : List Row}

theorem OnlyRow.updateWhere {p : Row → Bool} {f : Row → Row} (hp : ∀ t, p t = true → t.id = i)
    (hf : ∀ t, (f t).id = t.id) : OnlyRow i tasks (Rows.updateWhere p f tasks) where
  ids := Rows.map_key_updateWhere hf
  other t ht := by
    rw [Rows.mem_updateWhere]
    constructor
    · rintro ⟨q, hq, ⟨hpq, rfl⟩ | ⟨-, rfl⟩⟩
      · exact absurd ((hf q).trans (hp q hpq)) ht
      · exact hq
    · intro h
      refine ⟨t, h, .inr ⟨?_, rfl⟩⟩
      cases hpt : p t with
      | false => rfl
      | true => exact absurd (hp t hpt) ht

theorem OnlyRow.claim (b : Backend) (node : NodeId) (l : Int) (now : Timestamp) :
    OnlyRow i tasks (claimTask b node l now i tasks) :=
  .updateWhere (fun t h => by simpa using h) fun _ => rfl

theorem id_of_completable {t : Row}
    (h : TaskQueue.Task.completable b i t = true) : t.id = i := by
  cases b with
  | sqlite => simpa [TaskQueue.Task.completable] using h
  | postgres =>
    simp only [TaskQueue.Task.completable, Bool.and_eq_true, decide_eq_true_eq] at h
    exact h.1

theorem OnlyRow.complete (b : Backend) (now : Timestamp) : OnlyRow i tasks (completeTask b i now tasks) :=
  .updateWhere (fun _ h => id_of_completable h) fun t => by cases b <;> rfl

theorem OnlyRow.fail (b : Backend) (error : String) (now : Timestamp) :
    OnlyRow i tasks (failTask b i error now tasks) :=
  .updateWhere (fun t h => by simpa using h) fun _ => rfl

theorem OnlyRow.mem_ids {tasks' : List Row} (h : OnlyRow i tasks tasks') {j : TaskId} :
    j ∈ tasks'.map TaskQueue.Task.id ↔ j ∈ tasks.map TaskQueue.Task.id := by
  rw [h.ids]

theorem status_complete {t : Row}
    (ht : t ∈ completeTask b i now tasks) (hid : t.id = i)
    (h : ∀ r ∈ tasks, r.id = i → TaskQueue.Task.completable b i r = true) : t.status = .done := by
  obtain ⟨q, hq, ⟨-, rfl⟩ | ⟨hp, rfl⟩⟩ := Rows.mem_updateWhere.1 ht
  · cases b <;> rfl
  · rw [h _ hq hid] at hp
    cases hp

theorem pending_of_complete {b : Backend} {now : Timestamp} {t : Row}
    (ht : t ∈ completeTask b i now tasks) (hs : t.status = .pending) : t ∈ tasks := by
  obtain ⟨q, hq, ⟨-, rfl⟩ | ⟨-, rfl⟩⟩ := Rows.mem_updateWhere.1 ht
  · cases b <;> cases hs
  · exact hq

theorem completable_of_claimed {b : Backend} {node : NodeId} {l : Int} {now : Timestamp} {t : Row}
    (ht : t ∈ claimTask b node l now i tasks) (hid : t.id = i) : TaskQueue.Task.completable b i t = true := by
  obtain ⟨q, hq, ⟨hp, rfl⟩ | ⟨hne, rfl⟩⟩ := Rows.mem_updateWhere.1 ht
  · cases b with
    | sqlite => exact hp
    | postgres =>
      simp only [TaskQueue.Task.completable, Bool.and_eq_true, decide_eq_true_eq]
      exact ⟨hid, rfl⟩
  · simp [hid] at hne

theorem submitTask_of_new {b : Backend} {kind : String} {payload : Value} {now : Timestamp}
    (hid : i ∉ tasks.map TaskQueue.Task.id) : submitTask b i kind none payload 0 now tasks =
      tasks ++ [TaskQueue.newTask b i kind none payload 0 now] := by
  rw [submitTask, Rows.insertNew, if_neg]
  rw [any_eq_true]
  rintro ⟨t, ht, hsame⟩
  have hti : t.id = i := of_decide_eq_true hsame
  exact hid (hti ▸ mem_map_of_mem ht)

end Statements

/-! ### Carriers -/

inductive Key (P : Type)
  | mem (p : P) (seq : ℕ)
  | row (id : TaskId)
  deriving DecidableEq

variable {P : Type} [DecidableEq P]

def Job.key (p : P) (job : Job) : Key P :=
  match job.taskId with
  | some id => .row id
  | none => .mem p job.seq

variable {job : Job}

section Keys

omit [DecidableEq P]

variable {p : P}

theorem key_of_taskId {i : TaskId} (h : job.taskId = some i) : job.key p = .row i := by
  rw [Job.key, h]

theorem key_of_none {job : Job} (h : job.taskId = none) : job.key p = .mem p job.seq := by
  rw [Job.key, h]

end Keys

def Call.offer (p : P) (c : Call) : Option (Key P) :=
  match c.stage with
  | .sent => none
  | _ => some (c.job.key p)

omit [DecidableEq P] in
theorem offer_of_ne {p : P} {c : Call} (h : c.stage ≠ .sent) : c.offer p = some (c.job.key p) := by
  rw [Call.offer]
  split
  · exact absurd (by assumption) h
  · rfl

omit [DecidableEq P] in
@[simp] theorem offer_ready (p : P) (job : Job) : Call.offer p ⟨job, .ready⟩ = some (job.key p) := rfl

omit [DecidableEq P] in
@[simp] theorem offer_closed (p : P) (job : Job) : Call.offer p ⟨job, .closed⟩ = some (job.key p) := rfl

omit [DecidableEq P] in
@[simp] theorem offer_numbered (p : P) (job : Job) : Call.offer p ⟨job, .numbered⟩ = some (job.key p) := rfl

omit [DecidableEq P] in
@[simp] theorem offer_sent (p : P) (job : Job) : Call.offer p ⟨job, .sent⟩ = none := rfl

def Proc.offered (p : P) (q : Proc) : List (Key P) := q.calls.filterMap (Call.offer p)

def Proc.held (p : P) (q : Proc) : List (Key P) := (q.phase.batch ++ q.channel).map (Job.key p)

def Proc.unsettled (p : P) (q : Proc) : List (Key P) := q.phase.rest.map (Job.key p)

def St.waits (s : St P) (i : TaskId) : Bool :=
  s.spilled.contains i && s.tasks.any fun t => t.id = i && t.status = .pending

def St.waiting (s : St P) : Key P → ℕ
  | .row i => if s.waits i then 1 else 0
  | .mem _ _ => 0

def St.handedKeys (s : St P) : List (Key P) := s.handed.map fun e => e.2.key e.1

section Waits

variable {s s' : St P}

omit [DecidableEq P] in
theorem waiting_congr (htasks : s'.tasks = s.tasks) (hspilled : s'.spilled = s.spilled)
    (k : Key P) : s'.waiting k = s.waiting k := by
  cases k with
  | mem r n => rfl
  | row i => rw [St.waiting, St.waiting, St.waits, St.waits, htasks, hspilled]

omit [DecidableEq P] in
theorem waits_of_notMem {i : TaskId} (h : i ∉ s.spilled) : s.waits i = false := by
  simp [St.waits, h]

omit [DecidableEq P] in
theorem waits_of_onlyRow {i j : TaskId} (h : OnlyRow i s.tasks s'.tasks) (hj : j ≠ i)
    (hspilled : s'.spilled = s.spilled) : s'.waits j = s.waits j := by
  have hany : (s'.tasks.any fun t => t.id = j && t.status = .pending) =
      s.tasks.any fun t => t.id = j && t.status = .pending := by
    rw [Bool.eq_iff_iff, any_eq_true, any_eq_true]
    refine exists_congr fun t => and_congr_left fun ht => h.other t ?_
    simp only [Bool.and_eq_true, decide_eq_true_eq] at ht
    rw [ht.1]
    exact hj
  rw [St.waits, St.waits, hany, hspilled]

end Waits

section Calls

variable {k : Key P} {calls : List Call} {i : ℕ} {c : Call}

theorem count_eraseIdx (hc : calls[i]? = some c) (f : Call → Option (Key P)) :
    ((calls.eraseIdx i).filterMap f).count k + (f c).toList.count k = (calls.filterMap f).count k := by
  obtain ⟨hi, rfl⟩ := List.getElem?_eq_some_iff.1 hc
  have hperm := ((getElem_cons_eraseIdx_perm hi).filterMap f).count_eq k
  rw [← hperm, filterMap_cons]
  cases hf : f calls[i] with
  | none => simp
  | some k' => simp [count_cons]

theorem count_set (hc : calls[i]? = some c) (c' : Call) (f : Call → Option (Key P)) :
    ((calls.set i c').filterMap f).count k + (f c).toList.count k =
      (calls.filterMap f).count k + (f c').toList.count k := by
  have hi := (List.getElem?_eq_some_iff.1 hc).1
  have hset := ((set_perm_cons_eraseIdx hi c').filterMap f).count_eq k
  rw [hset, ← count_eraseIdx hc f, filterMap_cons]
  cases f c' with
  | none => simp
  | some k' =>
    simp only [count_cons, Option.toList_some, count_nil]
    omega

end Calls

variable [Fintype P]

def St.offers (s : St P) (k : Key P) : ℕ := ∑ p, ((s.procs p).offered p).count k

def St.out (s : St P) (k : Key P) : ℕ := (∑ p, ((s.procs p).held p).count k) + s.waiting k + s.handedKeys.count k

def St.unsettled (s : St P) (k : Key P) : ℕ := ∑ p, ((s.procs p).unsettled p).count k

theorem sum_update (F : P → Proc → ℕ) (g : P → Proc) (p : P) (q : Proc) :
    (∑ r, F r (Function.update g p q r)) + F p (g p) = (∑ r, F r (g r)) + F p q := by
  have herase : ∑ r ∈ Finset.univ.erase p, F r (Function.update g p q r) = ∑ r ∈ Finset.univ.erase p, F r (g r) :=
    Finset.sum_congr rfl fun r hr => by rw [update_of_ne (Finset.ne_of_mem_erase hr)]
  rw [← Finset.add_sum_erase _ _ (Finset.mem_univ p),
    ← Finset.add_sum_erase _ (fun r => F r (g r)) (Finset.mem_univ p), herase, update_self]
  omega

omit [DecidableEq P] in
theorem le_sum (F : P → ℕ) (p : P) : F p ≤ ∑ r, F r :=
  Finset.single_le_sum (fun _ _ => Nat.zero_le _) (Finset.mem_univ p)

/-! ### The condition -/

/-- **The condition on the steps.**  Claims take rows that are left to the store and have not been
handed out; a durable job comes through the channel over SQLite only; handlers do not fail, and no
worker leaves jobs behind in its channel. -/
def OneWay (S : Setup P) (s : St P) : Action P → Prop
  | .claim _ _ _ id => id ∈ s.spilled ∧ ∀ t ∈ s.tasks, t.id = id → t.status = .pending
  | .send p i => ∀ job, (s.procs p).calls[i]? = some ⟨job, .ready⟩ → job.taskId ≠ none →
      (s.procs p).channel.length < S.cfg.channelCap → S.backend = .sqlite
  | .handle _ ok => ok = true
  | .leave p => (s.procs p).channel = []
  | _ => True

/-- The queues start over whatever earlier processes have left in the store. -/
structure Start (S : Setup P) (s : St P) : Prop where
  procs : ∀ p, s.procs p = Proc.start (S.durable p)
  spilled : s.spilled = s.tasks.map TaskQueue.Task.id
  accepted : s.accepted = []
  handed : s.handed = []

structure AtRest (s : St P) : Prop where
  calls : ∀ p, (s.procs p).calls = []
  channel : ∀ p, (s.procs p).channel = []
  phase : ∀ p, (s.procs p).phase = .idle ∨ (s.procs p).phase = .stopped
  rows : ∀ i, s.waits i = false

/-! ### The invariant -/

def Proc.work (q : Proc) : List Job := q.phase.batch ++ q.channel ++ q.phase.rest

def St.Knows (s : St P) : Key P → Prop
  | .mem p n => n ≤ (s.procs p).seq
  | .row i => i ∈ s.tasks.map TaskQueue.Task.id

structure Counted (s : St P) : Prop where
  once : ∀ k, s.offers k + s.out k ≤ 1
  sent : ∀ p, ∀ c ∈ (s.procs p).calls, c.stage = .sent → s.out (c.job.key p) = 1
  accepted : ∀ a ∈ s.accepted, s.out (a.job.key a.proc) = 1
  known : ∀ k, 0 < s.offers k + s.out k → s.Knows k

structure ProcOk (S : Setup P) (tasks : List Row) (spilled : List TaskId) (p : P) (q : Proc) : Prop where
  numbered : ∀ c ∈ q.calls, c.stage = .numbered → c.job.taskId = none ∧ S.durable p = true
  durable : ∀ job ∈ q.calls.map Call.job ++ q.work, job.taskId ≠ none → S.durable p = true
  offered : ∀ c ∈ q.calls, c.stage ≠ .sent → ∀ i, c.job.taskId = some i →
    i ∉ spilled ∧ ∃ t ∈ tasks, t.id = i ∧ t.status = .pending
  completable : ∀ job ∈ q.work, ∀ i, job.taskId = some i → ∀ t ∈ tasks, t.id = i →
    TaskQueue.Task.completable S.backend i t = true
  succeeded : ∀ source batch rest ok, q.phase = .settling source batch rest ok → ok = true

structure Stored (S : Setup P) (s : St P) : Prop where
  proc : ∀ p, ProcOk S s.tasks s.spilled p (s.procs p)
  spilled : ∀ i ∈ s.spilled, i ∈ s.tasks.map TaskQueue.Task.id
  unsettled : ∀ k, s.unsettled k ≤ s.handedKeys.count k
  done : ∀ i, .row i ∈ s.handedKeys → s.unsettled (.row i) = 0 → ∀ t ∈ s.tasks, t.id = i → t.status = .done

section Positive

variable {S : Setup P} {s : St P} {p : P} {k : Key P}

theorem offers_pos {c : Call} (hc : c ∈ (s.procs p).calls) (hstage : c.stage ≠ .sent) :
    0 < s.offers (c.job.key p) := by
  have hmem : c.job.key p ∈ (s.procs p).offered p := by
    refine mem_filterMap.2 ⟨c, hc, ?_⟩
    rw [Call.offer]
    split
    · exact absurd (by assumption) hstage
    · rfl
  exact Nat.lt_of_lt_of_le (count_pos_iff.2 hmem) (le_sum (fun p => ((s.procs p).offered p).count (c.job.key _)) p)

theorem held_le_out : ((s.procs p).held p).count k ≤ s.out k := by
  have h := le_sum (fun p => ((s.procs p).held p).count k) p
  rw [St.out]
  omega

theorem unsettled_le_out (h : Stored S s) : ((s.procs p).unsettled p).count k ≤ s.out k := by
  have h₁ := le_sum (fun p => ((s.procs p).unsettled p).count k) p
  have h₂ := h.unsettled k
  rw [St.unsettled] at h₂
  rw [St.out]
  omega

theorem work_pos (h : Stored S s) (hjob : job ∈ (s.procs p).work) : 0 < s.out (job.key p) := by
  rcases mem_append.1 hjob with hheld | hrest
  · have hmem : job.key p ∈ (s.procs p).held p := mem_map_of_mem hheld
    exact Nat.lt_of_lt_of_le (count_pos_iff.2 hmem) held_le_out
  · have hmem : job.key p ∈ (s.procs p).unsettled p := mem_map_of_mem hrest
    exact Nat.lt_of_lt_of_le (count_pos_iff.2 hmem) (unsettled_le_out h)

theorem Counted.taskId_ne (h : Counted s) (hs : Stored S s) {r : P} {c : Call} {job : Job}
    {i : TaskId} (hc : c ∈ (s.procs p).calls) (hstage : c.stage ≠ .sent)
    (hci : c.job.taskId = some i) (hjob : job ∈ (s.procs r).work) : job.taskId ≠ some i := by
  intro hji
  have h₁ := offers_pos hc hstage
  have h₂ := work_pos hs hjob
  have h₃ := h.once (.row i)
  rw [key_of_taskId hci] at h₁
  rw [key_of_taskId hji] at h₂
  omega

end Positive

section Carriers

variable {S : Setup P} {s s' : St P} {a : Action P}

theorem Counted.next (h : Counted s) (hcarry : ∀ k, s'.offers k + s'.out k ≤ s.offers k + s.out k ∨
      s'.offers k + s'.out k ≤ 1 ∧ s'.Knows k) (hkeep : ∀ k, s.out k = 1 → 1 ≤ s'.out k)
    (hsent : ∀ p, ∀ c ∈ (s'.procs p).calls, c.stage = .sent → c ∈ (s.procs p).calls ∨ 1 ≤ s'.out (c.job.key p))
    (haccepted : ∀ a ∈ s'.accepted, a ∈ s.accepted ∨ 1 ≤ s'.out (a.job.key a.proc))
    (hknows : ∀ k, s.Knows k → s'.Knows k) : Counted s' := by
  have honce : ∀ k, s'.offers k + s'.out k ≤ 1 := fun k =>
    (hcarry k).elim (fun hle => hle.trans (h.once k)) And.left
  have hone : ∀ k, 1 ≤ s'.out k → s'.out k = 1 := fun k hk => by
    have := honce k
    omega
  refine ⟨honce, fun p c hc hstage => hone _ ?_, fun a ha => hone _ ?_, fun k hk => ?_⟩
  · exact (hsent p c hc hstage).elim (fun hold => hkeep _ (h.sent p c hold hstage)) id
  · exact (haccepted a ha).elim (fun hold => hkeep _ (h.accepted a hold)) id
  · rcases hcarry k with hle | ⟨-, hnew⟩
    · exact hknows k (h.known k (by omega))
    · exact hnew

variable {q : Proc}

theorem offers_update {p : P} (hprocs : s'.procs = Function.update s.procs p q)
    (k : Key P) : s'.offers k + ((s.procs p).offered p).count k = s.offers k + (q.offered p).count k := by
  rw [St.offers, hprocs]
  exact sum_update (fun r q => (q.offered r).count k) s.procs p q

theorem out_update {p : P} {q : Proc} (hprocs : s'.procs = Function.update s.procs p q)
    (k : Key P) : s'.out k + (((s.procs p).held p).count k + s.waiting k + s.handedKeys.count k) =
      s.out k + ((q.held p).count k + s'.waiting k + s'.handedKeys.count k) := by
  have h := sum_update (fun r q => (q.held r).count k) s.procs p q
  rw [St.out, St.out, hprocs]
  omega

theorem unsettled_update {p : P} {q : Proc} (hprocs : s'.procs = Function.update s.procs p q)
    (k : Key P) : s'.unsettled k + ((s.procs p).unsettled p).count k = s.unsettled k + (q.unsettled p).count k := by
  rw [St.unsettled, hprocs]
  exact sum_update (fun r q => (q.unsettled r).count k) s.procs p q

/-! ### The carriers, step by step -/

omit [Fintype P] in
theorem knows_of_le {p : P} {q : Proc} (hprocs : s'.procs = Function.update s.procs p q)
    (hseq : (s.procs p).seq ≤ q.seq)
    (hids : ∀ i ∈ s.tasks.map TaskQueue.Task.id, i ∈ s'.tasks.map TaskQueue.Task.id) (k : Key P)
    (hk : s.Knows k) : s'.Knows k := by
  cases k with
  | row i => exact hids i hk
  | mem r n =>
    refine le_trans hk ?_
    rw [hprocs]
    by_cases hr : r = p
    · subst hr
      rwa [update_self]
    · rw [update_of_ne hr]

theorem sent_of_update {p : P} (hprocs : s'.procs = Function.update s.procs p q)
    (h : ∀ c ∈ q.calls, c.stage = .sent → c ∈ (s.procs p).calls ∨ 1 ≤ s'.out (c.job.key p)) (r : P) :
    ∀ c ∈ (s'.procs r).calls, c.stage = .sent → c ∈ (s.procs r).calls ∨ 1 ≤ s'.out (c.job.key r) := by
  intro c hc hstage
  rw [hprocs] at hc
  by_cases hr : r = p
  · subst hr
    rw [update_self] at hc
    exact h c hc hstage
  · rw [update_of_ne hr] at hc
    exact .inl hc

theorem Counted.submit (h : Counted s) (p : P) (partition : String) (payload : Value)
    (durable : Bool) {stage : Stage} (hstage : stage ≠ .sent) :
    Counted (s.setProc p { s.procs p with
      seq := (s.procs p).seq + 1
      calls := (s.procs p).calls ++ [⟨⟨(s.procs p).seq + 1, partition, payload, durable, none⟩, stage⟩] }) := by
  set q : Proc := { s.procs p with
    seq := (s.procs p).seq + 1
    calls := (s.procs p).calls ++ [⟨⟨(s.procs p).seq + 1, partition, payload, durable, none⟩, stage⟩] } with hq
  have hprocs : (s.setProc p q).procs = Function.update s.procs p q := rfl
  -- the number is new
  have hnew : s.offers (.mem p ((s.procs p).seq + 1)) + s.out (.mem p ((s.procs p).seq + 1)) = 0 := by
    by_contra hne
    have hle : (s.procs p).seq + 1 ≤ (s.procs p).seq := h.known _ (Nat.pos_of_ne_zero hne)
    omega
  have hoffered : ∀ k, (q.offered p).count k =
      ((s.procs p).offered p).count k + [Key.mem p ((s.procs p).seq + 1)].count k := by
    intro k
    rw [hq, Proc.offered, filterMap_append, count_append, filterMap_cons, offer_of_ne hstage]
    rfl
  have hout : ∀ k, (s.setProc p q).out k = s.out k := fun k => by
    have := out_update hprocs k
    have hw : (s.setProc p q).waiting k = s.waiting k := waiting_congr rfl rfl k
    have hh : (s.setProc p q).handedKeys = s.handedKeys := rfl
    have hheld : q.held p = (s.procs p).held p := rfl
    rw [hw, hh, hheld] at this
    omega
  refine h.next (fun k => ?_) (fun k hk => (hout k).symm ▸ hk.ge)
    (sent_of_update hprocs fun c hc hsent => ?_) (fun a ha => .inl ha)
    (knows_of_le hprocs (Nat.le_succ _) fun _ => id)
  · have := offers_update hprocs k
    rw [hoffered k] at this
    rw [hout k]
    by_cases hk : k = .mem p ((s.procs p).seq + 1)
    · subst hk
      refine .inr ⟨?_, ?_⟩
      · rw [count_singleton_self] at this
        omega
      · show _ ≤ ((s.setProc p q).procs p).seq
        rw [hprocs, update_self]
    · rw [count_singleton, if_neg (by simpa using fun heq => hk heq.symm)] at this
      exact .inl (by omega)
  · rcases mem_append.1 hc with hc | hc
    · exact .inl hc
    · rw [mem_singleton.1 hc] at hsent
      exact absurd hsent hstage

theorem Counted.of_offered (h : Counted s) {p : P}
    (hprocs : s'.procs = Function.update s.procs p q) (hseq : (s.procs p).seq ≤ q.seq)
    (hoffered : ∀ k, (q.offered p).count k ≤ ((s.procs p).offered p).count k) (hout : ∀ k, s'.out k = s.out k)
    (hsent : ∀ c ∈ q.calls, c.stage = .sent → c ∈ (s.procs p).calls)
    (haccepted : ∀ a ∈ s'.accepted, a ∈ s.accepted ∨ 1 ≤ s.out (a.job.key a.proc))
    (hids : ∀ i ∈ s.tasks.map TaskQueue.Task.id, i ∈ s'.tasks.map TaskQueue.Task.id) : Counted s' := by
  refine h.next (fun k => .inl ?_) (fun k hk => (hout k).symm ▸ hk.ge)
    (sent_of_update hprocs fun c hc hstage => .inl (hsent c hc hstage))
    (fun a ha => (haccepted a ha).imp_right fun hle => (hout _).symm ▸ hle)
    (knows_of_le hprocs hseq hids)
  have h₁ := offers_update hprocs k
  have h₂ := hoffered k
  have h₃ := hout k
  omega

theorem out_of_held {p : P} (hprocs : s'.procs = Function.update s.procs p q)
    (hheld : q.held p = (s.procs p).held p) (hwaiting : ∀ k, s'.waiting k = s.waiting k)
    (hhanded : s'.handed = s.handed) (k : Key P) : s'.out k = s.out k := by
  have h := out_update hprocs k
  rw [hheld, hwaiting k, St.handedKeys, St.handedKeys, hhanded] at h
  omega

theorem Counted.of_moved (h : Counted s) {p : P} {q : Proc} {j : Job}
    (hprocs : s'.procs = Function.update s.procs p q) (hseq : (s.procs p).seq ≤ q.seq)
    (hoffered : ∀ k, (q.offered p).count k + [j.key p].count k = ((s.procs p).offered p).count k)
    (hplace : ∀ k, (q.held p).count k + s'.waiting k + s'.handedKeys.count k =
      ((s.procs p).held p).count k + s.waiting k + s.handedKeys.count k + [j.key p].count k)
    (hsent : ∀ c ∈ q.calls, c.stage = .sent → c ∈ (s.procs p).calls ∨ c.job = j)
    (haccepted : ∀ a ∈ s'.accepted, a ∈ s.accepted ∨ a.proc = p ∧ a.job = j)
    (hids : ∀ i ∈ s.tasks.map TaskQueue.Task.id, i ∈ s'.tasks.map TaskQueue.Task.id) : Counted s' := by
  have hout : ∀ k, s'.out k = s.out k + [j.key p].count k := fun k => by
    have h₁ := out_update hprocs k
    have h₂ := hplace k
    omega
  have hone : 1 ≤ s'.out (j.key p) := by
    rw [hout, count_singleton_self]
    omega
  refine h.next (fun k => .inl ?_) (fun k hk => ?_)
    (sent_of_update hprocs fun c hc hsent' => (hsent c hc hsent').imp_right ?_)
    (fun a ha => (haccepted a ha).imp_right ?_) (knows_of_le hprocs hseq hids)
  · have h₁ := offers_update hprocs k
    have h₂ := hoffered k
    have h₃ := hout k
    omega
  · have h₃ := hout k
    omega
  · intro hjob
    rw [hjob]
    exact hone
  · rintro ⟨hproc, hjob⟩
    rw [hproc, hjob]
    exact hone

omit [DecidableEq P] [Fintype P] in
theorem waiting_of_onlyRow {i : TaskId} (h : OnlyRow i s.tasks s'.tasks)
    (hspilled : s'.spilled = s.spilled) (hi : s.waits i = false)
    (hpending : ∀ t ∈ s'.tasks, t.status = .pending → t ∈ s.tasks) (k : Key P) : s'.waiting k = s.waiting k := by
  cases k with
  | mem r n => rfl
  | row j =>
    rw [St.waiting, St.waiting]
    by_cases hj : j = i
    · subst hj
      have hi' : s'.waits j = false := by
        rw [Bool.eq_false_iff]
        intro hwaits
        rw [St.waits, Bool.and_eq_true, any_eq_true, hspilled] at hwaits
        obtain ⟨hmem, t, ht, hp⟩ := hwaits
        have hstatus : t.status = .pending := by
          rw [Bool.and_eq_true, decide_eq_true_eq, decide_eq_true_eq] at hp
          exact hp.2
        have : s.waits j = true := by
          rw [St.waits, Bool.and_eq_true, any_eq_true]
          exact ⟨hmem, t, hpending t ht hstatus, hp⟩
        rw [hi] at this
        cases this
      rw [hi, hi']
    · rw [waits_of_onlyRow h hj hspilled]

variable {id : TaskId}

omit [DecidableEq P] [Fintype P] in
theorem waiting_of_new {t : Row} (htasks : s'.tasks = s.tasks ++ [t]) (ht : t.id = id)
    (hid : id ∉ s.spilled) (hspilled : s'.spilled = s.spilled) (k : Key P) : s'.waiting k = s.waiting k := by
  cases k with
  | mem r n => rfl
  | row j =>
    rw [St.waiting, St.waiting]
    by_cases hj : j = id
    · subst hj
      rw [waits_of_notMem hid, waits_of_notMem (hspilled ▸ hid)]
    · have hne : t.id ≠ j := fun heq => hj (heq.symm.trans ht)
      rw [St.waits, St.waits, htasks, hspilled, any_append]
      simp [hne]

omit [DecidableEq P] [Fintype P] in
theorem waits_of_claimed {node : NodeId} {l : Int} {i : TaskId}
    (htasks : s'.tasks = claimTask b node l now i s.tasks) : s'.waits i = false := by
  rw [St.waits, Bool.and_eq_false_iff]
  right
  rw [any_eq_false]
  intro t ht hpending
  rw [htasks] at ht
  simp only [Bool.and_eq_true, decide_eq_true_eq] at hpending
  obtain ⟨q, hq, ⟨-, rfl⟩ | ⟨hne, rfl⟩⟩ := Rows.mem_updateWhere.1 ht
  · exact TaskQueue.held_ne_pending b hpending.2
  · simp [hpending.1] at hne

omit [Fintype P] in
theorem waiting_of_claimed {node : NodeId} {l : Int} {t : Row}
    (ht : t ∈ s.tasks) (hpending : t.status = .pending) (hmem : t.id ∈ s.spilled)
    (htasks : s'.tasks = claimTask b node l now t.id s.tasks) (hspilled : s'.spilled = s.spilled)
    (k : Key P) : s'.waiting k + [Key.row t.id].count k = s.waiting k := by
  cases k with
  | mem r n => simp [St.waiting]
  | row j =>
    rw [St.waiting, St.waiting]
    by_cases hj : j = t.id
    · have hany : (s.tasks.any fun u => u.id = t.id && u.status = .pending) = true :=
        any_eq_true.2 ⟨t, ht, by simp [hpending]⟩
      have hwaits : s.waits t.id = true := by
        rw [St.waits, hany]
        simpa using hmem
      rw [hj, waits_of_claimed htasks, hwaits, count_singleton_self]
      rfl
    · have honly : OnlyRow t.id s.tasks s'.tasks := htasks ▸ OnlyRow.claim b node l now
      have hne : Key.row t.id ≠ (Key.row j : Key P) := fun heq => hj (Key.row.inj heq).symm
      have hcount : [Key.row t.id].count (Key.row j : Key P) = 0 := by
        simp [hne]
      rw [waits_of_onlyRow honly hj hspilled, hcount, Nat.add_zero]

omit [DecidableEq P] [Fintype P] in
theorem handedKeys_append {p : P} {b : List Job}
    (h : s'.handed = s.handed ++ b.map fun job => (p, job)) : s'.handedKeys = s.handedKeys ++ b.map (Job.key p) := by
  rw [St.handedKeys, St.handedKeys, h, map_append, map_map]
  rfl

theorem Counted.of_renamed (h : Counted s) {p : P} {i : ℕ}
    (hprocs : s'.procs = Function.update s.procs p q) (hseq : (s.procs p).seq ≤ q.seq)
    (hcall : (s.procs p).calls[i]? = some ⟨job, .numbered⟩) (hnone : job.taskId = none)
    (hcalls : q.calls = (s.procs p).calls.set i ⟨{ job with taskId := some id }, .ready⟩)
    (hid : id ∉ s.tasks.map TaskQueue.Task.id)
    (hids : s'.tasks.map TaskQueue.Task.id = s.tasks.map TaskQueue.Task.id ++ [id])
    (hout : ∀ k, s'.out k = s.out k) (haccepted : s'.accepted = s.accepted) : Counted s' := by
  -- the row is new
  have hnew : s.offers (.row id) + s.out (.row id) = 0 := by
    by_contra hne
    exact hid (h.known (.row id) (Nat.pos_of_ne_zero hne))
  have hids' : ∀ j ∈ s.tasks.map TaskQueue.Task.id, j ∈ s'.tasks.map TaskQueue.Task.id := fun j hj => by
    rw [hids]
    exact mem_append_left _ hj
  refine h.next (fun k => ?_) (fun k hk => (hout k).symm ▸ hk.ge)
    (sent_of_update hprocs fun c hc hstage => ?_) (fun a ha => .inl (haccepted ▸ ha))
    (knows_of_le hprocs hseq hids')
  · have h₁ := offers_update hprocs k
    have h₂ := count_set (k := k) hcall ⟨{ job with taskId := some id }, .ready⟩ (Call.offer p)
    have h₃ := hout k
    rw [offer_numbered, offer_ready, key_of_none hnone, key_of_taskId (i := id) rfl] at h₂
    rw [Proc.offered, Proc.offered, hcalls] at h₁
    by_cases hk : k = .row id
    · subst hk
      refine .inr ⟨?_, ?_⟩
      · rw [Option.toList_some, Option.toList_some, count_singleton_self] at h₂
        omega
      · show id ∈ s'.tasks.map TaskQueue.Task.id
        rw [hids]
        exact mem_append_right _ mem_cons_self
    · have hne : Key.row id ≠ k := fun heq => hk heq.symm
      rw [Option.toList_some, Option.toList_some, count_singleton (b := Key.row id), if_neg (by simpa using hne)] at h₂
      exact .inl (by omega)
  · rw [hcalls] at hc
    rcases mem_or_eq_of_mem_set hc with hc | rfl
    · exact .inl hc
    · cases hstage

theorem Counted.of_place (h : Counted s) {p : P}
    (hprocs : s'.procs = Function.update s.procs p q) (hseq : (s.procs p).seq ≤ q.seq)
    (hcalls : q.calls = (s.procs p).calls) (hplace : ∀ k, (q.held p).count k + s'.waiting k + s'.handedKeys.count k =
      ((s.procs p).held p).count k + s.waiting k + s.handedKeys.count k) (haccepted : s'.accepted = s.accepted)
    (hids : ∀ i ∈ s.tasks.map TaskQueue.Task.id, i ∈ s'.tasks.map TaskQueue.Task.id) : Counted s' := by
  refine h.of_offered hprocs hseq (fun k => ?_) (fun k => ?_) (fun c hc _ => hcalls ▸ hc)
    (fun a ha => .inl (haccepted ▸ ha)) hids
  · rw [Proc.offered, hcalls]
    exact le_rfl
  · have h₁ := out_update hprocs k
    have h₂ := hplace k
    omega

theorem Counted.of_phase (h : Counted s) {p : P} (hcalls : q.calls = (s.procs p).calls)
    (hseq : (s.procs p).seq ≤ q.seq)
    (hwork : q.phase.batch ++ q.channel = (s.procs p).phase.batch ++ (s.procs p).channel) :
    Counted (s.setProc p q) := by
  refine h.of_offered (p := p) (q := q) rfl hseq (fun k => ?_)
    (out_of_held (p := p) (q := q) rfl ?_ (waiting_congr rfl rfl) rfl) (fun c hc _ => hcalls ▸ hc)
    (fun a ha => .inl ha) fun _ hi => hi
  · rw [Proc.offered, hcalls]
    exact le_rfl
  · rw [Proc.held, hwork]
    rfl

theorem Counted.step (h : Counted s) (hs : Stored S s) (hok : OneWay S s a) (hmove : Moved S s a s') : Counted s' := by
  cases hmove with
  | submit p partition payload durable =>
    exact h.submit p partition payload durable (by split <;> exact nofun)
  | @store p i job id now hcall hid =>
    have htasks := @submitTask_of_new _ _ S.backend S.cfg.name (envelope job.partition job.payload) now hid
    refine h.of_renamed (p := p) rfl le_rfl hcall ((hs.proc p).numbered _ (mem_of_getElem? hcall) rfl).1 rfl hid ?_
      (out_of_held (p := p) rfl rfl (waiting_of_new htasks rfl (fun hmem => hid (hs.spilled _ hmem)) rfl) rfl) rfl
    exact (congrArg (List.map TaskQueue.Task.id) htasks).trans map_append
  | @refused p i job hcall hphase =>
    refine h.of_offered (p := p) rfl le_rfl (fun k => ?_) (out_of_held (p := p) rfl rfl ?_ rfl)
      (fun c hc hstage => ?_) (fun a ha => .inl ha) fun _ => id
    · have hset := count_set (k := k) hcall ⟨job, .closed⟩ (Call.offer p)
      rw [offer_ready, offer_closed] at hset
      exact (Nat.add_right_cancel hset).le
    · exact waiting_congr rfl rfl
    · rcases mem_or_eq_of_mem_set hc with hc | rfl
      · exact hc
      · cases hstage
  | @sent p i job hcall hphase hcap =>
    refine h.of_moved (p := p) (j := job) rfl le_rfl (fun k => ?_) (fun k => ?_)
      (fun c hc hstage => ?_) (fun a ha => .inl ha) fun _ => id
    · have hset := count_set (k := k) hcall ⟨job, .sent⟩ (Call.offer p)
      rw [offer_ready, offer_sent] at hset
      exact hset
    · have hw : St.waiting (s.setProc p { s.procs p with
          channel := (s.procs p).channel ++ [job]
          calls := (s.procs p).calls.set i ⟨job, .sent⟩ }) k = s.waiting k := waiting_congr rfl rfl k
      rw [hw]
      simp only [Proc.held, ← append_assoc, map_append, count_append, map_cons, map_nil, St.handedKeys, St.setProc]
      omega
    · exact (mem_or_eq_of_mem_set hc).imp_right fun heq => by rw [heq]
  | @spilled p i job id hcall hfull hid =>
    obtain ⟨hnot, t, ht, htid, hpending⟩ := (hs.proc p).offered _ (mem_of_getElem? hcall) nofun id hid
    refine h.of_moved (p := p) (j := job) rfl le_rfl (fun k => ?_) (fun k => ?_)
      (fun c hc hstage => .inl (mem_of_mem_eraseIdx hc)) (fun a ha => ?_) fun _ hi => hi
    · have herase := count_eraseIdx (k := k) hcall (Call.offer p)
      rw [offer_ready] at herase
      exact herase
    · rw [key_of_taskId hid]
      have hw : St.waiting { s.setProc p { s.procs p with
            calls := (s.procs p).calls.eraseIdx i } with
          spilled := s.spilled ++ [id], accepted := s.accepted ++ [⟨p, job, true⟩] } k =
          s.waiting k + [Key.row id].count k := by
        cases k with
        | mem r n => simp [St.waiting]
        | row j =>
          by_cases hj : j = id
          · subst hj
            have hwaits : s.waits j = false := waits_of_notMem hnot
            have hany : (s.tasks.any fun t => t.id = j && t.status = .pending) = true :=
              any_eq_true.2 ⟨t, ht, by simp [htid, hpending]⟩
            simp only [St.waiting, hwaits]
            simp [St.waits, St.setProc, hany]
          · have hne : id ≠ j := fun heq => hj heq.symm
            simp [St.waiting, St.waits, St.setProc, hne, hj]
      rw [hw]
      simp only [Proc.held, St.handedKeys, St.setProc]
      omega
    · rcases mem_append.1 ha with ha | ha
      · exact .inl ha
      · rw [mem_singleton.1 ha]
        exact .inr ⟨rfl, rfl⟩
  | @full p i job hcall hid =>
    refine h.of_offered (p := p) rfl le_rfl (fun k => ?_) (out_of_held (p := p) rfl rfl ?_ rfl)
      (fun c hc hstage => mem_of_mem_eraseIdx hc) (fun a ha => .inl ha) fun _ => id
    · have herase := count_eraseIdx (k := k) hcall (Call.offer p)
      exact le_of_le_of_eq (Nat.le_add_right _ _) herase
    · exact waiting_congr rfl rfl
  | @mark p i job hcall =>
    refine h.of_offered (p := p) rfl le_rfl (fun k => ?_) (out_of_held (p := p) rfl rfl ?_ rfl)
      (fun c hc hstage => mem_of_mem_eraseIdx hc) (fun a ha => ?_) fun _ => id
    · have herase := count_eraseIdx (k := k) hcall (Call.offer p)
      exact le_of_le_of_eq (Nat.le_add_right _ _) herase
    · exact waiting_congr rfl rfl
    · rcases mem_append.1 ha with ha | ha
      · exact .inl ha
      · rw [mem_singleton.1 ha]
        exact .inr (h.sent p _ (mem_of_getElem? hcall) rfl).ge
  | @retire p i job now hcall =>
    have herase := fun k => count_eraseIdx (k := k) hcall (Call.offer p)
    cases hid : job.taskId with
    | none =>
      have htasks : retired S job now s.tasks = s.tasks := by rw [retired, hid]
      exact h.of_offered (p := p) rfl le_rfl (fun k => le_of_le_of_eq (Nat.le_add_right _ _) (herase k))
        (out_of_held (p := p) rfl rfl (waiting_congr htasks rfl) rfl)
        (fun c hc _ => mem_of_mem_eraseIdx hc) (fun a ha => .inl ha)
        fun j hj => htasks.symm ▸ hj
    | some id =>
      have honly : OnlyRow id s.tasks (retired S job now s.tasks) := by
        rw [retired, hid]
        exact .complete _ _
      have hnot := ((hs.proc p).offered _ (mem_of_getElem? hcall) nofun id hid).1
      refine h.of_offered (p := p) rfl le_rfl (fun k => le_of_le_of_eq (Nat.le_add_right _ _) (herase k))
        (out_of_held (p := p) rfl rfl (waiting_of_onlyRow honly rfl (waits_of_notMem hnot) fun t ht => ?_) rfl)
        (fun c hc _ => mem_of_mem_eraseIdx hc) (fun a ha => .inl ha)
        fun j hj => honly.ids.symm ▸ hj
      have ht : t ∈ completeTask S.backend id now s.tasks := by
        have hr : retired S job now s.tasks = completeTask S.backend id now s.tasks := by
          rw [retired, hid]
        exact hr ▸ ht
      exact pending_of_complete ht
  | @recv p job rest phase hchannel hphase =>
    refine h.of_phase rfl le_rfl ?_
    rw [(receive_batch hphase).1, hchannel, append_assoc]
    rfl
  | @close p source batch hopen =>
    refine h.of_phase rfl le_rfl ?_
    rw [(closed_batch source batch).1, (open_batch hopen).1]
  | @poll p hphase hchannel hdurable | @shutdown p hphase =>
    refine h.of_phase rfl le_rfl ?_
    rw [hphase]
    rfl
  | @claim p batch task now locked hphase htask hpicks =>
    obtain ⟨hspilled, hpending⟩ := hok
    have honly : OnlyRow task.id s.tasks (claimTask S.backend (S.node p) lease now task.id s.tasks) :=
      .claim S.backend (S.node p) lease now
    have hwaiting : ∀ k, St.waiting { s with
        tasks := claimTask S.backend (S.node p) lease now task.id s.tasks } k +
        [Key.row task.id].count k = s.waiting k :=
      waiting_of_claimed htask (hpending task htask rfl) hspilled rfl rfl
    refine h.of_place (p := p) rfl (Nat.le_succ _) rfl (fun k => ?_) rfl fun j hj => honly.ids.symm ▸ hj
    rw [← hwaiting k]
    simp only [Proc.held, hphase, Phase.batch, append_assoc, map_append, count_append, map_cons, map_nil]
    change _ + ([Key.row task.id].count k + _) + _ + _ = _
    have hsame : ∀ q, St.waiting { s.setProc p q with
        tasks := claimTask S.backend (S.node p) lease now task.id s.tasks } k =
        St.waiting { s with tasks := claimTask S.backend (S.node p) lease now task.id s.tasks } k :=
      fun q => waiting_congr rfl rfl k
    rw [hsame]
    simp only [St.handedKeys, St.setProc]
    omega
  | @handle p source batch attempt ok hphase =>
    obtain rfl : ok = true := hok
    refine h.of_place (p := p) rfl le_rfl rfl (fun k => ?_) rfl fun _ hj => hj
    rw [handedKeys_append (s := s) (p := p) (b := batch) rfl, count_append,
      Proc.held, Proc.held, hphase, map_append, map_append, count_append,
      count_append]
    have hw : St.waiting { s.setProc p { s.procs p with
          phase := afterHandle S.cfg.maxRetries source batch attempt true } with
        handed := s.handed ++ batch.map fun job => (p, job) } k = s.waiting k :=
      waiting_congr rfl rfl k
    rw [hw]
    simp only [Phase.batch, afterHandle, if_true, map_nil, count_nil]
    omega
  | @settle p source batch rest job ok now hphase =>
    obtain rfl := (hs.proc p).succeeded _ _ _ _ hphase
    have hheld : ∀ q : Proc, q.phase = .settling source batch rest true →
        q.channel = (s.procs p).channel → q.held p = (s.procs p).held p := by
      intro q hq hchannel
      rw [Proc.held, Proc.held, hphase, hq, hchannel]
      rfl
    rcases settled_cases S p job true now s.tasks with htasks | ⟨id, hid, htasks⟩
    · exact h.of_offered (p := p) rfl le_rfl (fun k => le_rfl)
        (out_of_held (p := p) rfl (hheld _ rfl rfl) (waiting_congr htasks rfl) rfl)
        (fun c hc _ => hc) (fun a ha => .inl ha) fun j hj => htasks.symm ▸ hj
    · rw [if_pos rfl] at htasks
      have honly : OnlyRow id s.tasks (settled S p job true now s.tasks) := by
        rw [htasks]
        exact .complete _ _
      -- the job has been handed over, so its row waits for nobody
      have hrest : job.key p ∈ (s.procs p).unsettled p := by
        rw [Proc.unsettled, hphase]
        exact mem_cons_self
      have hpos := count_pos_iff.2 hrest
      rw [key_of_taskId hid] at hpos
      have hwaits : s.waits id = false := by
        by_contra hne
        have h₁ := h.once (.row id)
        have h₂ := le_sum (fun p => ((s.procs p).unsettled p).count (.row id)) p
        have h₃ := hs.unsettled (.row id)
        rw [St.unsettled] at h₃
        rw [St.out, St.waiting, if_pos (by simpa using hne)] at h₁
        omega
      refine h.of_offered (p := p) rfl le_rfl (fun k => le_rfl)
        (out_of_held (p := p) rfl (hheld _ rfl rfl) (waiting_of_onlyRow honly rfl hwaits fun t ht => ?_) rfl)
        (fun c hc _ => hc) (fun a ha => .inl ha) fun j hj => honly.ids.symm ▸ hj
      have ht : t ∈ completeTask S.backend id now s.tasks := htasks ▸ ht
      exact pending_of_complete ht
  | @finish p source batch ok hphase =>
    refine h.of_phase rfl le_rfl ?_
    rw [hphase, (next_batch source).1]
    rfl
  | @leave p hphase =>
    have hchannel : (s.procs p).channel = [] := hok
    refine h.of_phase rfl le_rfl ?_
    rw [hphase, hchannel]
    rfl

/-! ### The rows, step by step -/

variable {spilled : List TaskId}

omit [DecidableEq P] [Fintype P] in
theorem ProcOk.of_onlyRow {tasks tasks' : List Row} {p : P}
    {i : TaskId} (h : ProcOk S tasks spilled p q) (honly : OnlyRow i tasks tasks')
    (hoffered : ∀ c ∈ q.calls, c.stage ≠ .sent → c.job.taskId ≠ some i)
    (hwork : ∀ job ∈ q.work, job.taskId = some i → ∀ t ∈ tasks', t.id = i →
      TaskQueue.Task.completable S.backend i t = true) : ProcOk S tasks' spilled p q where
  numbered := h.numbered
  durable := h.durable
  offered c hc hstage j hj := by
    obtain ⟨hnot, t, ht, htid, hpending⟩ := h.offered c hc hstage j hj
    have hne : j ≠ i := fun heq => hoffered c hc hstage (heq ▸ hj)
    exact ⟨hnot, t, (honly.other t (htid ▸ hne)).2 ht, htid, hpending⟩
  completable job hjob j hj t ht htid := by
    by_cases hne : j = i
    · subst hne
      exact hwork job hjob hj t ht htid
    · exact h.completable job hjob j hj t ((honly.other t (htid ▸ hne)).1 ht) htid
  succeeded := h.succeeded

omit [Fintype P] in
theorem forall_update {Q : P → Proc → Prop} {p : P} (hp : Q p q)
    (h : ∀ r, r ≠ p → Q r (s.procs r)) (r : P) : Q r (Function.update s.procs p q r) := by
  by_cases hr : r = p
  · subst hr
    rwa [update_self]
  · rw [update_of_ne hr]
    exact h r hr

theorem Stored.of_rows (h : Stored S s) {p : P} {q : Proc}
    (hprocs : s'.procs = Function.update s.procs p q) (hproc : ∀ r, ProcOk S s'.tasks s'.spilled r (s'.procs r))
    (hspilled : ∀ i ∈ s'.spilled, i ∈ s'.tasks.map TaskQueue.Task.id)
    (hrest : ∀ k, (q.unsettled p).count k ≤ ((s.procs p).unsettled p).count k)
    (hrows : ∀ i, (q.unsettled p).count (.row i) = ((s.procs p).unsettled p).count (.row i))
    (hhanded : s'.handed = s.handed)
    (hdone : ∀ i, .row i ∈ s.handedKeys → s.unsettled (.row i) = 0 → ∀ t ∈ s'.tasks, t.id = i →
      t ∈ s.tasks ∨ t.status = .done) : Stored S s' := by
  have hkeys : s'.handedKeys = s.handedKeys := by rw [St.handedKeys, St.handedKeys, hhanded]
  refine ⟨hproc, hspilled, fun k => ?_, fun i hi hzero t ht htid => ?_⟩
  · have hu := unsettled_update hprocs k
    have h₁ := hrest k
    have h₂ := h.unsettled k
    rw [hkeys]
    omega
  · have hu := unsettled_update hprocs (.row i)
    have h₁ := hrows i
    have hzero' : s.unsettled (.row i) = 0 := by omega
    rw [hkeys] at hi
    rcases hdone i hi hzero' t ht htid with hold | hdone
    · exact h.done i hi hzero' t hold htid
    · exact hdone

theorem Stored.of_proc (h : Stored S s) {p : P}
    (hprocs : s'.procs = Function.update s.procs p q) (hproc : ∀ r, ProcOk S s'.tasks s'.spilled r (s'.procs r))
    (hspilled : ∀ i ∈ s'.spilled, i ∈ s'.tasks.map TaskQueue.Task.id)
    (hrest : q.phase.rest = (s.procs p).phase.rest) (hhanded : s'.handed = s.handed)
    (hdone : ∀ i, .row i ∈ s.handedKeys → s.unsettled (.row i) = 0 → ∀ t ∈ s'.tasks, t.id = i →
      t ∈ s.tasks ∨ t.status = .done) : Stored S s' := by
  have heq : q.unsettled p = (s.procs p).unsettled p := by
    rw [Proc.unsettled, Proc.unsettled, hrest]
  exact h.of_rows hprocs hproc hspilled (fun k => heq ▸ le_rfl) (fun i => heq ▸ rfl) hhanded hdone

theorem Stored.of_quiet (h : Stored S s) {p : P} {q : Proc}
    (hq : ProcOk S s.tasks s.spilled p q) (hrest : q.phase.rest = (s.procs p).phase.rest) : Stored S (s.setProc p q) :=
  h.of_proc (p := p) (q := q) rfl (forall_update hq fun r _ => h.proc r) h.spilled hrest rfl fun _ _ _ _ ht _ => .inl ht

omit [DecidableEq P] [Fintype P] in
theorem ProcOk.of_subset {tasks : List Row} {spilled : List TaskId} {p : P} {q q' : Proc}
    (h : ProcOk S tasks spilled p q)
    (hcalls : ∀ c ∈ q'.calls, c ∈ q.calls ∨ c.stage ≠ .numbered ∧
      ∃ c₀ ∈ q.calls, c₀.job = c.job ∧ (c.stage ≠ .sent → c₀.stage ≠ .sent))
    (hwork : ∀ job ∈ q'.work, job ∈ q.work ∨ job ∈ q.calls.map Call.job ∧
      ∀ i, job.taskId = some i → ∀ t ∈ tasks, t.id = i → TaskQueue.Task.completable S.backend i t = true)
    (hsucceeded : ∀ source batch rest ok, q'.phase = .settling source batch rest ok → ok = true) :
    ProcOk S tasks spilled p q' where
  numbered c hc hstage := by
    rcases hcalls c hc with hold | ⟨hne, -⟩
    · exact h.numbered c hold hstage
    · exact absurd hstage hne
  durable job hjob := by
    refine h.durable job ?_
    rcases mem_append.1 hjob with hjob | hjob
    · obtain ⟨c, hc, rfl⟩ := mem_map.1 hjob
      rcases hcalls c hc with hold | ⟨-, c₀, hc₀, hsame, -⟩
      · exact mem_append_left _ (mem_map_of_mem hold)
      · exact hsame ▸ mem_append_left _ (mem_map_of_mem hc₀)
    · rcases hwork job hjob with hold | ⟨hcall, -⟩
      · exact mem_append_right _ hold
      · exact mem_append_left _ hcall
  offered c hc hstage := by
    rcases hcalls c hc with hold | ⟨-, c₀, hc₀, hsame, hstages⟩
    · exact h.offered c hold hstage
    · exact hsame ▸ h.offered c₀ hc₀ (hstages hstage)
  completable job hjob := by
    rcases hwork job hjob with hold | ⟨-, hrows⟩
    · exact h.completable job hold
    · exact hrows
  succeeded := hsucceeded

omit [DecidableEq P] [Fintype P] in
theorem ProcOk.of_phase {tasks : List Row} {p : P} {q q' : Proc}
    (h : ProcOk S tasks spilled p q) (hcalls : q'.calls = q.calls) (hwork : ∀ job ∈ q'.work, job ∈ q.work)
    (hsucceeded : ∀ source batch rest ok, q'.phase = .settling source batch rest ok → ok = true) :
    ProcOk S tasks spilled p q' :=
  h.of_subset (fun _ hc => .inl (hcalls ▸ hc)) (fun job hjob => .inl (hwork job hjob)) hsucceeded

omit [DecidableEq P] [Fintype P] in
theorem ProcOk.of_new {tasks : List Row} {spilled : List TaskId} {p : P} {q : Proc} {row : Row}
    (h : ProcOk S tasks spilled p q) (hwork : ∀ job ∈ q.work, job.taskId ≠ some row.id) :
    ProcOk S (tasks ++ [row]) spilled p q where
  numbered := h.numbered
  durable := h.durable
  offered c hc hstage j hj := by
    obtain ⟨hnot, t, ht, hrow⟩ := h.offered c hc hstage j hj
    exact ⟨hnot, t, mem_append_left _ ht, hrow⟩
  completable job hjob j hj t ht htid := by
    rcases mem_append.1 ht with ht | ht
    · exact h.completable job hjob j hj t ht htid
    · rw [mem_singleton.1 ht] at htid
      exact absurd (htid ▸ hj) (hwork job hjob)
  succeeded := h.succeeded

theorem Counted.mem_ids (h : Counted s) {i : TaskId} (hi : 0 < s.offers (.row i) + s.out (.row i)) :
    i ∈ s.tasks.map TaskQueue.Task.id :=
  h.known (.row i) hi

theorem out_pos_of_handed {k : Key P} (h : k ∈ s.handedKeys) : 0 < s.out k := by
  have := count_pos_iff.2 h
  rw [St.out]
  omega

theorem taskId_ne_of_offers {i : TaskId} (h : s.offers (.row i) = 0) (r : P) :
    ∀ c ∈ (s.procs r).calls, c.stage ≠ .sent → c.job.taskId ≠ some i := by
  intro c hc hstage hi
  have hpos := offers_pos hc hstage
  rw [key_of_taskId hi, h] at hpos
  omega

theorem Stored.store (h : Stored S s) (hc : Counted s) {p : P} {i : ℕ} {row : Row}
    (hcall : (s.procs p).calls[i]? = some ⟨job, .numbered⟩)
    (hid : row.id ∉ s.tasks.map TaskQueue.Task.id) (hpending : row.status = .pending) :
    Stored S { s.setProc p { s.procs p with
        calls := (s.procs p).calls.set i ⟨{ job with taskId := some row.id }, .ready⟩ } with
      tasks := s.tasks ++ [row] } := by
  have hnew : ∀ r, ∀ job ∈ (s.procs r).work, job.taskId ≠ some row.id := by
    intro r job' hjob hj
    have hpos := work_pos h hjob
    rw [key_of_taskId hj] at hpos
    exact hid (hc.mem_ids (Nat.add_pos_right _ hpos))
  have hgrown : ∀ r, ProcOk S (s.tasks ++ [row]) s.spilled r (s.procs r) := fun r =>
    (h.proc r).of_new (hnew r)
  have hmine : ProcOk S (s.tasks ++ [row]) s.spilled p { s.procs p with
      calls := (s.procs p).calls.set i ⟨{ job with taskId := some row.id }, .ready⟩ } := by
    refine ⟨fun c hmem hstage => ?_, fun job' hjob hj => ?_, fun c hmem hstage j hj => ?_,
      (hgrown p).completable, (hgrown p).succeeded⟩
    · rcases mem_or_eq_of_mem_set hmem with hmem | rfl
      · exact (hgrown p).numbered c hmem hstage
      · cases hstage
    · rcases mem_append.1 hjob with hjob | hjob
      · obtain ⟨c, hmem, rfl⟩ := mem_map.1 hjob
        rcases mem_or_eq_of_mem_set hmem with hmem | rfl
        · exact (h.proc p).durable _ (mem_append_left _ (mem_map_of_mem hmem)) hj
        · exact ((h.proc p).numbered _ (mem_of_getElem? hcall) rfl).2
      · exact (h.proc p).durable _ (mem_append_right _ hjob) hj
    · rcases mem_or_eq_of_mem_set hmem with hmem | rfl
      · exact (hgrown p).offered c hmem hstage j hj
      · cases hj
        exact ⟨fun hmem => hid (h.spilled _ hmem), row, mem_append_right _ mem_cons_self, rfl, hpending⟩
  refine h.of_proc (p := p) rfl (forall_update hmine fun r _ => hgrown r) (fun j hj => ?_) rfl rfl
    fun j hj _ t ht htid => .inl ?_
  · rw [map_append]
    exact mem_append_left _ (h.spilled j hj)
  · rcases mem_append.1 ht with ht | ht
    · exact ht
    · rw [mem_singleton.1 ht] at htid
      have hknown := hc.mem_ids (Nat.add_pos_right (s.offers (.row j)) (out_pos_of_handed hj))
      rw [← htid] at hknown
      exact absurd hknown hid

theorem Stored.erased (h : Stored S s) (p : P) (i : ℕ) :
    ProcOk S s.tasks s.spilled p { s.procs p with calls := (s.procs p).calls.eraseIdx i } :=
  (h.proc p).of_subset (fun _ hmem => .inl (mem_of_mem_eraseIdx hmem)) (fun _ hjob => .inl hjob) (h.proc p).succeeded

theorem Stored.spill (h : Stored S s) {p : P} {i : ℕ}
    (hcall : (s.procs p).calls[i]? = some ⟨job, .ready⟩) (hid : job.taskId = some id)
    (hs : s' = { s.setProc p { s.procs p with calls := (s.procs p).calls.eraseIdx i } with
      spilled := s.spilled ++ [id], accepted := s.accepted ++ [⟨p, job, true⟩] })
    (hc' : Counted s') : Stored S s' := by
  -- the job waits in the store, so that no call offers it any more
  have hone := hc'.accepted ⟨p, job, true⟩ (hs ▸ mem_append_right _ mem_cons_self)
  rw [key_of_taskId (p := p) hid] at hone
  have honce := hc'.once (.row id)
  have hfree := taskId_ne_of_offers (s := s') (i := id) (by omega)
  subst hs
  have hproc := forall_update (s := s) (h.erased p i) fun r _ => h.proc r
  obtain ⟨-, t, ht, htid, -⟩ := (h.proc p).offered _ (mem_of_getElem? hcall) nofun id hid
  refine h.of_proc (p := p) rfl (fun r => ?_) (fun j hj => ?_) rfl rfl fun _ _ _ _ ht _ => .inl ht
  · refine ⟨(hproc r).numbered, (hproc r).durable, fun c hmem hstage j hj => ?_,
      (hproc r).completable, (hproc r).succeeded⟩
    obtain ⟨hnot, hrow⟩ := (hproc r).offered c hmem hstage j hj
    refine ⟨fun hmem' => ?_, hrow⟩
    rcases mem_append.1 hmem' with hmem' | hmem'
    · exact hnot hmem'
    · rw [mem_singleton.1 hmem'] at hj
      exact hfree r c hmem hstage hj
  · rcases mem_append.1 hj with hj | hj
    · exact h.spilled j hj
    · rw [mem_singleton.1 hj, ← htid]
      exact mem_map_of_mem ht

theorem Stored.retire (h : Stored S s) (hc : Counted s) {p : P} {i : ℕ} {tasks : List Row}
    (hcall : (s.procs p).calls[i]? = some ⟨job, .closed⟩) (hid : job.taskId = some id)
    (htasks : OnlyRow id s.tasks tasks) :
    Stored S { s.setProc p { s.procs p with calls := (s.procs p).calls.eraseIdx i } with tasks := tasks } := by
  -- the call was the only place with the job
  have herase := count_eraseIdx (k := Key.row id) hcall (Call.offer p)
  rw [offer_closed, key_of_taskId hid, Option.toList_some, count_singleton_self] at herase
  have honce := hc.once (.row id)
  set q : Proc := { s.procs p with calls := (s.procs p).calls.eraseIdx i }
  have hoffers := offers_update (s := s) (show (s.setProc p q).procs = _ from rfl) (.row id)
  change _ + ((s.procs p).calls.filterMap _).count _ = _ + (((s.procs p).calls.eraseIdx i).filterMap _).count _ at hoffers
  have hfree := taskId_ne_of_offers (s := s.setProc p q) (i := id) (by omega)
  have hproc := forall_update (s := s)
    (Q := fun r q => ProcOk S s.tasks s.spilled r q ∧ ∀ job' ∈ q.work, job'.taskId ≠ some id)
    ⟨h.erased p i, fun job' => hc.taskId_ne h (mem_of_getElem? hcall) nofun hid⟩
    fun r _ => ⟨h.proc r, fun job' => hc.taskId_ne h (mem_of_getElem? hcall) nofun hid⟩
  refine h.of_proc (p := p) rfl (fun r => ?_) (fun j hj => ?_) rfl rfl fun j hj _ t ht htid => .inl ?_
  · exact (hproc r).1.of_onlyRow htasks (hfree r) fun job' hjob hj => absurd hj ((hproc r).2 job' hjob)
  · rw [htasks.mem_ids]
    exact h.spilled j hj
  · refine (htasks.other t fun heq => ?_).1 ht
    have hpos := out_pos_of_handed hj
    rw [← htid, heq] at hpos
    omega

theorem Stored.claim (h : Stored S s) (hc : Counted s) {p : P} {j : Job} {i : TaskId} {n : ℕ}
    {batch : List Job} {tasks : List Row} (hphase : (s.procs p).phase = .claiming batch)
    (hdurable : S.durable p = true) (hwaits : s.waits i = true) (hjob : j.taskId = some i)
    (htasks : OnlyRow i s.tasks tasks)
    (hclaimed : ∀ t ∈ tasks, t.id = i → TaskQueue.Task.completable S.backend i t = true) :
    Stored S { s.setProc p { s.procs p with seq := n, phase := .claiming (batch ++ [j]) } with
      tasks := tasks } := by
  have hmem : i ∈ s.spilled := by
    by_contra hnot
    rw [waits_of_notMem hnot] at hwaits
    cases hwaits
  have hold : ∀ r, ProcOk S tasks s.spilled r (s.procs r) := fun r =>
    (h.proc r).of_onlyRow htasks (fun c hmem' hstage hj => ((h.proc r).offered c hmem' hstage i hj).1 hmem)
      fun _ _ _ => hclaimed
  set q : Proc := { s.procs p with seq := n, phase := .claiming (batch ++ [j]) } with hq
  have hwork : ∀ job' ∈ q.work, job' ∈ (s.procs p).work ∨ job' = j := fun job' hjob' => by
    simpa [hq, Proc.work, hphase, Phase.batch, Phase.rest, or_assoc, or_comm, or_left_comm] using hjob'
  have hmine : ProcOk S tasks s.spilled p q := by
    refine ⟨(hold p).numbered, fun job' hjob' hj => ?_, (hold p).offered, fun job' hjob' j hj => ?_, nofun⟩
    · rcases mem_append.1 hjob' with hjob' | hjob'
      · exact (hold p).durable job' (mem_append_left _ hjob') hj
      · exact hdurable
    · rcases hwork job' hjob' with hjob' | rfl
      · exact (hold p).completable job' hjob' j hj
      · rw [hjob] at hj
        cases hj
        exact hclaimed
  refine h.of_proc (p := p) rfl (forall_update hmine fun r _ => hold r) (fun j hj => ?_) ?_ rfl
    fun j hj _ t ht htid => .inl ?_
  · rw [htasks.mem_ids]
    exact h.spilled j hj
  · rw [hphase]
    rfl
  · -- a row that waits has not been handed over
    refine (htasks.other t fun heq => ?_).1 ht
    have hpos := count_pos_iff.2 hj
    have honce := hc.once (.row i)
    rw [← htid, heq] at hpos
    rw [St.out, St.waiting, if_pos hwaits] at honce
    omega

theorem Stored.handle (h : Stored S s) {p : P} {source : Source} {b : List Job} {attempt : ℕ}
    (hphase : (s.procs p).phase = .handling source b attempt) :
    Stored S { s.setProc p { s.procs p with phase := .settling source b b true } with
      handed := s.handed ++ b.map fun job => (p, job) } := by
  set q : Proc := { s.procs p with phase := .settling source b b true } with hq
  have hmine : ProcOk S s.tasks s.spilled p q := by
    refine (h.proc p).of_phase rfl (fun job hjob => ?_) fun _ _ _ _ heq => (by cases heq; rfl)
    simpa [hq, Proc.work, hphase, Phase.batch, Phase.rest, or_comm] using hjob
  have hunsettled : ∀ k, (s.setProc p q).unsettled k = s.unsettled k + (b.map (Job.key p)).count k := fun k => by
    have hu := unsettled_update (s := s) (show (s.setProc p q).procs = _ from rfl) k
    rw [Proc.unsettled, Proc.unsettled, hphase] at hu
    exact hu
  have hkeys := @handedKeys_append _ s
    { s.setProc p q with handed := s.handed ++ b.map fun job => (p, job) } p b rfl
  refine ⟨forall_update hmine fun r _ => h.proc r, h.spilled, fun k => ?_, fun j hj hzero t ht htid => ?_⟩
  · rw [hkeys, count_append]
    exact (hunsettled k).trans_le (Nat.add_le_add_right (h.unsettled k) _)
  · have hzero := (hunsettled (.row j)).symm.trans hzero
    rw [hkeys, mem_append] at hj
    rcases hj with hj | hj
    · exact h.done j hj (by omega) t ht htid
    · have hpos := count_pos_iff.2 hj
      omega

theorem Stored.settle (h : Stored S s) (hc : Counted s) {p : P} {source : Source} {batch rest : List Job}
    {tasks : List Row} (hphase : (s.procs p).phase = .settling source batch (job :: rest) true)
    (hid : job.taskId = some id) (htasks : OnlyRow id s.tasks tasks)
    (hdone : ∀ t ∈ tasks, t.id = id → t.status = .done) :
    Stored S { s.setProc p { s.procs p with phase := .settling source batch rest true } with
      tasks := tasks } := by
  set q : Proc := { s.procs p with phase := .settling source batch rest true } with hq
  have hunsettled : ∀ k, (s.setProc p q).unsettled k + [job.key p].count k = s.unsettled k := fun k => by
    have hu := unsettled_update (s := s) (show (s.setProc p q).procs = _ from rfl) k
    have hcons : ((s.procs p).unsettled p).count k = (q.unsettled p).count k + [job.key p].count k := by
      rw [Proc.unsettled, Proc.unsettled, hphase]
      exact count_cons.trans (congrArg _ count_singleton.symm)
    omega
  have hwork : ∀ job' ∈ q.work, job' ∈ (s.procs p).work := fun job' hjob => by
    rw [Proc.work, mem_append] at hjob
    rw [Proc.work, hphase, mem_append]
    exact hjob.imp_right (mem_cons_of_mem _)
  -- nobody else has the job
  have honce := hc.once (.row id)
  have hall := h.unsettled (.row id)
  have hmine := hunsettled (.row id)
  rw [key_of_taskId hid, count_singleton_self] at hmine
  rw [St.out] at honce
  have hfree : ∀ r, ∀ c ∈ (s.procs r).calls, c.stage ≠ .sent → c.job.taskId ≠ some id :=
    taskId_ne_of_offers (by omega)
  have hothers : ∀ r, ∀ job' ∈ ((s.setProc p q).procs r).work, job'.taskId ≠ some id := by
    intro r job' hjob hj
    rcases mem_append.1 hjob with hheld | hrest'
    · have hmem : Key.row id ∈ ((s.setProc p q).procs r).held r := key_of_taskId (p := r) hj ▸ mem_map_of_mem hheld
      have hsame := forall_update (s := s) (p := p) (q := q) (Q := fun r q => q.held r = (s.procs r).held r)
        (by rw [Proc.held, Proc.held, hphase]; rfl) (fun _ _ => rfl) r
      have hpos := count_pos_iff.2 (hsame ▸ hmem)
      have hle := le_sum (fun r => ((s.procs r).held r).count (.row id)) r
      omega
    · have hmem : Key.row id ∈ ((s.setProc p q).procs r).unsettled r :=
        key_of_taskId (p := r) hj ▸ mem_map_of_mem hrest'
      have hpos := count_pos_iff.2 hmem
      have hle := le_sum (fun r => (((s.setProc p q).procs r).unsettled r).count (.row id)) r
      rw [St.unsettled] at hmine
      omega
  have hproc := forall_update (s := s) (p := p) (q := q)
    (Q := fun r q => ProcOk S s.tasks s.spilled r q ∧ ∀ c ∈ q.calls, c.stage ≠ .sent → c.job.taskId ≠ some id)
    ⟨(h.proc p).of_phase rfl hwork fun _ _ _ _ heq => (by cases heq; rfl), hfree p⟩ fun r _ => ⟨h.proc r, hfree r⟩
  refine ⟨fun r => ?_, fun j hj => ?_, fun k => ?_, fun j hj hzero t ht htid => ?_⟩
  · exact (hproc r).1.of_onlyRow htasks (hproc r).2 fun job' hjob hj => absurd hj (hothers r job' hjob)
  · rw [htasks.mem_ids]
    exact h.spilled j hj
  · exact (Nat.le_add_right _ _).trans ((hunsettled k).trans_le (h.unsettled k))
  · by_cases hji : j = id
    · exact hdone t ht (htid.trans hji)
    · have hne : Key.row id ≠ (Key.row j : Key P) := fun heq => hji (Key.row.inj heq).symm
      have heq := hunsettled (.row j)
      rw [key_of_taskId hid, count_singleton, if_neg (by simpa using hne)] at heq
      refine h.done j hj (heq.symm.trans hzero) t ((htasks.other t ?_).1 ht) htid
      exact fun heq => hji (htid.symm.trans heq)

/-! ### Workers that poll -/

def Phase.ofStore : Phase → Bool
  | .claiming _ | .handling .store _ _ | .settling .store _ _ _ => true
  | _ => false

def Looped (S : Setup P) (s : St P) : Prop := ∀ p, (s.procs p).phase.ofStore = true → S.durable p = true

omit [Fintype P] in
theorem Looped.of_proc (h : Looped S s) {p : P}
    (hprocs : s'.procs = Function.update s.procs p q)
    (hq : q.phase.ofStore = true → (s.procs p).phase.ofStore = true ∨ S.durable p = true) : Looped S s' := by
  intro r
  rw [hprocs]
  exact forall_update (Q := fun r q => q.phase.ofStore = true → S.durable r = true)
    (fun hphase => (hq hphase).elim (h p) fun hd => hd) (fun r _ => h r) r

omit [Fintype P] in
theorem Looped.step (h : Looped S s) (hmove : Moved S s a s') : Looped S s' := by
  cases hmove with
  | submit p | store | refused | sent | spilled | full | mark | retire =>
    exact h.of_proc rfl .inl
  | @recv p job rest phase hchannel hphase =>
    obtain ⟨batch, rfl⟩ | ⟨batch, rfl⟩ := receive_phase hphase
    · exact h.of_proc rfl nofun
    · exact h.of_proc rfl nofun
  | @close p source batch hopen =>
    refine h.of_proc rfl fun hstore => .inl ?_
    have hsource : source = .store := by
      cases source with
      | store => rfl
      | channel | drain => cases batch <;> cases hstore
    subst hsource
    cases hq : (s.procs p).phase with
    | claiming b => rfl
    | collecting b | draining b | idle | handling _ _ _ | settling _ _ _ _ | leaving
    | stopped => rw [hq] at hopen; cases hopen
  | poll hphase hchannel hdurable => exact h.of_proc rfl fun _ => .inr hdurable
  | claim hphase => exact h.of_proc rfl fun _ => .inl (by rw [hphase]; rfl)
  | @handle p source batch attempt ok hphase =>
    refine h.of_proc rfl fun hstore => .inl ?_
    rw [hphase]
    simp only [afterHandle] at hstore
    cases source with
    | store => rfl
    | channel | drain => split_ifs at hstore <;> cases hstore
  | @settle p source batch rest job ok now hphase | @finish p source batch ok hphase =>
    refine h.of_proc rfl fun hstore => .inl ?_
    rw [hphase]
    cases source with
    | store => rfl
    | channel => cases hstore
    | drain => cases hstore
  | shutdown | leave => exact h.of_proc rfl nofun

theorem Stored.step (h : Stored S s) (hc : Counted s) (hc' : Counted s') (hl : Looped S s)
    (hok : OneWay S s a) (hmove : Moved S s a s') : Stored S s' := by
  cases hmove with
  | submit p partition payload durable =>
    refine h.of_quiet (p := p) ⟨fun c hmem hstage => ?_, fun job hjob => ?_, fun c hmem hstage => ?_,
      (h.proc p).completable, (h.proc p).succeeded⟩ rfl
    · rcases mem_append.1 hmem with hmem | hmem
      · exact (h.proc p).numbered c hmem hstage
      · rw [mem_singleton.1 hmem] at hstage ⊢
        refine ⟨rfl, ?_⟩
        cases hdurable : S.durable p with
        | true => rfl
        | false => simp [hdurable] at hstage
    · intro hid
      refine (h.proc p).durable job ?_ hid
      rw [map_append] at hjob
      rcases mem_append.1 hjob with hjob | hjob
      · rcases mem_append.1 hjob with hjob | hjob
        · exact mem_append_left _ hjob
        · rw [mem_singleton.1 hjob] at hid
          exact absurd rfl hid
      · exact mem_append_right _ hjob
    · intro j hj
      rcases mem_append.1 hmem with hmem | hmem
      · exact (h.proc p).offered c hmem hstage j hj
      · rw [mem_singleton.1 hmem] at hj
        cases hj
  | @store p i job id now hcall hid =>
    rw [submitTask_of_new hid]
    exact h.store hc hcall hid rfl
  | @refused p i job hcall hphase =>
    refine h.of_quiet (p := p) ((h.proc p).of_subset (fun c hmem => ?_) (fun _ hjob => .inl hjob)
      (h.proc p).succeeded) rfl
    refine (mem_or_eq_of_mem_set hmem).imp_right fun heq => ?_
    subst heq
    exact ⟨fun heq => (by cases heq), _, mem_of_getElem? hcall, rfl, fun _ heq => by cases heq⟩
  | @sent p i job hcall hphase hcap =>
    refine h.of_quiet (p := p) ((h.proc p).of_subset (fun c hmem => ?_) (fun job' hjob => ?_) (h.proc p).succeeded) rfl
    · refine (mem_or_eq_of_mem_set hmem).imp_right fun heq => ?_
      subst heq
      exact ⟨fun heq => (by cases heq), _, mem_of_getElem? hcall, rfl, fun hne => absurd rfl hne⟩
    · rw [Proc.work, ← append_assoc, mem_append, mem_append, mem_singleton] at hjob
      rcases hjob with (hjob | rfl) | hjob
      · exact .inl (mem_append_left _ hjob)
      · refine .inr ⟨mem_map_of_mem (mem_of_getElem? hcall), fun j hj t ht htid => ?_⟩
        have hsqlite : S.backend = .sqlite := hok job' hcall (by simp [hj]) hcap
        rw [hsqlite]
        exact decide_eq_true htid
      · exact .inl (mem_append_right _ hjob)
  | @spilled p i job id hcall hfull hid =>
    exact h.spill hcall hid rfl hc'
  | @full p i job hcall hid =>
    exact h.of_quiet (h.erased p i) rfl
  | @mark p i job hcall =>
    have hq : ProcOk S s.tasks s.spilled p { s.procs p with
        submitted := raise (s.procs p).submitted job
        calls := (s.procs p).calls.eraseIdx i } := (h.erased p i).of_phase rfl (fun _ => id) (h.proc p).succeeded
    exact h.of_proc (p := p) rfl (forall_update hq fun r _ => h.proc r) h.spilled rfl rfl fun _ _ _ _ ht _ => .inl ht
  | @retire p i job now hcall =>
    cases hid : job.taskId with
    | none =>
      have htasks : retired S job now s.tasks = s.tasks := by rw [retired, hid]
      rw [htasks]
      exact h.of_quiet (h.erased p i) rfl
    | some id =>
      refine h.retire hc hcall hid ?_
      rw [retired, hid]
      exact .complete _ _
  | @recv p job rest phase hchannel hphase =>
    obtain ⟨hbatch, hrest, hrest'⟩ := receive_batch hphase
    refine h.of_quiet (p := p) ((h.proc p).of_phase rfl (fun job' hjob => ?_) ?_) ?_
    · simpa [Proc.work, hbatch, hrest, hrest', hchannel] using hjob
    · intro source batch rest' ok hsettling
      obtain rfl : phase = _ := hsettling
      obtain ⟨b, heq⟩ | ⟨b, heq⟩ := receive_phase hphase <;> cases heq
    · exact hrest'.trans hrest.symm
  | @close p source batch hopen =>
    obtain ⟨hbatch, hrest⟩ := open_batch hopen
    obtain ⟨hbatch', hrest'⟩ := closed_batch source batch
    refine h.of_quiet (p := p) ((h.proc p).of_phase rfl (fun job' hjob => ?_) ?_) (hrest'.trans hrest.symm)
    · rw [Proc.work, hbatch', hrest'] at hjob
      rwa [Proc.work, hbatch, hrest]
    · intro source' batch' rest' ok hsettling
      cases batch <;> cases source <;> cases hsettling
  | @poll p hphase hchannel hdurable | @shutdown p hphase =>
    refine h.of_quiet (p := p) ((h.proc p).of_phase rfl (fun job' hjob => ?_) fun _ _ _ _ heq => by cases heq) ?_
    · simpa [Proc.work, hphase, Phase.batch, Phase.rest] using hjob
    · rw [hphase]
      rfl
  | @claim p batch task now locked hphase htask hpicks =>
    obtain ⟨hspilled, hpending⟩ := hok
    have hany : (s.tasks.any fun t => t.id = task.id && t.status = .pending) = true :=
      any_eq_true.2 ⟨task, htask, by simp [hpending task htask rfl]⟩
    refine h.claim hc (i := task.id) hphase ?_ ?_ rfl (.claim _ _ _ _) fun t ht htid => ?_
    · exact hl p (by rw [hphase]; rfl)
    · rw [St.waits, hany]
      simpa using hspilled
    · exact completable_of_claimed ht htid
  | @handle p source batch attempt ok hphase =>
    obtain rfl : ok = true := hok
    have hafter : afterHandle S.cfg.maxRetries source batch attempt true =
        .settling source batch batch true := if_pos rfl
    rw [hafter]
    exact h.handle hphase
  | @settle p source batch rest job ok now hphase =>
    obtain rfl := (h.proc p).succeeded _ _ _ _ hphase
    have hwork : job ∈ (s.procs p).work := by
      rw [Proc.work, hphase]
      exact mem_append_right _ mem_cons_self
    cases hid : job.taskId with
    | none =>
      -- a job without a row
      have htasks : settled S p job true now s.tasks = s.tasks := by
        cases hdurable : S.durable p <;> rw [settled, hdurable, hid]
      rw [htasks]
      have hcons : ∀ k, ((s.procs p).unsettled p).count k =
          (rest.map (Job.key p)).count k + [Key.mem p job.seq].count k := fun k => by
        rw [Proc.unsettled, hphase, ← key_of_none hid]
        exact (count_cons).trans (congrArg _ count_singleton.symm)
      have hq : ProcOk S s.tasks s.spilled p { s.procs p with
          phase := .settling source batch rest true } := by
        refine (h.proc p).of_phase rfl (fun job' hjob => ?_) fun _ _ _ _ heq => (by cases heq; rfl)
        rw [Proc.work, mem_append] at hjob
        rw [Proc.work, hphase, mem_append]
        exact hjob.imp_right (mem_cons_of_mem _)
      refine h.of_rows (p := p) rfl (forall_update hq fun r _ => h.proc r) h.spilled (fun k => ?_)
        (fun j => ?_) rfl fun _ _ _ _ ht _ => .inl ht
      · rw [hcons]
        exact Nat.le_add_right _ _
      · rw [hcons, count_singleton, if_neg (by simp), Nat.add_zero]
        rfl
    | some id =>
      have hdurable := (h.proc p).durable job (mem_append_right _ hwork) (by simp [hid])
      have htasks : settled S p job true now s.tasks = completeTask S.backend id now s.tasks := by
        rw [settled, hdurable, hid]
        rfl
      rw [htasks]
      exact h.settle hc hphase hid (.complete _ _) fun t ht htid =>
        status_complete ht htid ((h.proc p).completable job hwork id hid)
  | @finish p source batch ok hphase =>
    refine h.of_quiet (p := p) ((h.proc p).of_phase rfl (fun job' hjob => ?_) ?_) ?_
    · rw [Proc.work, (next_batch source).1, (next_batch source).2] at hjob
      rwa [Proc.work, hphase]
    · intro source' batch' rest' ok' hsettling
      cases source <;> cases hsettling
    · rw [hphase, (next_batch source).2]
      rfl
  | @leave p hphase =>
    refine h.of_quiet (p := p) ((h.proc p).of_phase rfl (fun job' hjob => ?_) fun _ _ _ _ heq => by cases heq) ?_
    · simp [Proc.work, Phase.batch, Phase.rest] at hjob
    · rw [hphase]
      rfl

/-! ### Every run -/

structure Inv (S : Setup P) (s : St P) : Prop where
  counted : Counted s
  stored : Stored S s
  looped : Looped S s

theorem Inv.step (h : Inv S s) (hok : OneWay S s a) (hmove : Moved S s a s') : Inv S s' :=
  have hcounted := h.counted.step h.stored hok hmove
  ⟨hcounted, h.stored.step h.counted hcounted h.looped hok hmove, h.looped.step hmove⟩

omit [DecidableEq P] [Fintype P] in
theorem Start.phase (h : Start S s) (p : P) : (s.procs p).phase.batch = [] ∧ (s.procs p).phase.rest = [] := by
  rw [h.procs, Proc.start]
  split <;> exact ⟨rfl, rfl⟩

omit [DecidableEq P] [Fintype P] in
theorem Start.work (h : Start S s) (p : P) : (s.procs p).work = [] := by
  rw [Proc.work, (h.phase p).1, (h.phase p).2, h.procs]
  rfl

theorem Start.inv (h : Start S s) : Inv S s := by
  have hcalls : ∀ p, (s.procs p).calls = [] := fun p => by rw [h.procs]; rfl
  have hkeys : s.handedKeys = [] := by rw [St.handedKeys, h.handed]; rfl
  have hoffers : ∀ k, s.offers k = 0 := fun k => by
    rw [St.offers, Finset.sum_eq_zero]
    intro p _
    rw [Proc.offered, hcalls]
    rfl
  have hout : ∀ k, s.out k = s.waiting k := fun k => by
    rw [St.out, hkeys, Finset.sum_eq_zero, count_nil, Nat.zero_add, Nat.add_zero]
    intro p _
    rw [Proc.held, (h.phase p).1, h.procs]
    rfl
  have hunsettled : ∀ k, s.unsettled k = 0 := fun k => by
    rw [St.unsettled, Finset.sum_eq_zero]
    intro p _
    rw [Proc.unsettled, (h.phase p).2]
    rfl
  refine ⟨⟨fun k => ?_, fun p c hc => ?_, fun a ha => ?_, fun k hk => ?_⟩,
    ⟨fun p => ⟨fun c hc => ?_, fun job hjob => ?_, fun c hc => ?_, fun job hjob => ?_,
      fun source batch rest ok hphase => ?_⟩, fun i hi => h.spilled ▸ hi, fun k => ?_,
      fun i hi => ?_⟩, fun p hstore => ?_⟩
  · rw [hoffers, hout, Nat.zero_add]
    cases k with
    | mem p n => exact Nat.zero_le 1
    | row i =>
      rw [St.waiting]
      split <;> omega
  · rw [hcalls] at hc
    cases hc
  · rw [h.accepted] at ha
    cases ha
  · rw [hoffers, hout, Nat.zero_add] at hk
    cases k with
    | mem p n => cases hk
    | row i =>
      by_contra hnot
      rw [St.waiting, waits_of_notMem (h.spilled ▸ hnot)] at hk
      cases hk
  · rw [hcalls] at hc
    cases hc
  · rw [hcalls, h.work] at hjob
    cases hjob
  · rw [hcalls] at hc
    cases hc
  · rw [h.work] at hjob
    cases hjob
  · rw [h.procs, Proc.start] at hphase
    split at hphase <;> cases hphase
  · rw [hunsettled]
    exact Nat.zero_le _
  · rw [hkeys] at hi
    cases hi
  · rw [h.procs, Proc.start] at hstore
    split at hstore
    · assumption
    · cases hstore

theorem AtRest.out_eq (h : AtRest s) (k : Key P) : s.out k = s.handedKeys.count k := by
  have hheld : ∀ p, (s.procs p).held p = [] := fun p => by
    rw [Proc.held, h.channel]
    rcases h.phase p with hphase | hphase <;> rw [hphase] <;> rfl
  have hwaiting : s.waiting k = 0 := by
    cases k with
    | mem p n => rfl
    | row i => rw [St.waiting, h.rows]; rfl
  rw [St.out, hwaiting, Finset.sum_eq_zero fun p _ => by rw [hheld, count_nil], Nat.zero_add]

theorem AtRest.unsettled_eq (h : AtRest s) (k : Key P) : s.unsettled k = 0 := by
  rw [St.unsettled, Finset.sum_eq_zero]
  intro p _
  rw [Proc.unsettled]
  rcases h.phase p with hphase | hphase <;> rw [hphase] <;> rfl

/-- **Exactly once.**  In every run whose steps meet the condition a job that `submit` has accepted is
handed to a handler at most once, be it from the channel or from its row; and once nothing is under way
it has been handed over, and its row is done. -/
theorem handed_once {s₀ : St P} (hstart : Start S s₀)
    (hreach : Runs.Reach (step S) (OneWay S) s₀ s) : (∀ a ∈ s.accepted, s.handedKeys.count (a.job.key a.proc) ≤ 1) ∧
      (AtRest s → ∀ a ∈ s.accepted, s.handedKeys.count (a.job.key a.proc) = 1 ∧
        ∀ i, a.job.taskId = some i → i ∈ s.tasks.map TaskQueue.Task.id ∧
          ∀ t ∈ s.tasks, t.id = i → t.status = .done) := by
  have hinv : Inv S s := hreach.inv hstart.inv fun _ _ _ hi hok hstep =>
    hi.step hok (moved_of_step hstep)
  refine ⟨fun a ha => ?_, fun hrest a ha => ?_⟩
  · have hone := hinv.counted.accepted a ha
    rw [St.out] at hone
    omega
  · have hone := hinv.counted.accepted a ha
    rw [hrest.out_eq] at hone
    refine ⟨hone, fun i hi => ?_⟩
    rw [key_of_taskId hi] at hone
    have hmem : Key.row i ∈ s.handedKeys := count_pos_iff.1 (by omega)
    exact ⟨hinv.counted.mem_ids (Nat.add_pos_right _ (out_pos_of_handed hmem)),
      hinv.stored.done i hmem (hrest.unsettled_eq _)⟩

end Carriers

def Undisturbed (s : St P) : Action P → Prop
  | .handle _ ok => ok = true
  | .leave p => (s.procs p).channel = []
  | _ => True

instance (s : St P) (a : Action P) : Decidable (Undisturbed s a) :=
  match a with
  | .handle _ ok => inferInstanceAs (Decidable (ok = true))
  | .leave p => decidable_of_iff ((s.procs p).channel.isEmpty = true) List.isEmpty_iff
  | .submit .. | .store .. | .send .. | .mark .. | .retire .. | .recv _ | .close _ | .poll _ | .claim .. | .settle .. |
    .finish _ | .shutdown _ => isTrue trivial

def lone (b : Backend) : Setup Unit where
  backend := b
  cfg := ⟨"index", 4, 2, 0⟩
  durable _ := true
  node _ := 1

def nothingYet : St Unit := ⟨[], fun _ => Proc.start true, [], [], []⟩

theorem start_nothingYet (b : Backend) : Start (lone b) nothingYet := ⟨fun _ => rfl, rfl, rfl, rfl⟩

/-- A job that comes through the channel alone. -/
theorem handed_once_channel : ∃ s, Runs.Reach (step (lone .sqlite)) (OneWay (lone .sqlite)) nothingYet s ∧ AtRest s ∧
    ∃ a ∈ s.accepted, s.handedKeys.count (a.job.key a.proc) = 1 ∧
      ∀ i, a.job.taskId = some i → i ∈ s.tasks.map TaskQueue.Task.id ∧ ∀ t ∈ s.tasks, t.id = i → t.status = .done := by
  have h₁ := (Runs.Reach.init : Runs.Reach (step (lone .sqlite)) (OneWay (lone .sqlite)) nothingYet nothingYet).step (Action.close ()) trivial rfl
  have h₂ := h₁.step (Action.submit () "docs" .null true) trivial rfl
  have h₃ := h₂.step (Action.store () 0 7 100) trivial rfl
  have h₄ := h₃.step (Action.send () 0) (fun _ _ _ _ => rfl) rfl
  have h₅ := h₄.step (Action.mark () 0) trivial rfl
  have h₆ := h₅.step (Action.recv ()) trivial rfl
  have h₇ := h₆.step (Action.close ()) trivial rfl
  have h₈ := h₇.step (Action.handle () true) rfl rfl
  have h₉ := h₈.step (Action.settle () 102) trivial rfl
  have h := h₉.step (Action.finish ()) trivial rfl
  refine ⟨_, h, ⟨fun _ => rfl, fun _ => rfl, fun _ => .inl rfl, fun _ => rfl⟩, _,
    mem_cons_self, (handed_once (start_nothingYet _) h).2 ?_ _ mem_cons_self⟩
  exact ⟨fun _ => rfl, fun _ => rfl, fun _ => .inl rfl, fun _ => rfl⟩

/-- **A row is claimed before its job is offered to the channel, and over Postgres also after the job
has been handed over.**  No handler fails and no worker stops, and the job is handed over twice. -/
theorem handed_twice : (∃ s, Runs.Reach (step (lone .sqlite)) Undisturbed nothingYet s ∧ AtRest s ∧
      ∃ a ∈ s.accepted, s.handedKeys.count (a.job.key a.proc) = 2) ∧
    ∃ s, Runs.Reach (step (lone .postgres)) Undisturbed nothingYet s ∧ AtRest s ∧
      ∃ a ∈ s.accepted, s.handedKeys.count (a.job.key a.proc) = 2 := by
  constructor
  · have h := (Runs.Reach.init : Runs.Reach (step (lone .sqlite)) Undisturbed nothingYet nothingYet).run
      [.submit () "docs" .null true, .store () 0 7 100, .claim () 101 [] 7, .send () 0, .mark () 0,
       .close (), .handle () true, .settle () 102, .finish (), .close (), .recv (), .close (),
       .handle () true, .settle () 103, .finish ()] rfl
    exact ⟨_, h, ⟨fun _ => rfl, fun _ => rfl, fun _ => .inl rfl, fun _ => rfl⟩, _, mem_cons_self, rfl⟩
  · -- the row of a job that came through the channel stays pending
    have h := (Runs.Reach.init : Runs.Reach (step (lone .postgres)) Undisturbed nothingYet nothingYet).run
      [.close (), .submit () "docs" .null true, .store () 0 7 100, .send () 0, .mark () 0, .recv (),
       .close (), .handle () true, .settle () 102, .finish (), .poll (), .claim () 103 [] 7,
       .close (), .handle () true, .settle () 104, .finish (), .close ()] rfl
    exact ⟨_, h, ⟨fun _ => rfl, fun _ => rfl, fun _ => .inl rfl, fun _ => rfl⟩, _, mem_cons_self, rfl⟩

end DurableQueue
