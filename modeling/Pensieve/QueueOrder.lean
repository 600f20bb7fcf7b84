/-
**The order in which the jobs of a partition are handed over.**

The jobs of a process go to its worker by two ways, the channel and the store, and the worker
empties the channel before it looks into the store.
-/

import Pensieve.Precedence
import Pensieve.QueueBarrier

namespace DurableQueue

open Function
open List
open Catalog (Backend)
open Precedence (Ahead ahead_append)
open TaskQueue (TaskId NodeId Timestamp submitTask claimTask completeTask failTask picks)

variable {P : Type} [DecidableEq P]

/-! ### The condition -/

def partitionOf (t : Row) : String := (openEnvelope t.payload).1

/-- **The condition on the steps**, for the jobs of one partition that one process submits.  A row is
written later than all others.  No job is put into the channel while another that was left to the store
waits there, or is in the batch of another worker.  A row is claimed only while no job waits in the
channel or is in the batch of another worker, and no row is locked.  The worker leaves no job behind. -/
def FirstCome (S : Setup P) (p : P) (part : String) (s : St P) : Action P → Prop
  | .store r i _ now => r = p → ∀ job, (s.procs p).calls[i]? = some ⟨job, .numbered⟩ →
      job.partition = part → ∀ t ∈ s.tasks, t.createdAt < now
  | .send r i => r = p → ∀ job, (s.procs p).calls[i]? = some ⟨job, .ready⟩ → job.partition = part →
      (s.procs p).channel.length < S.cfg.channelCap →
        (∀ a ∈ s.accepted, a.proc = p → a.spilled = true → a.job.partition = part →
          ∀ id, a.job.taskId = some id → ∀ t ∈ s.tasks, t.id = id → t.status ≠ .pending) ∧
        ∀ r', r' ≠ p → ∀ j ∈ (s.procs r').phase.batch, j.partition ≠ part
  | .claim r _ locked id => ∀ t ∈ s.tasks, t.id = id → partitionOf t = part →
      (S.backend = .sqlite ∨ locked = []) ∧ (∀ j ∈ (s.procs p).channel, j.partition ≠ part) ∧
        ∀ r', r' ≠ r → ∀ j ∈ (s.procs r').phase.batch, j.partition ≠ part
  | .leave r => r = p → ∀ j ∈ (s.procs p).channel, j.partition ≠ part
  | _ => True

section Moves

variable {S : Setup P} {s s' : St P} {a : Action P}

theorem of_update {p r : P} {q : Proc} {Q : Proc → Prop} (h : Q (Function.update s.procs p q r)) :
    r = p ∧ Q q ∨ Q (s.procs r) := by
  by_cases hr : r = p
  · subst hr
    rw [update_self] at h
    exact .inl ⟨rfl, h⟩
  · rw [update_of_ne hr] at h
    exact .inr h

theorem Moved.calls (h : Moved S s a s') (r : P) {c : Call} (hc : c ∈ (s'.procs r).calls) :
    c ∈ (s.procs r).calls ∨ (∃ partition payload durable, a = .submit r partition payload durable ∧ c.job =
      ⟨(s.procs r).seq + 1, partition, payload, durable, none⟩ ∧ c.stage ≠ .sent) ∨
    (∃ i id now job, a = .store r i id now ∧ (s.procs r).calls[i]? = some ⟨job, .numbered⟩ ∧
      c = ⟨{ job with taskId := some id }, .ready⟩) ∨
    ∃ i job, a = .send r i ∧ (s.procs r).calls[i]? = some ⟨job, .ready⟩ ∧
      (c = ⟨job, .closed⟩ ∨ c = ⟨job, .sent⟩ ∧ job ∈ (s'.procs r).channel) := by
  have hkeep : ∀ {p : P} {q : Proc}, c ∈ (Function.update s.procs p q r).calls →
      (∀ c ∈ q.calls, c ∈ (s.procs p).calls) → c ∈ (s.procs r).calls := by
    intro p q hmem hq
    rcases of_update (Q := fun q => c ∈ q.calls) hmem with ⟨rfl, hnew⟩ | hold
    · exact hq c hnew
    · exact hold
  cases h with
  | submit p partition payload durable =>
    rcases of_update (Q := fun q => c ∈ q.calls) hc with ⟨rfl, hnew⟩ | hc
    · rcases mem_append.1 hnew with hc | hc
      · exact .inl hc
      · rw [mem_singleton.1 hc]
        refine .inr (.inl ⟨partition, payload, durable, rfl, rfl, ?_⟩)
        simp only
        split <;> exact nofun
    · exact .inl hc
  | @store p i job id now hcall hid =>
    rcases of_update (Q := fun q => c ∈ q.calls) hc with ⟨rfl, hnew⟩ | hc
    · rcases mem_or_eq_of_mem_set hnew with hc | rfl
      · exact .inl hc
      · exact .inr (.inr (.inl ⟨i, id, now, job, rfl, hcall, rfl⟩))
    · exact .inl hc
  | @refused p i job hcall hphase =>
    rcases of_update (Q := fun q => c ∈ q.calls) hc with ⟨rfl, hnew⟩ | hc
    · rcases mem_or_eq_of_mem_set hnew with hc | rfl
      · exact .inl hc
      · exact .inr (.inr (.inr ⟨i, job, rfl, hcall, .inl rfl⟩))
    · exact .inl hc
  | @sent p i job hcall hphase hcap =>
    rcases of_update (Q := fun q => c ∈ q.calls) hc with ⟨rfl, hnew⟩ | hc
    · rcases mem_or_eq_of_mem_set hnew with hc | rfl
      · exact .inl hc
      · refine .inr (.inr (.inr ⟨i, job, rfl, hcall, .inr ⟨rfl, ?_⟩⟩))
        simp [St.setProc]
    · exact .inl hc
  | spilled | full | mark | retire =>
    exact .inl (hkeep hc fun _ hmem => mem_of_mem_eraseIdx hmem)
  | recv | close | poll | claim | handle | settle | finish | shutdown | leave =>
    exact .inl (hkeep hc fun _ hmem => hmem)

theorem Moved.work (h : Moved S s a s') (r : P) {j : Job} (hj : j ∈ (s'.procs r).work) :
    j ∈ (s.procs r).work ∨ (∃ i, a = .send r i ∧ (s.procs r).calls[i]? = some ⟨j, .ready⟩ ∧
      (s.procs r).channel.length < S.cfg.channelCap) ∨
    ∃ task now locked, a = .claim r now locked task.id ∧ task ∈ s.tasks ∧
      j = jobFromTask ((s.procs r).seq + 1) task := by
  have hkeep : ∀ {p : P} {q : Proc}, j ∈ (Function.update s.procs p q r).work →
      (∀ j ∈ q.work, j ∈ (s.procs p).work) → j ∈ (s.procs r).work := by
    intro p q hmem hq
    rcases of_update (Q := fun q => j ∈ q.work) hmem with ⟨rfl, hnew⟩ | hold
    · exact hq j hnew
    · exact hold
  cases h with
  | submit | store | refused | spilled | full | mark | retire => exact .inl (hkeep hj fun _ hi => hi)
  | @sent p i job hcall hphase hcap =>
    rcases of_update (Q := fun q => j ∈ q.work) hj with ⟨rfl, hnew⟩ | hj
    · rw [Proc.work, ← append_assoc, mem_append, mem_append, mem_singleton] at hnew
      rcases hnew with (hj | rfl) | hj
      · exact .inl (mem_append_left _ hj)
      · exact .inr (.inl ⟨i, rfl, hcall, hcap⟩)
      · exact .inl (mem_append_right _ hj)
    · exact .inl hj
  | @recv p job rest phase hchannel hphase =>
    obtain ⟨hbatch, hrest, hrest'⟩ := receive_batch hphase
    refine .inl (hkeep hj fun i hi => ?_)
    simpa [Proc.work, hbatch, hrest, hrest', hchannel] using hi
  | @close p source batch hopen =>
    obtain ⟨hbatch, hrest⟩ := open_batch hopen
    refine .inl (hkeep hj fun i hi => ?_)
    rw [Proc.work, (closed_batch source batch).1, (closed_batch source batch).2] at hi
    rwa [Proc.work, hbatch, hrest]
  | @poll p hphase hchannel hdurable | @shutdown p hphase =>
    refine .inl (hkeep hj fun i hi => ?_)
    rwa [Proc.work, hphase]
  | @claim p batch task now locked hphase htask hpicks =>
    rcases of_update (Q := fun q => j ∈ q.work) hj with ⟨rfl, hnew⟩ | hj
    · simp only [Proc.work, Phase.batch, Phase.rest, append_nil, mem_append, mem_singleton] at hnew
      rcases hnew with (hj | rfl) | hj
      · exact .inl (by simp [Proc.work, hphase, Phase.batch, hj])
      · exact .inr (.inr ⟨task, now, locked, rfl, htask, rfl⟩)
      · exact .inl (by simp [Proc.work, hj])
    · exact .inl hj
  | @handle p source batch attempt ok hphase =>
    refine .inl (hkeep hj fun i hi => ?_)
    rw [Proc.work, hphase]
    simp only [Proc.work, afterHandle] at hi
    split_ifs at hi <;> simpa [Phase.batch, Phase.rest, or_comm] using hi
  | @settle p source batch rest job ok now hphase =>
    refine .inl (hkeep hj fun i hi => ?_)
    rw [Proc.work, mem_append] at hi
    rw [Proc.work, hphase, mem_append]
    exact hi.imp_right (mem_cons_of_mem _)
  | @finish p source batch ok hphase =>
    refine .inl (hkeep hj fun i hi => ?_)
    rw [Proc.work, (next_batch source).1, (next_batch source).2] at hi
    rwa [Proc.work, hphase]
  | @leave p hphase =>
    refine .inl (hkeep hj fun i hi => ?_)
    cases hi

theorem Moved.batch (h : Moved S s a s') {r : P} {j : Job} (hj : j ∈ (s.procs r).phase.batch) :
    j ∈ (s'.procs r).phase.batch ∨ (r, j) ∈ s'.handed := by
  have hkeep : ∀ {p : P} {q : Proc}, (r = p → j ∈ q.phase.batch) →
      j ∈ (Function.update s.procs p q r).phase.batch := by
    intro p q hq
    by_cases hr : r = p
    · subst hr
      rw [update_self]
      exact hq rfl
    · rwa [update_of_ne hr]
  cases h with
  | submit | store | refused | sent | spilled | full | mark | retire =>
    exact .inl (hkeep fun hr => hr ▸ hj)
  | @recv p job rest phase hchannel hphase =>
    refine .inl (hkeep fun hr => ?_)
    subst hr
    rw [(receive_batch hphase).1]
    exact mem_append_left _ hj
  | @close p source batch hopen =>
    refine .inl (hkeep fun hr => ?_)
    subst hr
    rw [(closed_batch source batch).1]
    rwa [(open_batch hopen).1] at hj
  | @claim p batch task now locked hphase htask hpicks =>
    refine .inl (hkeep fun hr => ?_)
    subst hr
    rw [hphase] at hj
    exact mem_append_left _ hj
  | @handle p source batch attempt ok hphase =>
    by_cases hr : r = p
    · subst hr
      rw [hphase] at hj
      exact .inr (mem_append_right _ (mem_map_of_mem hj))
    · exact .inl (hkeep fun heq => absurd heq hr)
  | poll hphase | settle _ hphase | finish hphase | shutdown hphase | leave hphase =>
    refine .inl (hkeep fun hr => ?_)
    subst hr
    rw [hphase] at hj
    cases hj

theorem Moved.handedKeys (h : Moved S s a s') {k : Key P} (hk : k ∈ s'.handedKeys) :
    k ∈ s.handedKeys ∨ ∃ r, ∃ j ∈ (s.procs r).phase.batch, j.key r = k := by
  cases h with
  | submit | store | refused | sent | spilled | full | mark | retire | recv | close | poll | claim |
    settle | finish | shutdown | leave => exact .inl hk
  | @handle p source batch attempt ok hphase =>
    rw [handedKeys_append (s := s) (p := p) (b := batch) rfl, mem_append] at hk
    refine hk.imp_right fun hmem => ?_
    obtain ⟨j, hj, rfl⟩ := mem_map.1 hmem
    exact ⟨p, j, by rwa [hphase], rfl⟩

theorem Moved.handedKeys_mono (h : Moved S s a s') {k : Key P} (hk : k ∈ s.handedKeys) : k ∈ s'.handedKeys := by
  obtain ⟨e, he, rfl⟩ := mem_map.1 hk
  exact mem_map_of_mem (h.frame.2.1 e he)

theorem Moved.accepts (h : Moved S s a s') {x : Accepted P} (hx : x ∈ s'.accepted) :
    x ∈ s.accepted ∨ (∃ i, a = .send x.proc i ∧ (s.procs x.proc).calls[i]? = some ⟨x.job, .ready⟩ ∧ x.spilled = true ∧
      S.cfg.channelCap ≤ (s.procs x.proc).channel.length ∧ (∃ id, x.job.taskId = some id) ∧
      s'.procs = Function.update s.procs x.proc { s.procs x.proc with
        calls := (s.procs x.proc).calls.eraseIdx i }) ∨
    ∃ i, a = .mark x.proc i ∧ (s.procs x.proc).calls[i]? = some ⟨x.job, .sent⟩ ∧ x.spilled = false := by
  cases h with
  | submit | store | refused | sent | full | retire | recv | close | poll | claim | handle | settle |
    finish | shutdown | leave => exact .inl hx
  | @spilled p i job id hcall hfull hid =>
    refine (mem_append.1 hx).imp_right fun hnew => .inl ?_
    rw [mem_singleton.1 hnew]
    exact ⟨i, rfl, hcall, rfl, hfull, ⟨id, hid⟩, rfl⟩
  | @mark p i job hcall =>
    refine (mem_append.1 hx).imp_right fun hnew => .inr ?_
    rw [mem_singleton.1 hnew]
    exact ⟨i, rfl, hcall, rfl⟩

structure Kept (tasks tasks' : List Row) : Prop where
  row : ∀ t' ∈ tasks', ∃ t ∈ tasks, t'.id = t.id ∧ t'.priority = t.priority ∧
    t'.payload = t.payload ∧ t'.createdAt = t.createdAt

omit [DecidableEq P] in
theorem Kept.updateWhere {tasks : List Row} {cond : Row → Bool} {f : Row → Row}
    (hf : ∀ t, (f t).id = t.id ∧ (f t).priority = t.priority ∧ (f t).payload = t.payload ∧
      (f t).createdAt = t.createdAt) : Kept tasks (Rows.updateWhere cond f tasks) where
  row t' ht' := by
    obtain ⟨t, ht, ⟨-, rfl⟩ | ⟨-, rfl⟩⟩ := Rows.mem_updateWhere.1 ht'
    · exact ⟨t, ht, hf t⟩
    · exact ⟨t', ht, rfl, rfl, rfl, rfl⟩

theorem Moved.tasks (h : Moved S s a s') : s'.tasks = s.tasks ∨
    (∃ r i id now job, a = .store r i id now ∧ (s.procs r).calls[i]? = some ⟨job, .numbered⟩ ∧
      id ∉ s.tasks.map TaskQueue.Task.id ∧ s'.tasks = s.tasks ++
        [TaskQueue.newTask S.backend id S.cfg.name none (envelope job.partition job.payload) 0 now]) ∨
    ∃ id, OnlyRow id s.tasks s'.tasks ∧ Kept s.tasks s'.tasks ∧
      ((∃ r i now job, a = .retire r i now ∧ (s.procs r).calls[i]? = some ⟨job, .closed⟩ ∧ job.taskId = some id) ∨
      (∃ r now locked, a = .claim r now locked id) ∨ ∃ r, ∃ j ∈ (s.procs r).work, j.taskId = some id) := by
  cases h with
  | submit | refused | sent | spilled | full | mark | recv | close | poll | handle | finish | shutdown |
    leave => exact .inl rfl
  | @store p i job id now hcall hid =>
    exact .inr (.inl ⟨p, i, id, now, job, rfl, hcall, hid, submitTask_of_new hid⟩)
  | @retire p i job now hcall =>
    cases hid : job.taskId with
    | none =>
      refine .inl ?_
      change retired S job now s.tasks = s.tasks
      rw [retired, hid]
    | some id =>
      refine .inr (.inr ⟨id, ?_, ?_, .inl ⟨p, i, now, job, rfl, hcall, hid⟩⟩)
      · change OnlyRow id s.tasks (retired S job now s.tasks)
        rw [retired, hid]
        exact .complete _ _
      · change Kept s.tasks (retired S job now s.tasks)
        rw [retired, hid]
        exact .updateWhere fun t => by cases S.backend <;> exact ⟨rfl, rfl, rfl, rfl⟩
  | @claim p batch task now locked hphase htask hpicks =>
    exact .inr (.inr ⟨task.id, .claim _ _ _ _, .updateWhere fun t => ⟨rfl, rfl, rfl, rfl⟩,
      .inr (.inl ⟨p, now, locked, rfl⟩)⟩)
  | @settle p source batch rest job ok now hphase =>
    have hwork : job ∈ (s.procs p).work := by
      rw [Proc.work, hphase]
      exact mem_append_right _ mem_cons_self
    change settled S p job ok now s.tasks = s.tasks ∨ _
    rcases settled_cases S p job ok now s.tasks with htasks | ⟨id, hid, htasks⟩
    · exact .inl htasks
    · refine .inr (.inr ⟨id, ?_, ?_, .inr (.inr ⟨p, job, hwork, hid⟩)⟩)
      · change OnlyRow id s.tasks (settled S p job ok now s.tasks)
        rw [htasks]
        split
        · exact .complete _ _
        · exact .fail _ _ _
      · change Kept s.tasks (settled S p job ok now s.tasks)
        rw [htasks]
        split
        · exact .updateWhere fun t => by cases S.backend <;> exact ⟨rfl, rfl, rfl, rfl⟩
        · exact .updateWhere fun t => ⟨rfl, rfl, rfl, rfl⟩

theorem Moved.knows (h : Moved S s a s') {k : Key P} (hk : s.Knows k) : s'.Knows k := by
  cases k with
  | row id =>
    rcases h.tasks with htasks | ⟨r, i, id', now, job, -, -, -, htasks⟩ | ⟨id', honly, -⟩
    · rwa [St.Knows, htasks]
    · rw [St.Knows, htasks, map_append]
      exact mem_append_left _ hk
    · exact honly.mem_ids.2 hk
  | mem p n =>
    have hle : (s.procs p).seq ≤ (s'.procs p).seq := by
      have hupdate : ∀ {r : P} {q : Proc}, (s.procs r).seq ≤ q.seq →
          (s.procs p).seq ≤ (Function.update s.procs r q p).seq := by
        intro r q hq
        by_cases hp : p = r
        · subst hp
          rwa [update_self]
        · rw [update_of_ne hp]
      cases h with
      | submit | claim => exact hupdate (Nat.le_succ _)
      | store | refused | sent | spilled | full | mark | retire | recv | close | poll | handle |
        settle | finish | shutdown | leave => exact hupdate le_rfl
    exact le_trans hk hle

theorem Moved.channel (h : Moved S s a s') {r : P} {j : Job} (hj : j ∈ (s.procs r).channel) :
    j ∈ (s'.procs r).channel ∨ j ∈ (s'.procs r).phase.batch ∨ a = .leave r := by
  have hkeep : ∀ {p : P} {q : Proc}, (r = p → j ∈ q.channel) → j ∈ (Function.update s.procs p q r).channel := by
    intro p q hq
    by_cases hr : r = p
    · subst hr
      rw [update_self]
      exact hq rfl
    · rwa [update_of_ne hr]
  cases h with
  | submit | store | refused | spilled | full | mark | retire | close | poll | claim | handle | settle |
    finish | shutdown => exact .inl (hkeep fun hr => hr ▸ hj)
  | @sent p i job hcall hphase hcap =>
    exact .inl (hkeep fun hr => mem_append_left _ (hr ▸ hj))
  | @recv p job rest phase hchannel hphase =>
    by_cases hr : r = p
    · subst hr
      rw [hchannel] at hj
      rcases mem_cons.1 hj with rfl | hj
      · refine .inr (.inl ?_)
        simp [St.setProc, (receive_batch hphase).1]
      · exact .inl (hkeep fun _ => hj)
    · exact .inl (hkeep fun heq => absurd heq hr)
  | @leave p hphase =>
    by_cases hr : r = p
    · exact .inr (.inr (hr ▸ rfl))
    · exact .inl (hkeep fun heq => absurd heq hr)

end Moves

section Identity

variable {S : Setup P} {s s' : St P} {a : Action P}

structure Known (s : St P) : Prop where
  calls : ∀ r, ∀ c ∈ (s.procs r).calls, s.Knows (c.job.key r)
  work : ∀ r, ∀ j ∈ (s.procs r).work, s.Knows (j.key r)
  handed : ∀ k ∈ s.handedKeys, s.Knows k
  numbered : ∀ r, ∀ c ∈ (s.procs r).calls, c.stage = .numbered → c.job.taskId = none
  seq : ∀ r, ∀ c ∈ (s.procs r).calls, c.job.seq ≤ (s.procs r).seq
  accepted : ∀ x ∈ s.accepted, x.job.seq ≤ (s.procs x.proc).seq

theorem Known.step (h : Known s) (hmove : Moved S s a s') : Known s' := by
  have hseq : ∀ {r n}, n ≤ (s.procs r).seq → n ≤ (s'.procs r).seq := fun {r n} hle =>
    hmove.knows (k := .mem r n) hle
  have hnext : ∀ {r partition payload durable}, a = .submit r partition payload durable →
      (s.procs r).seq + 1 ≤ (s'.procs r).seq := by
    rintro r partition payload durable rfl
    cases hmove
    change _ ≤ (Function.update s.procs r _ r).seq
    rw [update_self]
  refine ⟨fun r c hc => ?_, fun r j hj => ?_, fun k hk => ?_, fun r c hc hstage => ?_, fun r c hc => ?_, fun x hx => ?_⟩
  · rcases hmove.calls r hc with hold | ⟨partition, payload, durable, hact, hjob, -⟩ |
      ⟨i, id, now, job, rfl, hcall, rfl⟩ | ⟨i, job, rfl, hcall, hnew⟩
    · exact hmove.knows (h.calls r c hold)
    · rw [hjob]
      exact hnext hact
    · cases hmove with
      | store _ hcall hid =>
        change id ∈ (submitTask _ _ _ _ _ _ _ _).map _
        rw [submitTask_of_new hid, map_append]
        exact mem_append_right _ mem_cons_self
    · have hold := hmove.knows (h.calls r _ (mem_of_getElem? hcall))
      rcases hnew with rfl | ⟨rfl, -⟩ <;> exact hold
  · rcases hmove.work r hj with hold | ⟨i, rfl, hcall, -⟩ | ⟨task, now, locked, rfl, htask, rfl⟩
    · exact hmove.knows (h.work r j hold)
    · exact hmove.knows (h.calls r _ (mem_of_getElem? hcall))
    · exact hmove.knows (k := .row task.id) (mem_map_of_mem htask)
  · rcases hmove.handedKeys hk with hold | ⟨r, j, hj, rfl⟩
    · exact hmove.knows (h.handed k hold)
    · exact hmove.knows (h.work r j (mem_append_left _ (mem_append_left _ hj)))
  · rcases hmove.calls r hc with hold | ⟨partition, payload, durable, rfl, hjob, -⟩ |
      ⟨i, id, now, job, rfl, hcall, rfl⟩ | ⟨i, job, rfl, hcall, rfl | ⟨rfl, -⟩⟩
    · exact h.numbered r c hold hstage
    · rw [hjob]
    · cases hstage
    · cases hstage
    · cases hstage
  · rcases hmove.calls r hc with hold | ⟨partition, payload, durable, hact, hjob, -⟩ |
      ⟨i, id, now, job, -, hcall, rfl⟩ | ⟨i, job, -, hcall, rfl | ⟨rfl, -⟩⟩
    · exact hseq (h.seq r c hold)
    · rw [hjob]
      exact hnext hact
    all_goals
      have hold := h.seq r _ (mem_of_getElem? hcall)
      exact hseq hold
  · rcases hmove.accepts hx with hold | ⟨i, -, hcall, -⟩ | ⟨i, -, hcall, -⟩
    · exact hseq (h.accepted x hold)
    · exact hseq (h.seq _ _ (mem_of_getElem? hcall))
    · exact hseq (h.seq _ _ (mem_of_getElem? hcall))

def Call.row (c : Call) : Option TaskId := c.job.taskId

structure Distinct (s : St P) : Prop where
  nodup : ∀ r, ((s.procs r).calls.filterMap Call.row).Nodup
  apart : ∀ r r', ∀ c ∈ (s.procs r).calls, ∀ c' ∈ (s.procs r').calls, ∀ i, c.job.taskId = some i →
    c'.job.taskId = some i → r = r'

theorem Moved.callRow (h : Moved S s a s') {r : P} {c : Call} {id : TaskId}
    (hc : c ∈ (s'.procs r).calls) (hid : c.job.taskId = some id) : (∃ c₀ ∈ (s.procs r).calls, c₀.job.taskId = some id) ∨
      (∃ i now, a = .store r i id now) ∧ id ∉ s.tasks.map TaskQueue.Task.id := by
  rcases h.calls r hc with hold | ⟨partition, payload, durable, rfl, hjob, -⟩ |
    ⟨i, id', now, job, rfl, hcall, rfl⟩ | ⟨i, job, rfl, hcall, rfl | ⟨rfl, -⟩⟩
  · exact .inl ⟨c, hold, hid⟩
  · rw [hjob] at hid
    cases hid
  · cases hid
    cases h with
    | store _ _ hid => exact .inr ⟨⟨i, now, rfl⟩, hid⟩
  · exact .inl ⟨_, mem_of_getElem? hcall, hid⟩
  · exact .inl ⟨_, mem_of_getElem? hcall, hid⟩

theorem nodup_set {calls : List Call} {i : ℕ} {c c' : Call} (hc : calls[i]? = some c)
    (h : (calls.filterMap Call.row).Nodup)
    (hnew : ∀ id, c'.row = some id → c.row = some id ∨ id ∉ calls.filterMap Call.row) :
    ((calls.set i c').filterMap Call.row).Nodup := by
  obtain ⟨hi, rfl⟩ := List.getElem?_eq_some_iff.1 hc
  have hold := ((getElem_cons_eraseIdx_perm hi).filterMap Call.row).nodup_iff.2 h
  have hsub : ((calls.eraseIdx i).filterMap Call.row).Sublist (calls.filterMap Call.row) :=
    (eraseIdx_sublist calls i).filterMap _
  rw [((set_perm_cons_eraseIdx hi c').filterMap Call.row).nodup_iff, filterMap_cons]
  cases hrow : c'.row with
  | none => exact h.sublist hsub
  | some id =>
    refine nodup_cons.2 ⟨fun hmem => ?_, h.sublist hsub⟩
    rcases hnew id hrow with hsame | hfresh
    · rw [filterMap_cons, hsame] at hold
      exact (nodup_cons.1 hold).1 hmem
    · exact hfresh (hsub.subset hmem)

theorem Distinct.step (h : Distinct s) (hk : Known s) (hmove : Moved S s a s') : Distinct s' := by
  have hupdate : ∀ {p : P} {q : Proc}, (q.calls.filterMap Call.row).Nodup →
      ∀ r, ((Function.update s.procs p q r).calls.filterMap Call.row).Nodup := fun {p q} hq =>
    forall_update (Q := fun _ q => (q.calls.filterMap Call.row).Nodup) hq fun r _ => h.nodup r
  have herase : ∀ p i, (((s.procs p).calls.eraseIdx i).filterMap Call.row).Nodup := fun p i =>
    (h.nodup p).sublist ((eraseIdx_sublist _ _).filterMap _)
  refine ⟨?_, fun r r' c hc c' hc' i hi hi' => ?_⟩
  · cases hmove with
    | submit p partition payload durable =>
      refine hupdate ?_
      rw [filterMap_append]
      exact (append_nil _).symm ▸ h.nodup p
    | @store p i job id now hcall hid =>
      refine hupdate (nodup_set hcall (h.nodup p) fun id' hid' => .inr fun hmem => hid ?_)
      cases hid'
      obtain ⟨c, hc, hrow⟩ := mem_filterMap.1 hmem
      have hknown := hk.calls p c hc
      rwa [key_of_taskId hrow] at hknown
    | @refused p i job hcall hphase
    | @sent p i job hcall hphase hcap => exact hupdate (nodup_set hcall (h.nodup p) fun _ hrow => .inl hrow)
    | spilled | full | mark | retire => exact hupdate (herase _ _)
    | recv | close | poll | claim | handle | settle | finish | shutdown | leave =>
      exact hupdate (h.nodup _)
  · have hfresh : ∀ {r c}, c ∈ (s.procs r).calls → c.job.taskId = some i →
        i ∈ s.tasks.map TaskQueue.Task.id := fun {r c} hc hrow => by
      have hknown := hk.calls r c hc
      rwa [key_of_taskId hrow] at hknown
    rcases hmove.callRow hc hi with ⟨c₀, hc₀, hrow⟩ | ⟨⟨n, now, hact⟩, hnew⟩
    · rcases hmove.callRow hc' hi' with ⟨c₁, hc₁, hrow'⟩ | ⟨-, hnew⟩
      · exact h.apart r r' c₀ hc₀ c₁ hc₁ i hrow hrow'
      · exact absurd (hfresh hc₀ hrow) hnew
    · rcases hmove.callRow hc' hi' with ⟨c₁, hc₁, hrow'⟩ | ⟨⟨n', now', hact'⟩, -⟩
      · exact absurd (hfresh hc₁ hrow') hnew
      · rw [hact] at hact'
        cases hact'
        rfl

omit [DecidableEq P] in
theorem Distinct.eq_of_row (h : Distinct s) {r : P} {c c' : Call} {i : TaskId}
    (hc : c ∈ (s.procs r).calls) (hc' : c' ∈ (s.procs r).calls) (hi : c.job.taskId = some i)
    (hi' : c'.job.taskId = some i) : c = c' := by
  by_contra hne
  have hsymm : Std.Symm fun x y : Call => ∀ b, x.row = some b → ∀ b', y.row = some b' → b ≠ b' :=
    ⟨fun x y hxy b hb b' hb' heq => hxy b' hb' b hb heq.symm⟩
  exact (pairwise_filterMap.1 (h.nodup r)).forall hc hc' hne i hi i hi' rfl

end Identity

section Places

variable {S : Setup P} {s s' : St P} {a : Action P} {p : P} {part : String} {i : TaskId} {job : Job}

structure Untouched (S : Setup P) (s : St P) (i : TaskId) (part : String) : Prop where
  row : i ∈ s.tasks.map TaskQueue.Task.id
  rows : ∀ t ∈ s.tasks, t.id = i → t.kind = S.cfg.name ∧ t.priority = 0 ∧ t.status = .pending ∧
    t.claimExpiresAt = none ∧ partitionOf t = part
  free : ∀ r, ∀ j ∈ (s.procs r).work, j.taskId ≠ some i

def InBatch (s : St P) (k : Key P) (part : String) : Prop :=
  ∃ r, ∃ j ∈ (s.procs r).phase.batch, j.key r = k ∧ j.partition = part

def Found (S : Setup P) (s : St P) (i : TaskId) (part : String) : Prop :=
  .row i ∈ s.handedKeys ∨ InBatch s (.row i) part ∨ Untouched S s i part

def Delivered (p : P) (s : St P) (job : Job) : Prop :=
  (p, job) ∈ s.handed ∨ job ∈ (s.procs p).phase.batch ++ (s.procs p).channel

theorem InBatch.step {k : Key P} (h : InBatch s k part) (hmove : Moved S s a s') :
    k ∈ s'.handedKeys ∨ InBatch s' k part := by
  obtain ⟨r, j, hj, hkey, hpart⟩ := h
  rcases hmove.batch hj with hkept | hdone
  · exact .inr ⟨r, j, hkept, hkey, hpart⟩
  · exact .inl (mem_map.2 ⟨(r, j), hdone, hkey⟩)

theorem Untouched.step (h : Untouched S s i part) (hmove : Moved S s a s')
    (hsend : ∀ r n job, a = .send r n → (s.procs r).calls[n]? = some ⟨job, .ready⟩ →
      (s.procs r).channel.length < S.cfg.channelCap → job.taskId ≠ some i)
    (hretire : ∀ r n now job, a = .retire r n now → (s.procs r).calls[n]? = some ⟨job, .closed⟩ →
      job.taskId ≠ some i) : InBatch s' (.row i) part ∨ Untouched S s' i part := by
  by_cases hclaim : ∃ r now locked, a = .claim r now locked i
  · obtain ⟨r, now, locked, rfl⟩ := hclaim
    refine .inl ?_
    cases hmove with
    | @claim _ batch task _ _ hphase htask hpicks =>
      refine ⟨r, jobFromTask ((s.procs r).seq + 1) task, ?_, rfl, (h.rows task htask rfl).2.2.2.2⟩
      simp [St.setProc, Phase.batch]
  · refine .inr ⟨hmove.knows (k := .row i) h.row, fun t ht hti => ?_, fun r j hj hji => ?_⟩
    · rcases hmove.tasks with htasks | ⟨r, n, id, now, job, -, -, hid, htasks⟩ | ⟨id, honly, -, hcause⟩
      · exact h.rows t (htasks ▸ ht) hti
      · rw [htasks] at ht
        rcases mem_append.1 ht with ht | ht
        · exact h.rows t ht hti
        · rw [mem_singleton.1 ht] at hti
          have hnew : id = i := hti
          exact absurd h.row (hnew ▸ hid)
      · have hne : id ≠ i := by
          rintro rfl
          rcases hcause with ⟨r, n, now, job, hact, hcall, hjob⟩ | ⟨r, now, locked, hact⟩ | ⟨r, j, hj, hji⟩
          · exact hretire r n now job hact hcall hjob
          · exact hclaim ⟨r, now, locked, hact⟩
          · exact h.free r j hj hji
        exact h.rows t ((honly.other t (hti ▸ hne.symm)).1 ht) hti
    · rcases hmove.work r hj with hold | ⟨n, hact, hcall, hcap⟩ | ⟨task, now, locked, hact, htask, rfl⟩
      · exact h.free r j hold hji
      · exact hsend r n j hact hcall hcap hji
      · obtain rfl : task.id = i := Option.some_inj.1 hji
        exact hclaim ⟨r, now, locked, hact⟩

theorem Found.step (h : Found S s i part) (hmove : Moved S s a s')
    (hsend : ∀ r n job, a = .send r n → (s.procs r).calls[n]? = some ⟨job, .ready⟩ →
      (s.procs r).channel.length < S.cfg.channelCap → job.taskId ≠ some i)
    (hretire : ∀ r n now job, a = .retire r n now → (s.procs r).calls[n]? = some ⟨job, .closed⟩ →
      job.taskId ≠ some i) : Found S s' i part := by
  rcases h with hdone | hbatch | hfree
  · exact .inl (hmove.handedKeys_mono hdone)
  · exact (hbatch.step hmove).imp_right .inl
  · exact .inr (hfree.step hmove hsend hretire)

omit [DecidableEq P] in
theorem Found.mem_ids (h : Found S s i part) (hk : Known s) : i ∈ s.tasks.map TaskQueue.Task.id := by
  rcases h with hdone | ⟨r, j, hj, hkey, -⟩ | hfree
  · exact hk.handed _ hdone
  · have hknown := hk.work r j (mem_append_left _ (mem_append_left _ hj))
    rwa [hkey] at hknown
  · exact hfree.row

theorem Delivered.step (h : Delivered p s job) (hmove : Moved S s a s')
    (hleave : a = .leave p → job ∉ (s.procs p).channel) : Delivered p s' job := by
  rcases h with hdone | hwork
  · exact .inl (hmove.frame.2.1 _ hdone)
  · rcases mem_append.1 hwork with hbatch | hchannel
    · rcases hmove.batch hbatch with hkept | hdone
      · exact .inr (mem_append_left _ hkept)
      · exact .inl hdone
    · rcases hmove.channel hchannel with hkept | hbatch | hact
      · exact .inr (mem_append_right _ hkept)
      · exact .inr (mem_append_left _ hbatch)
      · exact absurd hchannel (hleave hact)

/-- **Where the jobs of a partition are** that a process has submitted. -/
structure Placed (S : Setup P) (p : P) (part : String) (s : St P) : Prop where
  offered : ∀ c ∈ (s.procs p).calls, c.stage = .ready → c.job.partition = part →
    ∀ i, c.job.taskId = some i → Found S s i part
  sent : ∀ c ∈ (s.procs p).calls, c.stage = .sent → c.job.partition = part → Delivered p s c.job
  accepted : ∀ x ∈ s.accepted, x.proc = p → x.job.partition = part → Delivered p s x.job ∨
    x.spilled = true ∧ ∃ i, x.job.taskId = some i ∧ Found S s i part ∧
      ∀ r, ∀ c ∈ (s.procs r).calls, c.job.taskId ≠ some i

omit [DecidableEq P] in
theorem Untouched.of_new (hk : Known s) {id : TaskId} {row : Row} (hid : row.id = id)
    (hnew : id ∉ s.tasks.map TaskQueue.Task.id) (hkind : row.kind = S.cfg.name)
    (hpriority : row.priority = 0) (hstatus : row.status = .pending) (hclaim : row.claimExpiresAt = none)
    (hpart : partitionOf row = part) (htasks : s'.tasks = s.tasks ++ [row])
    (hwork : ∀ r, ∀ j ∈ (s'.procs r).work, j ∈ (s.procs r).work) : Untouched S s' id part := by
  refine ⟨?_, fun t ht hti => ?_, fun r j hj hji => ?_⟩
  · rw [htasks, map_append, map_singleton, hid]
    exact mem_append_right _ mem_cons_self
  · rw [htasks] at ht
    rcases mem_append.1 ht with ht | ht
    · exact absurd (hti ▸ mem_map_of_mem ht) hnew
    · rw [mem_singleton.1 ht]
      exact ⟨hkind, hpriority, hstatus, hclaim, hpart⟩
  · have hknown := hk.work r j (hwork r j hj)
    rw [key_of_taskId hji] at hknown
    exact hnew hknown

theorem Placed.step (h : Placed S p part s) (hk : Known s) (hd : Distinct s) (hd' : Distinct s')
    (hok : FirstCome S p part s a) (hmove : Moved S s a s') : Placed S p part s' := by
  have hdelivered : ∀ {job : Job}, job.partition = part → Delivered p s job → Delivered p s' job := by
    intro job hpart hjob
    refine hjob.step hmove ?_
    rintro rfl hmem
    exact hok rfl job hmem hpart
  refine ⟨fun c hc hstage hpart i hi => ?_, fun c hc hstage hpart => ?_, fun x hx hproc hpart => ?_⟩
  · rcases hmove.calls p hc with hold | ⟨partition, payload, durable, rfl, hjob, -⟩ |
      ⟨n, id, now, job, rfl, hcall, rfl⟩ | ⟨n, job, rfl, hcall, rfl | ⟨rfl, -⟩⟩
    · refine (h.offered c hold hstage hpart i hi).step hmove (fun r n job hact hcall hcap hji => ?_)
        fun r n now job hact hcall hji => ?_
      · -- the call that goes into the channel is no longer ready
        subst hact
        obtain rfl := hd.apart p r c hold _ (mem_of_getElem? hcall) i hi hji
        cases hmove with
        | @refused _ _ job' hcall' hphase =>
          rw [hcall] at hcall'
          cases hcall'
          have hmem : (⟨job, .closed⟩ : Call) ∈ ((s.setProc p { s.procs p with
              calls := (s.procs p).calls.set n ⟨job, .closed⟩ }).procs p).calls := by
            simp only [St.setProc, update_self]
            exact mem_set (List.getElem?_eq_some_iff.1 hcall).1 _
          have heq := hd'.eq_of_row hc hmem hi hji
          rw [heq] at hstage
          cases hstage
        | @sent _ _ job' hcall' hphase hcap' =>
          rw [hcall] at hcall'
          cases hcall'
          have hmem : (⟨job, .sent⟩ : Call) ∈ ((s.setProc p { s.procs p with
              channel := (s.procs p).channel ++ [job]
              calls := (s.procs p).calls.set n ⟨job, .sent⟩ }).procs p).calls := by
            simp only [St.setProc, update_self]
            exact mem_set (List.getElem?_eq_some_iff.1 hcall).1 _
          have heq := hd'.eq_of_row hc hmem hi hji
          rw [heq] at hstage
          cases hstage
        | @spilled _ _ job' id hcall' hfull hid => exact absurd hcap (Nat.not_lt.2 hfull)
        | @full _ _ job' hcall' hid =>
          rw [hcall] at hcall'
          cases hcall'
          rw [hid] at hji
          cases hji
      · obtain rfl := hd.apart p r c hold _ (mem_of_getElem? hcall) i hi hji
        have heq := hd.eq_of_row hold (mem_of_getElem? hcall) hi hji
        rw [heq] at hstage
        cases hstage
    · rw [hjob] at hi
      cases hi
    · cases hi
      cases hmove with
      | @store _ _ job' _ _ hcall' hid =>
        refine .inr (.inr (.of_new hk rfl hid rfl rfl rfl rfl ?_ (submitTask_of_new hid) ?_))
        · rw [hcall] at hcall'
          cases hcall'
          exact hpart
        · intro r j hj
          rcases of_update (Q := fun q => j ∈ q.work) hj with ⟨rfl, hnew⟩ | hold
          · exact hnew
          · exact hold
    · cases hstage
    · cases hstage
  · rcases hmove.calls p hc with hold | ⟨partition, payload, durable, rfl, hjob, hne⟩ |
      ⟨n, id, now, job, rfl, hcall, rfl⟩ | ⟨n, job, rfl, hcall, rfl | ⟨rfl, hmem⟩⟩
    · exact hdelivered hpart (h.sent c hold hstage hpart)
    · exact absurd hstage hne
    · cases hstage
    · cases hstage
    · exact .inr (mem_append_right _ hmem)
  · rcases hmove.accepts hx with hold | ⟨n, hact, hcall, hspill, hfull, ⟨i, hi⟩, hprocs⟩ | ⟨n, hact, hcall, hspill⟩
    · refine (h.accepted x hold hproc hpart).imp (hdelivered hpart) ?_
      rintro ⟨hspill, i, hi, hfound, hfree⟩
      refine ⟨hspill, i, hi, hfound.step hmove (fun r n job _ hcall _ => ?_)
        (fun r n now job _ hcall => ?_), fun r c hc hci => ?_⟩
      · exact hfree r _ (mem_of_getElem? hcall)
      · exact hfree r _ (mem_of_getElem? hcall)
      · rcases hmove.callRow hc hci with ⟨c₀, hc₀, hrow⟩ | ⟨-, hnew⟩
        · exact hfree r c₀ hc₀ hrow
        · exact hnew (hfound.mem_ids hk)
    · rw [hproc] at hact hcall hfull hprocs
      have hmem := mem_of_getElem? hcall
      refine .inr ⟨hspill, i, hi, (h.offered _ hmem rfl hpart i hi).step hmove ?_ ?_, ?_⟩
      · intro r m job hact' hcall' hcap
        rw [hact] at hact'
        cases hact'
        exact absurd hcap (Nat.not_lt.2 hfull)
      · intro r m now job hact'
        rw [hact] at hact'
        cases hact'
      · intro r c hc hci
        rw [hprocs] at hc
        by_cases hr : r = p
        · -- the call was the only one with its row
          subst hr
          rw [update_self] at hc
          obtain ⟨hn, hget⟩ := List.getElem?_eq_some_iff.1 hcall
          have hnodup := ((getElem_cons_eraseIdx_perm hn).filterMap Call.row).nodup_iff.2
            (hd.nodup r)
          rw [hget, filterMap_cons, Call.row, hi] at hnodup
          exact (nodup_cons.1 hnodup).1 (mem_filterMap.2 ⟨c, hc, hci⟩)
        · rw [update_of_ne hr] at hc
          exact hr (hd.apart r p c hc _ hmem i hci hi)
    · rw [hproc] at hcall
      exact .inl (hdelivered hpart (h.sent _ (mem_of_getElem? hcall) rfl hpart))

/-! ### What is ahead of a job -/

theorem Placed.ahead_of_send (h : Placed S p part s) {x : Accepted P} (hx : x ∈ s.accepted)
    (hproc : x.proc = p) (hpart : x.job.partition = part)
    (hstore : ∀ a ∈ s.accepted, a.proc = p → a.spilled = true → a.job.partition = part →
      ∀ id, a.job.taskId = some id → ∀ t ∈ s.tasks, t.id = id → t.status ≠ .pending)
    (hworkers : ∀ r, r ≠ p → ∀ j ∈ (s.procs r).phase.batch, j.partition ≠ part) :
    x.job.key p ∈ s.handedKeys ∨ x.job.key p ∈ (s.procs p).held p := by
  rcases h.accepted x hx hproc hpart with (hdone | hmem) | ⟨hspill, i, hi, hfound, -⟩
  · exact .inl (mem_map.2 ⟨_, hdone, rfl⟩)
  · exact .inr (mem_map_of_mem hmem)
  · rw [key_of_taskId hi]
    rcases hfound with hdone | ⟨r, j, hj, hkey, hjpart⟩ | hfree
    · exact .inl hdone
    · by_cases hr : r = p
      · subst hr
        exact .inr (hkey ▸ mem_map_of_mem (mem_append_left _ hj))
      · exact absurd hjpart (hworkers r hr j hj)
    · obtain ⟨t, ht, hti⟩ := mem_map.1 hfree.row
      exact absurd (hfree.rows t ht hti).2.2.1 (hstore x hx hproc hspill hpart i hi t ht hti)

omit [DecidableEq P] in
theorem Untouched.not_picks (h : Untouched S s i part) {now : Timestamp} {locked : List TaskId}
    {id : TaskId} (hlocked : S.backend = .sqlite ∨ locked = [])
    (hlater : ∀ t ∈ s.tasks, t.id = id → t.priority = 0 ∧ ∀ u ∈ s.tasks, u.id = i →
      u.createdAt < t.createdAt) : picks S.backend S.cfg.name now locked s.tasks id = false := by
  rw [Bool.eq_false_iff]
  intro hpicks
  obtain ⟨t, ht, hcond⟩ := any_eq_true.1 hpicks
  simp only [Bool.and_eq_true, decide_eq_true_eq, all_eq_true] at hcond
  obtain ⟨⟨⟨htid, -⟩, -⟩, hfirst⟩ := hcond
  obtain ⟨u, hu, hui⟩ := mem_map.1 h.row
  obtain ⟨hkind, hpriority, hpending, hunclaimed, -⟩ := h.rows u hu hui
  obtain ⟨htpriority, hcreated⟩ := hlater t ht htid
  have hclaimable : TaskQueue.Task.claimable S.backend S.cfg.name now u = true := by
    cases S.backend <;> simp [TaskQueue.Task.claimable, hkind, hpending, hunclaimed]
  have hunlocked : (decide (S.backend = .sqlite) || !locked.contains u.id) = true := by
    rcases hlocked with hsqlite | hnone
    · simp [hsqlite]
    · simp [hnone]
  have hprecedes : TaskQueue.Task.precedes u t = true := by
    rw [TaskQueue.Task.precedes, if_neg (by rw [hpriority, htpriority]; exact fun h => h rfl)]
    exact decide_eq_true (hcreated u hu hui)
  have hnot := hfirst u hu
  rw [hclaimable, hunlocked, hprecedes] at hnot
  cases hnot

theorem Placed.ahead_of_claim (h : Placed S p part s) {x : Accepted P} (hx : x ∈ s.accepted)
    (hproc : x.proc = p) (hpart : x.job.partition = part) {r : P} {now : Timestamp}
    {locked : List TaskId} {id : TaskId}
    (hpicks : picks S.backend S.cfg.name now locked s.tasks id = true) (hlocked : S.backend = .sqlite ∨ locked = [])
    (hchannel : ∀ j ∈ (s.procs p).channel, j.partition ≠ part)
    (hworkers : ∀ r', r' ≠ r → ∀ j ∈ (s.procs r').phase.batch, j.partition ≠ part)
    (hlater : ∀ t ∈ s.tasks, t.id = id → t.priority = 0 ∧ ∀ u ∈ s.tasks,
      x.job.key p = .row u.id → u.createdAt < t.createdAt) :
    x.job.key p ∈ s.handedKeys ∨ x.job.key p ∈ (s.procs r).phase.batch.map (Job.key r) := by
  have hbatch : ∀ {r' j}, j ∈ (s.procs r').phase.batch → j.partition = part →
      j.key r' ∈ (s.procs r).phase.batch.map (Job.key r) := by
    intro r' j hj hjpart
    by_cases hr : r' = r
    · subst hr
      exact mem_map_of_mem hj
    · exact absurd hjpart (hworkers r' hr j hj)
  rcases h.accepted x hx hproc hpart with (hdone | hmem) | ⟨-, i, hi, hfound, -⟩
  · exact .inl (mem_map.2 ⟨_, hdone, rfl⟩)
  · rcases mem_append.1 hmem with hmem | hmem
    · exact .inr (hbatch hmem hpart)
    · exact absurd hpart (hchannel _ hmem)
  · rw [key_of_taskId hi] at hlater ⊢
    rcases hfound with hdone | ⟨r', j, hj, hkey, hjpart⟩ | hfree
    · exact .inl hdone
    · exact .inr (hkey ▸ hbatch hj hjpart)
    · rw [hfree.not_picks hlocked fun t ht hti => ⟨(hlater t ht hti).1, fun u hu hui =>
        (hlater t ht hti).2 u hu (hui ▸ rfl)⟩] at hpicks
      cases hpicks

end Places

section Order

variable {S : Setup P} {s s' : St P} {a : Action P} {p : P} {part : String}

theorem Moved.held (h : Moved S s a s') (r : P) : (s'.procs r).held r = (s.procs r).held r ∨
    (∃ i job, a = .send r i ∧ (s.procs r).calls[i]? = some ⟨job, .ready⟩ ∧
      (s.procs r).channel.length < S.cfg.channelCap ∧ (s'.procs r).held r = (s.procs r).held r ++ [job.key r]) ∨
    (∃ now locked id, a = .claim r now locked id ∧ id ∈ s.tasks.map TaskQueue.Task.id ∧
      picks S.backend S.cfg.name now locked s.tasks id = true ∧
      (s'.procs r).held r = (s.procs r).phase.batch.map (Job.key r) ++ .row id :: (s.procs r).channel.map (Job.key r)) ∨
    (s'.handedKeys = s.handedKeys ++ (s.procs r).phase.batch.map (Job.key r) ∧
      (s'.procs r).held r = (s.procs r).channel.map (Job.key r)) ∨ (s'.procs r).held r = [] := by
  have hother : ∀ {p : P} {q : Proc}, r ≠ p →
      (Function.update s.procs p q r).held r = (s.procs r).held r := fun hr => by
    rw [update_of_ne hr]
  have hkeep : ∀ {p : P} {q : Proc}, q.held p = (s.procs p).held p →
      (Function.update s.procs p q r).held r = (s.procs r).held r := by
    intro p q hq
    by_cases hr : r = p
    · subst hr
      rwa [update_self]
    · exact hother hr
  cases h with
  | submit | store | refused | spilled | full | mark | retire => exact .inl (hkeep rfl)
  | @sent p i job hcall hphase hcap =>
    by_cases hr : r = p
    · subst hr
      refine .inr (.inl ⟨i, job, rfl, hcall, hcap, ?_⟩)
      simp [St.setProc, Proc.held]
    · exact .inl (hother hr)
  | @recv p job rest phase hchannel hphase =>
    refine .inl (hkeep ?_)
    rw [Proc.held, Proc.held, (receive_batch hphase).1, hchannel, append_assoc]
    rfl
  | @close p source batch hopen =>
    refine .inl (hkeep ?_)
    rw [Proc.held, Proc.held, (closed_batch source batch).1, (open_batch hopen).1]
  | @claim p batch task now locked hphase htask hpicks =>
    by_cases hr : r = p
    · subst hr
      refine .inr (.inr (.inl ⟨now, locked, task.id, rfl, mem_map_of_mem htask, hpicks, ?_⟩))
      rw [hphase]
      simp [St.setProc, Proc.held, Phase.batch, Job.key, jobFromTask]
    · exact .inl (hother hr)
  | @handle p source batch attempt ok hphase =>
    by_cases hr : r = p
    · subst hr
      by_cases hretry : ok = false ∧ attempt + 1 ≤ S.cfg.maxRetries
      · -- the batch is handed over once more
        refine .inl (hkeep ?_)
        have hafter : afterHandle S.cfg.maxRetries source batch attempt ok =
            .handling source batch (attempt + 1) := by
          rw [afterHandle, hretry.1, if_neg (by simp), if_neg (by omega)]
        rw [Proc.held, Proc.held, hafter, hphase]
        rfl
      · refine .inr (.inr (.inr (.inl ⟨?_, ?_⟩)))
        · rw [handedKeys_append (s := s) (p := r) (b := batch) rfl, hphase]
          rfl
        · have hafter : (afterHandle S.cfg.maxRetries source batch attempt ok).batch = [] := by
            rw [afterHandle]
            split_ifs with hok hlimit
            · rfl
            · rfl
            · exact absurd ⟨by simpa using hok, by omega⟩ hretry
          simp [St.setProc, Proc.held, hafter]
    · exact .inl (hother hr)
  | poll hphase | settle _ hphase | shutdown hphase =>
    refine .inl (hkeep ?_)
    rw [Proc.held, Proc.held, hphase]
    rfl
  | @finish p source batch ok hphase =>
    refine .inl (hkeep ?_)
    rw [Proc.held, Proc.held, hphase, (next_batch source).1]
    rfl
  | @leave p hphase =>
    by_cases hr : r = p
    · subst hr
      refine .inr (.inr (.inr (.inr ?_)))
      simp [St.setProc, Proc.held, Phase.batch]
    · exact .inl (hother hr)

theorem Moved.handed_eq (h : Moved S s a s') : s'.handedKeys = s.handedKeys ∨
    ∃ r, s'.handedKeys = s.handedKeys ++ (s.procs r).phase.batch.map (Job.key r) := by
  cases h with
  | submit | store | refused | sent | spilled | full | mark | retire | recv | close | poll | claim |
    settle | finish | shutdown | leave => exact .inl rfl
  | @handle p source batch attempt ok hphase =>
    refine .inr ⟨p, ?_⟩
    rw [handedKeys_append (s := s) (p := p) (b := batch) rfl, hphase]
    rfl

/-- **The jobs behind one that was accepted**: `k` is that job, `n` the number that the process had given
out by then, and `late` holds what the jobs are known by that were submitted since. -/
structure Behind (p : P) (part : String) (n : ℕ) (k : Key P) (late : Set (Key P)) (s : St P) : Prop where
  known : ∀ k' ∈ late, s.Knows k'
  first : s.Knows k
  notMem : k ∉ late
  calls : ∀ r, ∀ c ∈ (s.procs r).calls, c.job.key r ∈ late → r = p ∧ c.job.partition = part
  submitted : ∀ c ∈ (s.procs p).calls, n < c.job.seq → c.job.partition = part → c.job.key p ∈ late
  accepted : ∀ x ∈ s.accepted, x.proc = p → n < x.job.seq → x.job.partition = part → x.job.key p ∈ late
  rows : ∀ t ∈ s.tasks, .row t.id ∈ late → t.priority = 0 ∧ partitionOf t = part ∧
    ∀ u ∈ s.tasks, k = .row u.id → u.createdAt < t.createdAt
  queued : ∀ r, k ∈ s.handedKeys ∨ Ahead (· = k) (· ∈ late) ((s.procs r).held r)
  handed : Ahead (· = k) (· ∈ late) s.handedKeys

def Enters (p : P) (part : String) (late : Set (Key P)) (s : St P) (a : Action P) (k' : Key P) : Prop :=
  (∃ payload durable, a = .submit p part payload durable ∧ k' = .mem p ((s.procs p).seq + 1)) ∨
  ∃ i id now job, a = .store p i id now ∧ (s.procs p).calls[i]? = some ⟨job, .numbered⟩ ∧
    job.key p ∈ late ∧ id ∉ s.tasks.map TaskQueue.Task.id ∧ k' = .row id

variable {late : Set (Key P)}

omit [DecidableEq P] in
theorem Enters.not_knows {k' : Key P} (h : Enters p part late s a k') : ¬s.Knows k' := by
  rcases h with ⟨payload, durable, -, rfl⟩ | ⟨i, id, now, job, -, -, -, hid, rfl⟩
  · exact Nat.not_succ_le_self _
  · exact hid

theorem Enters.knows {k' : Key P} (h : Enters p part late s a k')
    (hmove : Moved S s a s') : s'.Knows k' := by
  rcases h with ⟨payload, durable, rfl, rfl⟩ | ⟨i, id, now, job, rfl, hcall, -, hid, rfl⟩
  · cases hmove
    change _ ≤ (Function.update s.procs p _ p).seq
    rw [update_self]
  · cases hmove with
    | store _ hcall hid =>
      change id ∈ (submitTask _ _ _ _ _ _ _ _).map _
      rw [submitTask_of_new hid, map_append]
      exact mem_append_right _ mem_cons_self

theorem Behind.calls_step {n : ℕ} {k : Key P} (h : Behind p part n k late s) (hk : Known s)
    (hmove : Moved S s a s') :
    (∀ r, ∀ c ∈ (s'.procs r).calls, c.job.key r ∈ {k' | k' ∈ late ∨ Enters p part late s a k'} →
      r = p ∧ c.job.partition = part) ∧ ∀ c ∈ (s'.procs p).calls, n < c.job.seq → c.job.partition = part →
      c.job.key p ∈ {k' | k' ∈ late ∨ Enters p part late s a k'} := by
  have hfresh : ∀ {r i id now}, a = .store r i id now → id ∉ s.tasks.map TaskQueue.Task.id := by
    rintro r i id now rfl
    cases hmove with
    | store _ _ hid => exact hid
  constructor
  · intro r c hc hmem
    rcases hmove.calls r hc with hold | ⟨partition, payload, durable, hact, hjob, -⟩ |
      ⟨i, id, now, job, hact, hcall, rfl⟩ | ⟨i, job, -, hcall, hnew⟩
    · exact h.calls r c hold (hmem.resolve_right fun henters => henters.not_knows (hk.calls r c hold))
    · rw [hjob, key_of_none rfl] at hmem
      rw [hjob]
      rcases hmem with hold | ⟨payload', durable', hact', -⟩ | ⟨i, id, now, job, hact', -⟩
      · exact absurd (h.known _ hold) (Nat.not_succ_le_self _)
      · rw [hact] at hact'
        cases hact'
        exact ⟨rfl, rfl⟩
      · rw [hact] at hact'
        cases hact'
    · rw [key_of_taskId (i := id) rfl] at hmem
      rcases hmem with hold | ⟨payload', durable', hact', -⟩ | ⟨i', id', now', job', hact', hcall', hjob, -⟩
      · exact absurd (h.known _ hold) (hfresh hact)
      · rw [hact] at hact'
        cases hact'
      · rw [hact] at hact'
        cases hact'
        rw [hcall] at hcall'
        cases hcall'
        have hold := h.calls _ _ (mem_of_getElem? hcall) hjob
        exact hold
    · have hold := mem_of_getElem? hcall
      have hjob : c.job = job := by rcases hnew with rfl | ⟨rfl, -⟩ <;> rfl
      rw [hjob] at hmem ⊢
      exact h.calls r _ hold (hmem.resolve_right fun henters => henters.not_knows (hk.calls r _ hold))
  · intro c hc hn hpart
    rcases hmove.calls p hc with hold | ⟨partition, payload, durable, hact, hjob, -⟩ |
      ⟨i, id, now, job, hact, hcall, rfl⟩ | ⟨i, job, -, hcall, hnew⟩
    · exact .inl (h.submitted c hold hn hpart)
    · rw [hjob] at hpart ⊢
      exact .inr (.inl ⟨payload, durable, hpart ▸ hact, rfl⟩)
    · have hold := h.submitted _ (mem_of_getElem? hcall) hn hpart
      exact .inr (.inr ⟨i, id, now, job, hact, hcall, hold, hfresh hact, rfl⟩)
    · have hjob : c.job = job := by rcases hnew with rfl | ⟨rfl, -⟩ <;> rfl
      rw [hjob] at hn hpart ⊢
      exact .inl (h.submitted _ (mem_of_getElem? hcall) hn hpart)

theorem Behind.step {n : ℕ} {x : Accepted P} (h : Behind p part n (x.job.key p) late s) (hk : Known s)
    (hplaced : Placed S p part s) (hx : x ∈ s.accepted) (hproc : x.proc = p)
    (hpart : x.job.partition = part) (hok : FirstCome S p part s a) (hmove : Moved S s a s') :
    Behind p part n (x.job.key p) {k' | k' ∈ late ∨ Enters p part late s a k'} s' := by
  obtain ⟨hcalls, hsubmitted⟩ := h.calls_step hk hmove
  have hlate : ∀ {k'}, s.Knows k' → k' ∈ {k' | k' ∈ late ∨ Enters p part late s a k'} → k' ∈ late :=
    fun hknown hmem => hmem.elim (fun hk => hk) fun henters => absurd hknown henters.not_knows
  have hheld : ∀ r, ∀ k' ∈ (s.procs r).held r, s.Knows k' := by
    intro r k' hk'
    obtain ⟨j, hj, rfl⟩ := mem_map.1 hk'
    exact hk.work r j (mem_append_left _ hj)
  refine ⟨fun k' hk' => ?_, hmove.knows h.first, fun hmem => h.notMem (hlate h.first hmem), hcalls,
    hsubmitted, fun y hy hyproc hyn hypart => ?_, fun t ht htl => ?_, fun r => ?_, ?_⟩
  · exact hk'.elim (fun hold => hmove.knows (h.known k' hold)) fun henters => henters.knows hmove
  · rcases hmove.accepts hy with hold | ⟨i, -, hcall, -⟩ | ⟨i, -, hcall, -⟩
    · exact .inl (h.accepted y hold hyproc hyn hypart)
    · exact .inl (h.submitted _ (hyproc ▸ mem_of_getElem? hcall) hyn hypart)
    · exact .inl (h.submitted _ (hyproc ▸ mem_of_getElem? hcall) hyn hypart)
  · rcases hmove.tasks with htasks | ⟨r, i, id, now, job, rfl, hcall, hid, htasks⟩ | ⟨id, honly, hkept, -⟩
    · rw [htasks] at ht ⊢
      exact h.rows t ht (hlate (mem_map_of_mem ht) htl)
    · rw [htasks] at ht ⊢
      -- the first job has another row
      have hfirst : ∀ u ∈ s.tasks ++ [TaskQueue.newTask S.backend id S.cfg.name none
          (envelope job.partition job.payload) 0 now], x.job.key p = .row u.id → u ∈ s.tasks := by
        intro u hu hkey
        rcases mem_append.1 hu with hu | hu
        · exact hu
        · have hknown := h.first
          rw [hkey, mem_singleton.1 hu] at hknown
          exact absurd hknown hid
      rcases mem_append.1 ht with ht | ht
      · obtain ⟨hpriority, htpart, hcreated⟩ := h.rows t ht (hlate (mem_map_of_mem ht) htl)
        exact ⟨hpriority, htpart, fun u hu hkey => hcreated u (hfirst u hu hkey) hkey⟩
      · rw [mem_singleton.1 ht] at htl ⊢
        rcases htl with hold | ⟨_, _, hact, -⟩ | ⟨i', id', now', job', hact, hcall', hjob, -⟩
        · exact absurd (h.known _ hold) hid
        · cases hact
        · cases hact
          rw [hcall] at hcall'
          cases hcall'
          have hjpart := (h.calls p _ (mem_of_getElem? hcall) hjob).2
          exact ⟨rfl, hjpart, fun u hu hkey => hok rfl job hcall hjpart u (hfirst u hu hkey)⟩
    · obtain ⟨t₀, ht₀, htid, htpriority, htpayload, htcreated⟩ := hkept.row t ht
      rw [htid] at htl
      obtain ⟨hpriority, htpart, hcreated⟩ := h.rows t₀ ht₀ (hlate (mem_map_of_mem ht₀) htl)
      refine ⟨htpriority.trans hpriority, ?_, fun u hu hkey => ?_⟩
      · rwa [partitionOf, htpayload]
      · obtain ⟨u₀, hu₀, huid, -, -, hucreated⟩ := hkept.row u hu
        rw [hucreated, htcreated]
        exact hcreated u₀ hu₀ (huid ▸ hkey)
  · rcases h.queued r with hdone | hahead
    · exact .inl (hmove.handedKeys_mono hdone)
    have hahead : Ahead (· = x.job.key p) (· ∈ {k' | k' ∈ late ∨ Enters p part late s a k'})
        ((s.procs r).held r) := hahead.mono fun k' hk' => hlate (hheld r k' hk')
    rcases hmove.held r with hsame | ⟨i, job, rfl, hcall, hcap, hheld'⟩ |
      ⟨now, locked, id, rfl, hid, hpicks, hheld'⟩ | ⟨hhanded, hheld'⟩ | hnone
    · exact .inr (hsame ▸ hahead)
    · rw [hheld', ahead_append]
      by_cases hjob : job.key r ∈ {k' | k' ∈ late ∨ Enters p part late s (.send r i) k'}
      · have hold := mem_of_getElem? hcall
        obtain ⟨rfl, hjpart⟩ := h.calls r _ hold (hlate (hk.calls r _ hold) hjob)
        obtain ⟨hstore, hworkers⟩ := hok rfl job hcall hjpart hcap
        rcases hplaced.ahead_of_send hx hproc hpart hstore hworkers with hdone | hmem
        · exact .inl (hmove.handedKeys_mono hdone)
        · exact .inr ⟨hahead, .inl ⟨_, hmem, rfl⟩⟩
      · exact .inr ⟨hahead, .inr ⟨hjob, .inr trivial⟩⟩
    · rw [Proc.held, map_append, ahead_append] at hahead
      rw [hheld', ahead_append]
      by_cases hrow : Key.row id ∈ {k' | k' ∈ late ∨ Enters p part late s (.claim r now locked id) k'}
      · have hrows : ∀ t ∈ s.tasks, t.id = id → t.priority = 0 ∧ partitionOf t = part ∧
            ∀ u ∈ s.tasks, x.job.key p = .row u.id → u.createdAt < t.createdAt :=
          fun t ht hti => h.rows t ht (hti ▸ @hlate (.row id) hid hrow)
        obtain ⟨t, ht, hti⟩ := mem_map.1 hid
        obtain ⟨hlocked, hchannel, hworkers⟩ := hok t ht hti (hrows t ht hti).2.1
        rcases hplaced.ahead_of_claim hx hproc hpart hpicks hlocked hchannel hworkers fun t ht hti =>
          ⟨(hrows t ht hti).1, (hrows t ht hti).2.2⟩ with hdone | hmem
        · exact .inl (hmove.handedKeys_mono hdone)
        · exact .inr ⟨hahead.1, .inl ⟨_, hmem, rfl⟩⟩
      · exact .inr ⟨hahead.1, hahead.2.imp_right fun hrest => ⟨hrow, .inr hrest⟩⟩
    · rw [Proc.held, map_append, ahead_append] at hahead
      rcases hahead.2 with ⟨k', hk', rfl⟩ | hrest
      · refine .inl ?_
        rw [hhanded]
        exact mem_append_right _ hk'
      · exact .inr (hheld' ▸ hrest)
    · exact .inr (hnone ▸ trivial)
  · -- what is handed over had been queued behind the first job
    have hmono : Ahead (· = x.job.key p) (· ∈ {k' | k' ∈ late ∨ Enters p part late s a k'})
        s.handedKeys := h.handed.mono fun k' hk' => hlate (hk.handed k' hk')
    rcases hmove.handed_eq with hsame | ⟨r, happend⟩
    · rwa [hsame]
    · rw [happend, ahead_append]
      refine ⟨hmono, ?_⟩
      rcases h.queued r with hdone | hahead
      · exact .inl ⟨_, hdone, rfl⟩
      · rw [Proc.held, map_append, ahead_append] at hahead
        refine .inr (hahead.1.mono fun k' hk' => hlate (hheld r k' ?_))
        rw [Proc.held, map_append]
        exact mem_append_left _ hk'

/-! ### Every run -/

omit [DecidableEq P] in
theorem Start.known (h : Start S s) : Known s := by
  have hcalls : ∀ r, (s.procs r).calls = [] := fun r => by rw [h.procs]; rfl
  refine ⟨fun r c hc => ?_, fun r j hj => ?_, fun k hk => ?_, fun r c hc => ?_, fun r c hc => ?_, fun x hx => ?_⟩
  · rw [hcalls] at hc
    cases hc
  · rw [h.work] at hj
    cases hj
  · rw [St.handedKeys, h.handed] at hk
    cases hk
  · rw [hcalls] at hc
    cases hc
  · rw [hcalls] at hc
    cases hc
  · rw [h.accepted] at hx
    cases hx

omit [DecidableEq P] in
theorem Start.distinct (h : Start S s) : Distinct s := by
  have hcalls : ∀ r, (s.procs r).calls = [] := fun r => by rw [h.procs]; rfl
  refine ⟨fun r => ?_, fun r r' c hc => ?_⟩
  · rw [hcalls]
    exact nodup_nil
  · rw [hcalls] at hc
    cases hc

omit [DecidableEq P] in
theorem Start.placed (h : Start S s) (p : P) (part : String) : Placed S p part s := by
  have hcalls : (s.procs p).calls = [] := by rw [h.procs]; rfl
  refine ⟨fun c hc => ?_, fun c hc => ?_, fun x hx => ?_⟩
  · rw [hcalls] at hc
    cases hc
  · rw [hcalls] at hc
    cases hc
  · rw [h.accepted] at hx
    cases hx

structure Ordered (S : Setup P) (p : P) (part : String) (s : St P) : Prop where
  known : Known s
  distinct : Distinct s
  placed : Placed S p part s

theorem Ordered.step (h : Ordered S p part s) (hok : FirstCome S p part s a)
    (hmove : Moved S s a s') : Ordered S p part s' :=
  have hdistinct := h.distinct.step h.known hmove
  ⟨h.known.step hmove, hdistinct, h.placed.step h.known h.distinct hdistinct hok hmove⟩

omit [DecidableEq P] in
theorem Ordered.behind (h : Ordered S p part s) {x : Accepted P} (hx : x ∈ s.accepted)
    (hproc : x.proc = p) (hpart : x.job.partition = part) : Behind p part (s.procs p).seq (x.job.key p) ∅ s := by
  refine ⟨nofun, ?_, nofun, fun r c _ hmem => absurd hmem (Set.notMem_empty _), fun c hc hn => ?_,
    fun y hy hyproc hn => ?_, fun t _ hmem => absurd hmem (Set.notMem_empty _), fun r => .inr ?_, ?_⟩
  · rcases h.placed.accepted x hx hproc hpart with (hdone | hmem) | ⟨-, i, hi, hfound, -⟩
    · exact h.known.handed _ (mem_map.2 ⟨_, hdone, rfl⟩)
    · exact h.known.work p _ (mem_append_left _ hmem)
    · rw [key_of_taskId hi]
      exact hfound.mem_ids h.known
  · exact absurd (h.known.seq p c hc) (Nat.not_le.2 hn)
  · exact absurd (hyproc ▸ h.known.accepted y hy) (Nat.not_le.2 hn)
  · exact Precedence.ahead_of_forall_not fun _ _ => Set.notMem_empty _
  · exact Precedence.ahead_of_forall_not fun _ _ => Set.notMem_empty _

/-- **The order of hand-overs.**  In every run whose steps meet the condition for a partition: whenever a
job of the partition has been accepted before another was submitted, each hand-over of the second comes
after one of the first. -/
theorem handed_in_order {s₀ s₁ s₂ : St P} (hstart : Start S s₀)
    (h₁ : Runs.Reach (step S) (FirstCome S p part) s₀ s₁) (h₂ : Runs.Reach (step S) (FirstCome S p part) s₁ s₂) :
    ∀ x ∈ s₁.accepted, ∀ y ∈ s₂.accepted, x.proc = p → y.proc = p → x.job.partition = part →
      y.job.partition = part → (s₁.procs p).seq < y.job.seq →
      ∀ l r, s₂.handedKeys = l ++ y.job.key p :: r → x.job.key p ∈ l := by
  intro x hx y hy hxproc hyproc hxpart hypart hlater l r hsplit
  have hstart₁ : Ordered S p part s₀ := ⟨hstart.known, hstart.distinct, hstart.placed p part⟩
  have hordered : Ordered S p part s₁ := h₁.inv hstart₁ fun _ _ _ hi hok hstep =>
    hi.step hok (moved_of_step hstep)
  obtain ⟨-, -, late, hbehind⟩ : Ordered S p part s₂ ∧ x ∈ s₂.accepted ∧
      ∃ late, Behind p part (s₁.procs p).seq (x.job.key p) late s₂ :=
    h₂.inv (I := fun s => Ordered S p part s ∧ x ∈ s.accepted ∧
        ∃ late, Behind p part (s₁.procs p).seq (x.job.key p) late s)
      ⟨hordered, hx, ∅, hordered.behind hx hxproc hxpart⟩ fun _ _ _ hi hok hstep => by
        obtain ⟨hord, hacc, late, hbehind⟩ := hi
        have hmove := moved_of_step hstep
        exact ⟨hord.step hok hmove, hmove.accepted x hacc, _,
          hbehind.step hord.known hord.placed hacc hxproc hxpart hok hmove⟩
  obtain ⟨k, hk, rfl⟩ := Precedence.ahead_iff.1 hbehind.handed l _ r hsplit (hbehind.accepted y hy hyproc hlater hypart)
  exact hk

end Order

/-- Two jobs of a partition, one after the other through the channel. -/
theorem handed_in_order_channel : ∃ s₁ s₂,
    Runs.Reach (step (lone .sqlite)) (FirstCome (lone .sqlite) () "docs") nothingYet s₁ ∧
    Runs.Reach (step (lone .sqlite)) (FirstCome (lone .sqlite) () "docs") s₁ s₂ ∧
    ∃ x ∈ s₁.accepted, ∃ y ∈ s₂.accepted, s₂.handedKeys.count (y.job.key ()) = 1 ∧
      ∀ l r, s₂.handedKeys = l ++ y.job.key () :: r → x.job.key () ∈ l := by
  have hfirst : ∀ {s : St Unit} {i : ℕ}, s.accepted.all (fun a => !a.spilled) = true →
      FirstCome (lone .sqlite) () "docs" s (.send () i) := by
    intro s i hnone _ job _ _ _
    refine ⟨fun a ha _ hspill => ?_, fun r hr => absurd rfl hr⟩
    have := all_eq_true.1 hnone a ha
    rw [hspill] at this
    cases this
  have h₁ := (Runs.Reach.init : Runs.Reach (step (lone .sqlite))
      (FirstCome (lone .sqlite) () "docs") nothingYet nothingYet).step
    (Action.submit () "docs" .null false) trivial rfl
  have h₂ := h₁.step (Action.send () 0) (hfirst rfl) rfl
  have h := h₂.step (Action.mark () 0) trivial rfl
  have k₁ := (reach_from h).step (Action.submit () "docs" .null false) trivial rfl
  have k₂ := k₁.step (Action.send () 0) (hfirst rfl) rfl
  have k₃ := k₂.step (Action.mark () 0) trivial rfl
  have k₄ := k₃.step (Action.close ()) trivial rfl
  have k₅ := k₄.step (Action.recv ()) trivial rfl
  have k₆ := k₅.step (Action.recv ()) trivial rfl
  have k₇ := k₆.step (Action.close ()) trivial rfl
  have k := k₇.step (Action.handle () true) trivial rfl
  exact ⟨_, _, h, k, _, mem_cons_self, _, mem_cons_of_mem _ mem_cons_self, rfl,
    handed_in_order (start_nothingYet _) h k _ mem_cons_self _
      (mem_cons_of_mem _ mem_cons_self) rfl rfl rfl rfl (Nat.lt_succ_self _)⟩

/-- **A job that overflows is overtaken.**  So is one that waits in the channel, by a row that is claimed
meanwhile.  No handler fails, and no worker stops. -/
theorem handed_out_of_order : (∃ s₁ s₂, Runs.Reach (step narrow) Undisturbed nothingYet s₁ ∧
      Runs.Reach (step narrow) Undisturbed s₁ s₂ ∧
      ∃ x ∈ s₁.accepted, ∃ y ∈ s₂.accepted, x.job.partition = "docs" ∧ y.job.partition = "docs" ∧
        (s₁.procs ()).seq < y.job.seq ∧ ∃ l, s₂.handedKeys = l ++ [y.job.key (), x.job.key ()] ∧ x.job.key () ∉ l) ∧
    ∃ s₁ s₂, Runs.Reach (step (lone .sqlite)) Undisturbed nothingYet s₁ ∧
      Runs.Reach (step (lone .sqlite)) Undisturbed s₁ s₂ ∧
      ∃ x ∈ s₁.accepted, ∃ y ∈ s₂.accepted, x.job.partition = "docs" ∧ y.job.partition = "docs" ∧
        (s₁.procs ()).seq < y.job.seq ∧ s₂.handedKeys = [y.job.key ()] ∧ x.job.key () ∉ s₂.handedKeys := by
  constructor
  · have h := (Runs.Reach.init : Runs.Reach (step narrow) Undisturbed nothingYet nothingYet).run
      [.close (), .submit () "logs" .null false, .send () 0, .mark () 0,
       .submit () "docs" .null true, .store () 0 7 100, .send () 0] rfl
    have k := (reach_from h).run [.recv (), .close (), .handle () true,
      .submit () "docs" .null false, .send () 0, .mark () 0, .settle () 101, .finish (), .recv (),
      .close (), .handle () true, .settle () 102, .finish (), .poll (), .claim () 103 [] 7,
      .close (), .handle () true] rfl
    exact ⟨_, _, h, k, _, mem_cons_of_mem _ mem_cons_self, _,
      mem_cons_of_mem _ (mem_cons_of_mem _ mem_cons_self), rfl, rfl, Nat.lt_succ_self _,
      [.mem () 1], rfl, count_eq_zero.1 rfl⟩
  · have h := (Runs.Reach.init : Runs.Reach (step (lone .sqlite)) Undisturbed nothingYet nothingYet).run
      [.submit () "docs" .null false, .send () 0, .mark () 0] rfl
    have k := (reach_from h).run [.submit () "docs" .null true, .store () 0 7 100,
      .claim () 101 [] 7, .send () 0, .mark () 0, .close (), .handle () true] rfl
    exact ⟨_, _, h, k, _, mem_cons_self, _, mem_cons_of_mem _ mem_cons_self, rfl, rfl,
      Nat.lt_succ_self _, rfl, count_eq_zero.1 rfl⟩

end DurableQueue
