/-
**What a barrier waits for.**

`barrier` reads the marks of what has been submitted and waits until the marks of what has been
attempted have caught up.
-/

import Pensieve.QueueDelivery

namespace DurableQueue

open Function
open List
open Catalog (Backend)
open TaskQueue (TaskId NodeId Timestamp)

variable {P : Type} [DecidableEq P]

def Proc.jobs (q : Proc) : List Job := q.phase.jobs ++ q.channel

/-- **The condition on the steps.**  A job of the partition is put into the channel behind jobs with
smaller numbers only, before any later number has been attempted; and no row of the partition is claimed
while jobs of it wait in the channel. -/
def InTurn (S : Setup P) (p : P) (part : String) (s : St P) : Action P → Prop
  | .send r i => r = p → ∀ job, (s.procs p).calls[i]? = some ⟨job, .ready⟩ → job.partition = part →
      (s.procs p).channel.length < S.cfg.channelCap → (s.procs p).attempted part < job.seq ∧
        ∀ j ∈ (s.procs p).jobs, j.partition = part → j.seq < job.seq
  | .claim r _ _ id => r = p → ∀ t ∈ s.tasks, t.id = id → (openEnvelope t.payload).1 = part →
      ∀ j ∈ (s.procs p).channel, j.partition ≠ part
  | _ => True

/-! ### The invariant -/

def Covered (p : P) (s : St P) (job : Job) : Prop :=
  (p, job) ∈ s.handed ∨ job ∈ (s.procs p).phase.batch ++ (s.procs p).channel ∨
    (s.procs p).phase = .stopped ∧ (s.procs p).attempted job.partition < job.seq

structure Turn (p : P) (part : String) (s : St P) : Prop where
  calls : ∀ c ∈ (s.procs p).calls, c.job.seq ≤ (s.procs p).seq
  attempted : (s.procs p).attempted part ≤ (s.procs p).seq
  ahead : ∀ j ∈ (s.procs p).jobs, j.partition = part → (s.procs p).attempted part < j.seq ∧ j.seq ≤ (s.procs p).seq
  sorted : (s.procs p).jobs.Pairwise fun i j => i.partition = part → j.partition = part → i.seq < j.seq
  sent : ∀ c ∈ (s.procs p).calls, c.stage = .sent → c.job.partition = part → Covered p s c.job
  accepted : ∀ a ∈ s.accepted, a.proc = p → a.spilled = false → a.job.partition = part →
    Covered p s a.job ∧ a.job.seq ≤ (s.procs p).submitted part

theorem le_raise (marks : String → ℕ) (job : Job) (part : String) : marks part ≤ raise marks job part := by
  rw [raise]
  by_cases hp : part = job.partition
  · subst hp
    rw [update_self]
    exact le_max_left _ _
  · rw [update_of_ne hp]

theorem seq_le_raise (marks : String → ℕ) (job : Job) : job.seq ≤ raise marks job job.partition := by
  rw [raise, update_self]
  exact le_max_right _ _

theorem raise_lt {marks : String → ℕ} {job : Job} {part : String} {n : ℕ} (h : marks part < n)
    (hjob : job.partition = part → job.seq < n) : raise marks job part < n := by
  rw [raise]
  by_cases hp : part = job.partition
  · subst hp
    rw [update_self]
    exact max_lt h (hjob rfl)
  · rwa [update_of_ne hp]

theorem foldl_raise_lt {batch : List Job} {part : String} {n : ℕ}
    (hjobs : ∀ job ∈ batch, job.partition = part → job.seq < n) {marks : String → ℕ}
    (h : marks part < n) : batch.foldl raise marks part < n := by
  induction batch generalizing marks with
  | nil => exact h
  | cons job batch ih =>
    exact ih (fun j hj => hjobs j (mem_cons_of_mem _ hj)) (raise_lt h (hjobs job mem_cons_self))

theorem batch_sub_jobs (phase : Phase) : ∀ job ∈ phase.batch, job ∈ phase.jobs := by
  intro job hjob
  cases phase with
  | idle | leaving | stopped
  | collecting batch | claiming batch | draining batch | handling _ batch _ => exact hjob
  | settling _ _ _ _ => cases hjob

theorem open_jobs {phase : Phase} {source : Source} {batch : List Job}
    (h : phase.open? = some (source, batch)) : phase.jobs = batch := by
  cases phase with
  | collecting b | claiming b | draining b =>
    simp only [Phase.open?, Option.some_inj, Prod.mk.injEq] at h
    exact h.2
  | idle | handling _ _ _ | settling _ _ _ _ | leaving | stopped => cases h

theorem closed_jobs (source : Source) (batch : List Job) :
    (if batch.isEmpty then source.exit else .handling source batch 0).jobs = batch := by
  cases batch with
  | nil => cases source <;> rfl
  | cons job batch => rfl

theorem next_jobs (source : Source) : source.next.jobs = [] := by
  cases source <;> rfl

theorem afterHandle_jobs (maxRetries : ℕ) (source : Source) (batch : List Job) (attempt : ℕ)
    (ok : Bool) : (afterHandle maxRetries source batch attempt ok).jobs = batch := by
  rw [afterHandle]
  split_ifs <;> rfl

section Steps

variable {S : Setup P} {s s' : St P} {a : Action P} {p : P} {part : String} {q : Proc}

theorem covered_of (hprocs : s'.procs = Function.update s.procs p q) (hhanded : ∀ e ∈ s.handed, e ∈ s'.handed)
    (hwork : ∀ j ∈ (s.procs p).phase.batch ++ (s.procs p).channel, j ∈ q.phase.batch ++ q.channel ∨ (p, j) ∈ s'.handed)
    (hstopped : (s.procs p).phase = .stopped → q.phase = .stopped ∧
      q.attempted = (s.procs p).attempted) (job : Job) (h : Covered p s job) : Covered p s' job := by
  have hq : s'.procs p = q := by rw [hprocs, update_self]
  rw [Covered, hq]
  rcases h with hdone | hjob | ⟨hphase, hlt⟩
  · exact .inl (hhanded _ hdone)
  · exact (hwork job hjob).elim (fun hkept => .inr (.inl hkept)) .inl
  · obtain ⟨hstop, hsame⟩ := hstopped hphase
    exact .inr (.inr ⟨hstop, hsame ▸ hlt⟩)

theorem Turn.of_jobs (h : Turn p part s) (hprocs : s'.procs = Function.update s.procs p q)
    (hseq : (s.procs p).seq ≤ q.seq) (hjobs : q.jobs = (s.procs p).jobs)
    (hattempted : q.attempted = (s.procs p).attempted) (hcalls : ∀ c ∈ q.calls, c.job.seq ≤ q.seq)
    (hcovered : ∀ job, Covered p s job → Covered p s' job)
    (hsent : ∀ c ∈ q.calls, c.stage = .sent → c ∈ (s.procs p).calls)
    (hsubmitted : (s.procs p).submitted part ≤ q.submitted part)
    (haccepted : ∀ x ∈ s'.accepted, x ∈ s.accepted ∨ x.spilled = true ∨
      (x.job.partition = part → Covered p s x.job ∧ x.job.seq ≤ q.submitted part)) : Turn p part s' := by
  have hq : s'.procs p = q := by rw [hprocs, update_self]
  refine ⟨hq ▸ hcalls, ?_, ?_, ?_, fun c hc hstage hpart => ?_, fun x hx hproc hspill hpart => ?_⟩
  · rw [hq, hattempted]
    exact h.attempted.trans hseq
  · rw [hq, hattempted, hjobs]
    exact fun j hj hpart => ⟨(h.ahead j hj hpart).1, (h.ahead j hj hpart).2.trans hseq⟩
  · rw [hq, hjobs]
    exact h.sorted
  · rw [hq] at hc
    exact hcovered _ (h.sent c (hsent c hc hstage) hstage hpart)
  · rw [hq]
    rcases haccepted x hx with hold | hspilled | hnew
    · obtain ⟨hcov, hle⟩ := h.accepted x hold hproc hspill hpart
      exact ⟨hcovered _ hcov, hle.trans hsubmitted⟩
    · rw [hspill] at hspilled
      cases hspilled
    · exact ⟨hcovered _ (hnew hpart).1, (hnew hpart).2⟩

theorem Turn.of_worker (h : Turn p part s) {phase : Phase} {channel : List Job}
    (hprocs : s'.procs = Function.update s.procs p { s.procs p with phase := phase, channel := channel })
    (hopen : (s.procs p).phase ≠ .stopped) (hjobs : phase.jobs ++ channel = (s.procs p).jobs)
    (hhanded : ∀ e ∈ s.handed, e ∈ s'.handed) (haccepted : s'.accepted = s.accepted)
    (hwork : ∀ j ∈ (s.procs p).phase.batch ++ (s.procs p).channel,
      j ∈ phase.batch ++ channel ∨ (p, j) ∈ s'.handed) : Turn p part s' :=
  h.of_jobs hprocs le_rfl hjobs rfl h.calls
    (covered_of hprocs hhanded hwork fun hstop => absurd hstop hopen) (fun _ hc _ => hc) le_rfl
    fun _ hx => .inl (haccepted ▸ hx)

theorem Turn.of_call (h : Turn p part s) {i : ℕ} {c c' : Call} (hcall : (s.procs p).calls[i]? = some c)
    (hprocs : s'.procs = Function.update s.procs p { s.procs p with calls := (s.procs p).calls.set i c' })
    (hseq : c'.job.seq = c.job.seq) (hstage : c'.stage ≠ .sent) (hhanded : s'.handed = s.handed) (haccepted : s'.accepted = s.accepted) : Turn p part s' := by
  refine h.of_jobs hprocs le_rfl rfl rfl (fun c₀ hc => ?_)
    (covered_of hprocs (fun _ he => hhanded ▸ he) (fun _ hj => .inl hj) fun hphase => ⟨hphase, rfl⟩)
    (fun c₀ hc hsent => ?_) le_rfl fun x hx => .inl (haccepted ▸ hx)
  · rcases mem_or_eq_of_mem_set hc with hc | rfl
    · exact h.calls c₀ hc
    · exact hseq.le.trans (h.calls c (mem_of_getElem? hcall))
  · rcases mem_or_eq_of_mem_set hc with hc | rfl
    · exact hc
    · exact absurd hsent hstage

theorem Turn.of_sent (h : Turn p part s) {i : ℕ} {job : Job}
    (hcall : (s.procs p).calls[i]? = some ⟨job, .ready⟩) (hopen : (s.procs p).phase ≠ .stopped)
    (hturn : job.partition = part → (s.procs p).attempted part < job.seq ∧
      ∀ j ∈ (s.procs p).jobs, j.partition = part → j.seq < job.seq) :
    Turn p part (s.setProc p { s.procs p with
      channel := (s.procs p).channel ++ [job]
      calls := (s.procs p).calls.set i ⟨job, .sent⟩ }) := by
  set q : Proc := { s.procs p with
    channel := (s.procs p).channel ++ [job]
    calls := (s.procs p).calls.set i ⟨job, .sent⟩ }
  have hq : (s.setProc p q).procs p = q := update_self ..
  have hjobs : q.jobs = (s.procs p).jobs ++ [job] := (append_assoc ..).symm
  have hle : job.seq ≤ (s.procs p).seq := h.calls _ (mem_of_getElem? hcall)
  have hcovered : ∀ j, Covered p s j → Covered p (s.setProc p q) j := by
    refine covered_of rfl (fun _ => id) (fun j hj => .inl ?_) fun hstop => absurd hstop hopen
    change j ∈ _ ++ ((s.procs p).channel ++ [job])
    rw [← append_assoc]
    exact mem_append_left _ hj
  refine ⟨fun c hc => ?_, ?_, ?_, ?_, fun c hc hstage hpart => ?_, fun x hx hproc hspill hpart => ?_⟩
  · rw [hq] at hc ⊢
    rcases mem_or_eq_of_mem_set hc with hc | rfl
    · exact h.calls c hc
    · exact hle
  · rw [hq]
    exact h.attempted
  · rw [hq, hjobs]
    intro j hj hpart
    rcases mem_append.1 hj with hj | hj
    · exact h.ahead j hj hpart
    · rw [mem_singleton.1 hj] at hpart ⊢
      exact ⟨(hturn hpart).1, hle⟩
  · rw [hq, hjobs]
    refine pairwise_append.2 ⟨h.sorted, pairwise_singleton _ _, fun i hi j hj hipart hjpart => ?_⟩
    rw [mem_singleton.1 hj] at hjpart ⊢
    exact (hturn hjpart).2 i hi hipart
  · rw [hq] at hc
    rcases mem_or_eq_of_mem_set hc with hold | rfl
    · exact hcovered _ (h.sent c hold hstage hpart)
    · rw [Covered, hq]
      exact .inr (.inl (mem_append_right _ (mem_append_right _ mem_cons_self)))
  · rw [hq]
    exact (h.accepted x hx hproc hspill hpart).imp_left (hcovered _)

theorem Turn.of_claimed (h : Turn p part s) {job : Job} {batch : List Job} {tasks : List Row}
    (hphase : (s.procs p).phase = .claiming batch) (hjob : job.seq = (s.procs p).seq + 1)
    (hfree : job.partition = part → ∀ j ∈ (s.procs p).channel, j.partition ≠ part) :
    Turn p part { s.setProc p { s.procs p with
        seq := (s.procs p).seq + 1, phase := .claiming (batch ++ [job]) } with tasks := tasks } := by
  set q : Proc := { s.procs p with seq := (s.procs p).seq + 1, phase := .claiming (batch ++ [job]) }
  have hq : (s.setProc p q).procs p = q := update_self ..
  have hjobs : (s.procs p).jobs = batch ++ (s.procs p).channel := by
    rw [Proc.jobs, hphase]
    rfl
  have hjobs' : q.jobs = batch ++ job :: (s.procs p).channel := append_assoc ..
  have hahead := h.ahead
  have hsorted := h.sorted
  rw [hjobs] at hahead hsorted
  obtain ⟨hsortedBatch, hsortedChannel, hbetween⟩ := pairwise_append.1 hsorted
  have hcovered : ∀ j, Covered p s j → Covered p { s.setProc p q with tasks := tasks } j := by
    refine covered_of rfl (fun _ => id) (fun j hj => .inl ?_) fun hstop => ?_
    · rw [hphase] at hj
      rcases mem_append.1 hj with hj | hj
      · exact mem_append_left _ (mem_append_left _ hj)
      · exact mem_append_right _ hj
    · rw [hphase] at hstop
      cases hstop
  refine ⟨fun c hc => ?_, ?_, ?_, ?_, fun c hc hstage hpart => ?_, fun x hx hproc hspill hpart => ?_⟩
  · rw [hq] at hc ⊢
    exact (h.calls c hc).trans (Nat.le_succ _)
  · rw [hq]
    exact h.attempted.trans (Nat.le_succ _)
  · rw [hq, hjobs']
    intro j hj hpart
    rcases mem_append.1 hj with hj | hj
    · have hold := hahead j (mem_append_left _ hj) hpart
      exact ⟨hold.1, hold.2.trans (Nat.le_succ _)⟩
    · rcases mem_cons.1 hj with rfl | hj
      · exact ⟨hjob ▸ Nat.lt_succ_of_le h.attempted, hjob.le⟩
      · have hold := hahead j (mem_append_right _ hj) hpart
        exact ⟨hold.1, hold.2.trans (Nat.le_succ _)⟩
  · rw [hq, hjobs']
    refine pairwise_append.2 ⟨hsortedBatch, pairwise_cons.2 ⟨?_, hsortedChannel⟩, ?_⟩
    · intro j hj hpart hjpart
      exact absurd hjpart (hfree hpart j hj)
    · intro i hi j hj hipart hjpart
      rcases mem_cons.1 hj with rfl | hj
      · have hold := (hahead i (mem_append_left _ hi) hipart).2
        omega
      · exact hbetween i hi j hj hipart hjpart
  · rw [hq] at hc
    exact hcovered _ (h.sent c hc hstage hpart)
  · rw [hq]
    exact (h.accepted x hx hproc hspill hpart).imp_left (hcovered _)

theorem Turn.of_finished (h : Turn p part s) {source : Source} {batch : List Job} {ok : Bool}
    (hphase : (s.procs p).phase = .settling source batch [] ok) :
    Turn p part (s.setProc p { s.procs p with
      attempted := batch.foldl raise (s.procs p).attempted, phase := source.next }) := by
  set q : Proc := { s.procs p with
    attempted := batch.foldl raise (s.procs p).attempted, phase := source.next }
  have hq : (s.setProc p q).procs p = q := update_self ..
  have hjobs : (s.procs p).jobs = batch ++ (s.procs p).channel := by
    rw [Proc.jobs, hphase]
    rfl
  have hjobs' : q.jobs = (s.procs p).channel := congrArg (· ++ (s.procs p).channel) (next_jobs source)
  have hahead := h.ahead
  have hsorted := h.sorted
  rw [hjobs] at hahead hsorted
  obtain ⟨-, hsortedChannel, hbetween⟩ := pairwise_append.1 hsorted
  have hcovered : ∀ j, Covered p s j → Covered p (s.setProc p q) j := by
    refine covered_of rfl (fun _ => id) (fun j hj => .inl ?_) fun hstop => ?_
    · rw [hphase] at hj
      exact mem_append_right _ hj
    · rw [hphase] at hstop
      cases hstop
  refine ⟨fun c hc => ?_, ?_, ?_, ?_, fun c hc hstage hpart => ?_, fun x hx hproc hspill hpart => ?_⟩
  · rw [hq] at hc ⊢
    exact h.calls c hc
  · rw [hq]
    refine Nat.lt_succ_iff.1 (foldl_raise_lt (fun j hj hpart => ?_) (Nat.lt_succ_of_le h.attempted))
    exact Nat.lt_succ_of_le (hahead j (mem_append_left _ hj) hpart).2
  · rw [hq, hjobs']
    intro j hj hpart
    have hold := hahead j (mem_append_right _ hj) hpart
    exact ⟨foldl_raise_lt (fun i hi hipart => hbetween i hi j hj hipart hpart) hold.1, hold.2⟩
  · rw [hq, hjobs']
    exact hsortedChannel
  · rw [hq] at hc
    exact hcovered _ (h.sent c hc hstage hpart)
  · rw [hq]
    exact (h.accepted x hx hproc hspill hpart).imp_left (hcovered _)

theorem Turn.of_left (h : Turn p part s) (hphase : (s.procs p).phase = .leaving) :
    Turn p part (s.setProc p { s.procs p with phase := .stopped, channel := [] }) := by
  set q : Proc := { s.procs p with phase := .stopped, channel := [] }
  have hq : (s.setProc p q).procs p = q := update_self ..
  have hcovered : ∀ j, j.partition = part → Covered p s j → Covered p (s.setProc p q) j := by
    intro j hpart hj
    rw [Covered, hq]
    rcases hj with hdone | hjob | ⟨hstop, -⟩
    · exact .inl hdone
    · refine .inr (.inr ⟨rfl, hpart ▸ (h.ahead j ?_ hpart).1⟩)
      rw [hphase] at hjob
      rw [Proc.jobs, hphase]
      exact hjob
    · rw [hphase] at hstop
      cases hstop
  refine ⟨fun c hc => ?_, ?_, fun j hj => ?_, ?_, fun c hc hstage hpart => ?_, fun x hx hproc hspill hpart => ?_⟩
  · rw [hq] at hc ⊢
    exact h.calls c hc
  · rw [hq]
    exact h.attempted
  · rw [hq] at hj
    cases hj
  · rw [hq]
    exact List.Pairwise.nil
  · rw [hq] at hc
    exact hcovered _ hpart (h.sent c hc hstage hpart)
  · rw [hq]
    exact (h.accepted x hx hproc hspill hpart).imp_left (hcovered _ hpart)

theorem Turn.of_other (h : Turn p part s) (hmove : Moved S s a s') (hp : p ≠ a.proc) : Turn p part s' := by
  obtain ⟨hprocs, hhanded, haccepted⟩ := hmove.frame
  have hq := hprocs p hp
  have hcovered : ∀ job, Covered p s job → Covered p s' job := by
    intro job hjob
    rw [Covered, hq]
    exact hjob.imp_left (hhanded _)
  refine ⟨hq ▸ h.calls, hq ▸ h.attempted, hq ▸ h.ahead, hq ▸ h.sorted, fun c hc hstage hpart => ?_,
    fun x hx hproc hspill hpart => ?_⟩
  · rw [hq] at hc
    exact hcovered _ (h.sent c hc hstage hpart)
  · rw [hq]
    rcases haccepted x hx with hold | hnew
    · exact (h.accepted x hold hproc hspill hpart).imp_left (hcovered _)
    · exact absurd (hproc.symm.trans hnew) hp

theorem Turn.step (h : Turn p part s) (hok : InTurn S p part s a) (hmove : Moved S s a s') : Turn p part s' := by
  by_cases hp : p = a.proc
  case neg => exact h.of_other hmove hp
  have herase : ∀ i, ∀ c ∈ (s.procs p).calls.eraseIdx i, c.job.seq ≤ (s.procs p).seq := fun i c hc =>
    h.calls c (mem_of_mem_eraseIdx hc)
  cases hmove with
  | submit r partition payload durable =>
    subst hp
    refine h.of_jobs rfl (Nat.le_succ _) rfl rfl (fun c hc => ?_)
      (covered_of rfl (fun _ he => he) (fun _ hj => .inl hj) fun hphase => ⟨hphase, rfl⟩)
      (fun c hc hstage => ?_) le_rfl fun x hx => .inl hx
    · rcases mem_append.1 hc with hc | hc
      · exact (h.calls c hc).trans (Nat.le_succ _)
      · rw [mem_singleton.1 hc]
    · rcases mem_append.1 hc with hc | hc
      · exact hc
      · rw [mem_singleton.1 hc] at hstage
        simp only at hstage
        split at hstage <;> cases hstage
  | store _ hcall | refused hcall =>
    subst hp
    exact h.of_call hcall rfl rfl nofun rfl rfl
  | @sent r i job hcall hphase hcap =>
    subst hp
    exact h.of_sent hcall hphase fun hpart => hok rfl job hcall hpart hcap
  | @spilled r i job id hcall hfull hid =>
    subst hp
    refine h.of_jobs rfl le_rfl rfl rfl (herase i)
      (covered_of rfl (fun _ he => he) (fun _ hj => .inl hj) fun hphase => ⟨hphase, rfl⟩)
      (fun c hc _ => mem_of_mem_eraseIdx hc) le_rfl fun x hx => ?_
    rcases mem_append.1 hx with hx | hx
    · exact .inl hx
    · rw [mem_singleton.1 hx]
      exact .inr (.inl rfl)
  | @full r i job hcall hid | @retire r i job now hcall =>
    subst hp
    exact h.of_jobs rfl le_rfl rfl rfl (herase i)
      (covered_of rfl (fun _ he => he) (fun _ hj => .inl hj) fun hphase => ⟨hphase, rfl⟩)
      (fun c hc _ => mem_of_mem_eraseIdx hc) le_rfl fun x hx => .inl hx
  | @mark r i job hcall =>
    subst hp
    refine h.of_jobs rfl le_rfl rfl rfl (herase i)
      (covered_of rfl (fun _ he => he) (fun _ hj => .inl hj) fun hphase => ⟨hphase, rfl⟩)
      (fun c hc _ => mem_of_mem_eraseIdx hc) (le_raise _ job part) fun x hx => ?_
    rcases mem_append.1 hx with hx | hx
    · exact .inl hx
    · rw [mem_singleton.1 hx]
      refine .inr (.inr fun hpart => ⟨h.sent _ (mem_of_getElem? hcall) rfl hpart, ?_⟩)
      exact hpart ▸ seq_le_raise _ job
  | @recv r job rest phase hchannel hphase =>
    subst hp
    refine h.of_worker rfl (fun hstop => ?_) ?_ (fun _ => id) rfl fun j hj => .inl ?_
    · rw [hstop] at hphase
      cases hphase
    · rw [Proc.jobs, jobs_of_receive hphase, hchannel, append_assoc]
      rfl
    · rw [(receive_batch hphase).1, append_assoc]
      rwa [hchannel] at hj
  | @close r source batch hopen =>
    subst hp
    refine h.of_worker rfl (fun hstop => ?_) ?_ (fun _ => id) rfl fun j hj => .inl ?_
    · rw [hstop] at hopen
      cases hopen
    · rw [Proc.jobs, open_jobs hopen]
      exact congrArg (· ++ _) (closed_jobs source batch)
    · rw [(open_batch hopen).1] at hj
      rwa [(closed_batch source batch).1]
  | poll hphase | settle _ hphase | shutdown hphase =>
    subst hp
    refine h.of_worker rfl (hphase ▸ nofun) ?_ (fun _ => id) rfl fun j hj => .inl ?_
    · rw [Proc.jobs, hphase]
      rfl
    · rw [hphase] at hj
      exact hj
  | @claim r batch task now locked hphase htask hpicks =>
    subst hp
    exact h.of_claimed hphase rfl (hok rfl task htask rfl)
  | handle ok hphase =>
    subst hp
    refine h.of_worker rfl (hphase ▸ nofun) ?_ (fun _ => mem_append_left _) rfl fun j hj => ?_
    · rw [Proc.jobs, hphase, afterHandle_jobs]
      rfl
    · rw [hphase] at hj
      rcases mem_append.1 hj with hj | hj
      · exact .inr (mem_append_right _ (mem_map_of_mem hj))
      · exact .inl (mem_append_right _ hj)
  | finish hphase =>
    subst hp
    exact h.of_finished hphase
  | leave hphase =>
    subst hp
    exact h.of_left hphase

/-! ### Every run -/

omit [DecidableEq P] in
theorem Start.turn (h : Start S s) (p : P) (part : String) : Turn p part s := by
  have hcalls : (s.procs p).calls = [] := by rw [h.procs]; rfl
  have hjobs : (s.procs p).jobs = [] := by
    rw [Proc.jobs, h.procs, Proc.start]
    split <;> rfl
  refine ⟨fun c hc => ?_, ?_, fun j hj => ?_, ?_, fun c hc => ?_, fun a ha => ?_⟩
  · rw [hcalls] at hc
    cases hc
  · rw [h.procs]
    exact le_rfl
  · rw [hjobs] at hj
    cases hj
  · rw [hjobs]
    exact List.Pairwise.nil
  · rw [hcalls] at hc
    cases hc
  · rw [h.accepted] at ha
    cases ha

theorem Moved.accepted (h : Moved S s a s') : ∀ x ∈ s.accepted, x ∈ s'.accepted := by
  cases h with
  | submit | store | refused | sent | full | retire | recv | close | poll | claim | settle | finish |
    shutdown | leave | handle => exact fun _ hx => hx
  | spilled | mark => exact fun _ hx => mem_append_left _ hx

/-- **What a barrier covers.**  Suppose that the jobs of a partition come in the order of their numbers.
When a barrier that waits for the partition returns, each of its jobs that the channel had accepted
before the barrier was called has been handed over. -/
theorem barrier_covers {s₀ s₁ s₂ : St P} {partitions : List String}
    (hstart : Start S s₀) (h₁ : Runs.Reach (step S) (InTurn S p part) s₀ s₁)
    (h₂ : Runs.Reach (step S) (InTurn S p part) s₁ s₂)
    (hbarrier : Reached partitions (s₁.procs p).submitted (s₂.procs p)) (hpart : partitions = [] ∨ part ∈ partitions) :
    ∀ a ∈ s₁.accepted, a.proc = p → a.spilled = false → a.job.partition = part → (p, a.job) ∈ s₂.handed := by
  have hinv₁ : Turn p part s₁ := h₁.inv (hstart.turn p part) fun _ _ _ hi hok hstep =>
    hi.step hok (moved_of_step hstep)
  obtain ⟨hinv₂, hkept⟩ : Turn p part s₂ ∧ ∀ x ∈ s₁.accepted, x ∈ s₂.accepted :=
    h₂.inv (I := fun s => Turn p part s ∧ ∀ x ∈ s₁.accepted, x ∈ s.accepted)
      ⟨hinv₁, fun _ hx => hx⟩ fun _ _ _ hi hok hstep => by
        have hmove := moved_of_step hstep
        exact ⟨hi.1.step hok hmove, fun x hx => hmove.accepted x (hi.2 x hx)⟩
  intro a ha hproc hspill hjob
  have hle := (hinv₁.accepted a ha hproc hspill hjob).2
  have hmarks := hbarrier part hpart
  rcases (hinv₂.accepted a (hkept a ha) hproc hspill hjob).1 with hdone | hwaits | ⟨-, hlt⟩
  · exact hdone
  · -- the marks have not reached a job that waits
    have hmem : a.job ∈ (s₂.procs p).jobs := by
      rcases mem_append.1 hwaits with hbatch | hchannel
      · exact mem_append_left _ (batch_sub_jobs _ _ hbatch)
      · exact mem_append_right _ hchannel
    have hlt := (hinv₂.ahead a.job hmem hjob).1
    omega
  · rw [hjob] at hlt
    omega

end Steps

section Runs

variable {S : Setup P} {ok : St P → Action P → Prop} {s₀ s : St P}

theorem reach_from (_ : Runs.Reach (step S) ok s₀ s) : Runs.Reach (step S) ok s s := .init

theorem reached_singleton {part : String} {marks : String → ℕ} {q : Proc} :
    Reached [part] marks q ↔ marks part ≤ q.attempted part := by
  simp [Reached]

/-- A barrier after a job that came through the channel. -/
theorem barrier_covers_channel : ∃ s₁ s₂,
    Runs.Reach (step (lone .sqlite)) (InTurn (lone .sqlite) () "docs") nothingYet s₁ ∧
    Runs.Reach (step (lone .sqlite)) (InTurn (lone .sqlite) () "docs") s₁ s₂ ∧
    ∃ a ∈ s₁.accepted, s₁.handed = [] ∧ ((), a.job) ∈ s₂.handed := by
  have h₁ := (Runs.Reach.init : Runs.Reach (step (lone .sqlite))
      (InTurn (lone .sqlite) () "docs") nothingYet nothingYet).step
    (Action.submit () "docs" .null false) trivial rfl
  have h₂ := h₁.step (Action.send () 0) (fun _ job hjob _ _ => by
    cases hjob
    exact ⟨Nat.zero_lt_one, nofun⟩) rfl
  have h := h₂.step (Action.mark () 0) trivial rfl
  have k₁ := (reach_from h).step (Action.close ()) trivial rfl
  have k₂ := k₁.step (Action.recv ()) trivial rfl
  have k₃ := k₂.step (Action.close ()) trivial rfl
  have k₄ := k₃.step (Action.handle () true) trivial rfl
  have k₅ := k₄.step (Action.settle () 100) trivial rfl
  have k := k₅.step (Action.finish ()) trivial rfl
  refine ⟨_, _, h, k, _, mem_cons_self, rfl, ?_⟩
  exact barrier_covers (start_nothingYet _) h k (reached_singleton.2 (Nat.le_of_ble_eq_true rfl))
    (.inr mem_cons_self) _ mem_cons_self rfl rfl rfl

def narrow : Setup Unit where
  backend := .sqlite
  cfg := ⟨"index", 4, 1, 0⟩
  durable _ := true
  node _ := 1

/-- **A job that is left to the store is not waited for.**  Nor is, where two calls of `submit` take
their numbers in one order and reach the channel in the other, the one that comes second; nor a job that
waits in the channel while a row of its partition is claimed, and gets a later number. -/
theorem barrier_without_overflow : (∃ s, Runs.Reach (step narrow) Runs.Free nothingYet s ∧
      Reached ["docs"] (s.procs ()).submitted (s.procs ()) ∧
      ∃ a ∈ s.accepted, a.job.partition = "docs" ∧ a.job.key () ∉ s.handedKeys) ∧
    (∃ s, Runs.Reach (step (lone .sqlite)) Runs.Free nothingYet s ∧
      Reached ["docs"] (s.procs ()).submitted (s.procs ()) ∧
      ∃ a ∈ s.accepted, a.job.partition = "docs" ∧ a.spilled = false ∧ a.job.key () ∉ s.handedKeys) ∧
    ∃ s, Runs.Reach (step (lone .sqlite)) Runs.Free nothingYet s ∧
      Reached ["docs"] (s.procs ()).submitted (s.procs ()) ∧
      ∃ a ∈ s.accepted, a.job.partition = "docs" ∧ a.spilled = false ∧ a.job.key () ∉ s.handedKeys := by
  refine ⟨?_, ?_, ?_⟩
  · have h := (Runs.Reach.init : Runs.Reach (step narrow) Runs.Free nothingYet nothingYet).run
      [.submit () "logs" .null false, .send () 0, .mark () 0, .submit () "docs" .null true,
       .store () 0 7 100, .send () 0] rfl
    exact ⟨_, h, reached_singleton.2 (Nat.le_of_ble_eq_true rfl), _, mem_cons_of_mem _ mem_cons_self, rfl, nofun⟩
  · have h := (Runs.Reach.init : Runs.Reach (step (lone .sqlite)) Runs.Free nothingYet nothingYet).run
      [.submit () "docs" .null false, .submit () "docs" .null false, .send () 1, .mark () 1,
       .close (), .recv (), .close (), .handle () true, .settle () 100, .finish (), .send () 0,
       .mark () 0] rfl
    exact ⟨_, h, reached_singleton.2 (Nat.le_of_ble_eq_true rfl), _,
      mem_cons_of_mem _ mem_cons_self, rfl, rfl, count_eq_zero.1 rfl⟩
  · have h := (Runs.Reach.init : Runs.Reach (step (lone .sqlite)) Runs.Free nothingYet nothingYet).run
      [.submit () "docs" .null false, .send () 0, .mark () 0, .submit () "docs" .null true,
       .store () 0 7 100, .claim () 101 [] 7, .close (), .handle () true, .settle () 102,
       .finish ()] rfl
    exact ⟨_, h, reached_singleton.2 (Nat.le_of_ble_eq_true rfl), _, mem_cons_self, rfl, rfl, count_eq_zero.1 rfl⟩

end Runs

end DurableQueue
