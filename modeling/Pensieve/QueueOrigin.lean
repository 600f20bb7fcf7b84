/-
**What the handlers of the queue are given.**

A job goes through the channel of its process, or through the task store, where any process may claim it.
-/

import Pensieve.QueueOrder

namespace DurableQueue

variable {P : Type} [DecidableEq P] {S : Setup P} {said : String × Value → Prop} {s s' : St P} {a : Action P}

def Job.body (j : Job) : String × Value := (j.partition, j.payload)

/-- What is submitted has the property `said`. -/
def Says (said : String × Value → Prop) (_ : St P) : Action P → Prop
  | .submit _ partition payload _ => said (partition, payload)
  | _ => True

/-- Every job in the queue has it: of the calls, of the workers and channels, of the store, and what was handed over. -/
structure Told (said : String × Value → Prop) (s : St P) : Prop where
  calls : ∀ r, ∀ c ∈ (s.procs r).calls, said c.job.body
  work : ∀ r, ∀ j ∈ (s.procs r).work, said j.body
  rows : ∀ t ∈ s.tasks, said (openEnvelope t.payload)
  handed : ∀ e ∈ s.handed, said e.2.body

theorem Moved.handed (h : Moved S s a s') {e : P × Job} (he : e ∈ s'.handed) :
    e ∈ s.handed ∨ ∃ r, e.2 ∈ (s.procs r).work := by
  cases h with
  | submit | store | refused | sent | spilled | full | mark | retire | recv | close | poll | claim | settle | finish |
    shutdown | leave => exact .inl he
  | @handle p source batch attempt ok hphase =>
    refine (List.mem_append.1 he).imp_right fun hnew => ⟨p, ?_⟩
    obtain ⟨j, hj, rfl⟩ := List.mem_map.1 hnew
    rw [Proc.work, hphase]
    exact List.mem_append_left _ (List.mem_append_left _ hj)

/-- **One step** brings no job into the queue that was not submitted. -/
theorem Told.step (h : Told said s) (hsaid : Says said s a) (hmove : Moved S s a s') : Told said s' where
  calls r c hc := by
    rcases hmove.calls r hc with hc | ⟨_, _, _, rfl, hjob, -⟩ | ⟨_, _, _, job, -, hcall, rfl⟩ | ⟨_, job, -, hcall, hc⟩
    · exact h.calls r c hc
    · rw [hjob]
      exact hsaid
    · have hjob := h.calls r _ (List.mem_of_getElem? hcall)
      exact hjob
    · have hjob := h.calls r _ (List.mem_of_getElem? hcall)
      rcases hc with rfl | ⟨rfl, -⟩ <;> exact hjob
  work r j hj := by
    rcases hmove.work r hj with hj | ⟨_, -, hcall, -⟩ | ⟨task, _, _, -, htask, rfl⟩
    · exact h.work r j hj
    · exact h.calls r _ (List.mem_of_getElem? hcall)
    · exact h.rows task htask
  rows t ht := by
    rcases hmove.tasks with heq | ⟨r, _, _, _, job, -, hcall, -, heq⟩ | ⟨_, -, hkept, -⟩
    · exact h.rows t (heq ▸ ht)
    · rw [heq] at ht
      rcases List.mem_append.1 ht with ht | ht
      · exact h.rows t ht
      · -- the envelope is opened again
        rw [List.mem_singleton.1 ht]
        exact h.calls r _ (List.mem_of_getElem? hcall)
    · obtain ⟨t', ht', -, -, hpayload, -⟩ := hkept.row t ht
      exact hpayload ▸ h.rows t' ht'
  handed e he := by
    rcases hmove.handed he with he | ⟨r, hj⟩
    · exact h.handed e he
    · exact h.work r _ hj

/-- **Handlers get what was submitted**: in every run, with full channels, failing handlers, workers that stop and rows that
other processes claim, a job has the partition and the payload of a submission, or of a row that was there before. -/
theorem handed_said (said : String × Value → Prop) {s₀ : St P} (h₀ : Start S s₀)
    (hrows : ∀ t ∈ s₀.tasks, said (openEnvelope t.payload)) (h : Runs.Reach (step S) (Says said) s₀ s) :
    ∀ e ∈ s.handed, said (e.2.partition, e.2.payload) := by
  have hstart : Told said s₀ := by
    refine ⟨fun r c hc => ?_, fun r j hj => ?_, hrows, fun e he => ?_⟩
    · rw [h₀.procs] at hc
      cases hc
    · rw [h₀.work] at hj
      cases hj
    · rw [h₀.handed] at he
      cases he
  exact (h.inv hstart fun _ _ _ hi hsaid hs => hi.step hsaid (moved_of_step hs)).handed

theorem handed_said_channel : ∃ s, Runs.Reach (step (lone .sqlite)) (Says fun x => x.1 = "docs") nothingYet s ∧
    s.handed ≠ [] ∧ ∀ e ∈ s.handed, e.2.partition = "docs" := by
  have h₁ := (Runs.Reach.init : Runs.Reach (step (lone .sqlite)) (Says fun x => x.1 = "docs") nothingYet nothingYet).step
    (Action.submit () "docs" .null true) rfl rfl
  have h₂ := h₁.step (Action.store () 0 7 100) trivial rfl
  have h₃ := h₂.step (Action.close ()) trivial rfl
  have h₄ := h₃.step (Action.send () 0) trivial rfl
  have h₅ := h₄.step (Action.recv ()) trivial rfl
  have h₆ := h₅.step (Action.close ()) trivial rfl
  have h := h₆.step (Action.handle () true) trivial rfl
  exact ⟨_, h, List.cons_ne_nil _ _, handed_said _ (start_nothingYet _) (fun _ ht => by cases ht) h⟩

end DurableQueue
