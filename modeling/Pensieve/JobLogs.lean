/-
**The capture of job logs.**

A tick lists the workflow runs, newest first, and takes the oldest of those that were created after the watermark, up to
a cap.  The watermark moves to the newest run that was taken.
-/

import Pensieve.Fallible
import Pensieve.GithubPages

namespace JobLogs

open List
open Fallible
open Github (Reply DataSourceError paginate pagesFrom newest newest_cases)

/-! ### A tick -/

structure Run where
  id : ℕ
  createdAt : ℕ
  jobs : List ℕ
  deriving DecidableEq

structure WorkflowOpts where
  maxPages : ℕ
  maxRunsPerTick : ℕ

/-- What the requests of a tick meet: for the list of runs, for the jobs of a run, and for a job's log. -/
structure Net where
  runs : ℕ → Reply
  jobs : Run → ℕ → Reply
  log : ℕ → Except DataSourceError Unit

def listed (runs : List Run) : List Run := runs.reverse

def readable (opts : WorkflowOpts) (net : Net) (runs : List Run) : List Run :=
  (listed runs).take (100 * pagesFrom net.runs 0 (opts.maxPages - 1))

def isNew (since : Option ℕ) (run : Run) : Bool := ∀ s ∈ since, s < run.createdAt

/-- `new_runs`, before it is cut. -/
def newRuns (since : Option ℕ) (runs : List Run) : List Run :=
  (runs.filter (isNew since)).insertionSort (·.createdAt ≤ ·.createdAt)

structure CaptureResult where
  runs : List Run
  logs : List (Run × ℕ × Except DataSourceError Unit)
  newestCreated : Option ℕ

def captureJobLogs (opts : WorkflowOpts) (net : Net) (since : Option ℕ) (runs : List Run) :
    Except DataSourceError CaptureResult := do
  let (runs, _) ← paginate net.runs opts.maxPages (listed runs)
  let taken := (newRuns since runs).take opts.maxRunsPerTick
  let logs ← taken.mapM fun run => do
    let (jobs, _) ← paginate (net.jobs run) opts.maxPages run.jobs
    return jobs.map fun job => (run, job, net.log job)
  return ⟨taken, logs.flatten, newest since (taken.map Run.createdAt)⟩

/-- The runs of a repository, and what the ticks have done; `owed` are the jobs whose log was asked for in vain, for a
transient error, and not since. -/
structure World where
  runs : List Run
  workflowsSince : Option ℕ
  processed : List Run
  owed : List (Run × ℕ)
  deriving DecidableEq

inductive Action
  | appear (run : Run)
  | tick (net : Net)
  | failed

def failures (logs : List (Run × ℕ × Except DataSourceError Unit)) : List (Run × ℕ) :=
  logs.filterMap fun l =>
    match l.2.2 with
    | .error .transient => some (l.1, l.2.1)
    | _ => none

def step (opts : WorkflowOpts) (w : World) : Action → Option World
  | .appear run => if ∀ r ∈ w.runs, r.createdAt ≤ run.createdAt then some { w with runs := w.runs ++ [run] } else none
  | .tick net =>
    match captureJobLogs opts net w.workflowsSince w.runs with
    | .ok res =>
      some { w with
        workflowsSince := res.newestCreated
        processed := w.processed ++ res.runs
        owed := w.owed.filter (fun o => ∀ l ∈ res.logs, (l.1, l.2.1) ≠ o) ++ failures res.logs }
    | .error _ => some w
  | .failed => some w

/-! ### No run is skipped -/

/-- The runs that the watermark has passed since it was `first` are done, with their logs. -/
def Done (first : Option ℕ) (w : World) : Prop :=
  ∀ run ∈ w.runs, isNew first run → ∀ c ∈ w.workflowsSince, run.createdAt ≤ c →
    run ∈ w.processed ∧ ∀ job, (run, job) ∉ w.owed

/-- A tick that reads the pages with all new runs, does not cut between runs of one time, and meets no transient error
at a log; and a run that appears when the watermark is not yet there. -/
def Heeds (opts : WorkflowOpts) (w : World) : Action → Prop
  | .appear run => isNew w.workflowsSince run
  | .tick net =>
    let new := newRuns w.workflowsSince (readable opts net w.runs)
    (∀ run ∈ w.runs, isNew w.workflowsSince run → run ∈ readable opts net w.runs) ∧
      (∀ x ∈ new.take opts.maxRunsPerTick, ∀ y ∈ new.drop opts.maxRunsPerTick, x.createdAt ≠ y.createdAt) ∧
      ∀ x ∈ new.take opts.maxRunsPerTick, ∀ job ∈ x.jobs, net.log job ≠ .error .transient
  | .failed => True

variable {opts : WorkflowOpts} {net : Net} {since first : Option ℕ} {runs : List Run} {run : Run} {w w' : World}
  {a : Action} {res : CaptureResult}

theorem exists_of_mem_mapM {ε α β : Type} {f : α → Except ε β} {l : List α} {l' : List β} {b : β}
    (h : l.mapM f = .ok l') (hb : b ∈ l') : ∃ a ∈ l, f a = .ok b := by
  have hforall := mapM_eq_ok_iff.1 h
  induction hforall with
  | nil => cases hb
  | cons hab hrest ih =>
    rcases mem_cons.1 hb with rfl | hb
    · exact ⟨_, mem_cons_self, hab⟩
    · obtain ⟨a, ha, hab⟩ := ih (mapM_eq_ok_iff.2 hrest) hb
      exact ⟨a, mem_cons_of_mem _ ha, hab⟩

theorem capture_eq_ok (h : captureJobLogs opts net since runs = .ok res) :
    res.runs = (newRuns since (readable opts net runs)).take opts.maxRunsPerTick ∧
      res.newestCreated = newest since (res.runs.map Run.createdAt) ∧
      ∀ l ∈ res.logs, l.1 ∈ res.runs ∧ l.2.1 ∈ l.1.jobs ∧ l.2.2 = net.log l.2.1 := by
  obtain ⟨⟨xs, stop⟩, hruns, h⟩ := bind_eq_ok.1 h
  obtain ⟨logs, hlogs, h⟩ := bind_eq_ok.1 h
  obtain rfl : xs = readable opts net runs := Github.paginate_eq_ok hruns
  cases h
  refine ⟨rfl, rfl, fun l hl => ?_⟩
  obtain ⟨chunk, hchunk, hl⟩ := mem_flatten.1 hl
  obtain ⟨run, hrun, hjobs⟩ := exists_of_mem_mapM hlogs hchunk
  obtain ⟨⟨jobs, stop'⟩, hpages, hjobs⟩ := bind_eq_ok.1 hjobs
  cases hjobs
  obtain ⟨job, hjob, rfl⟩ := mem_map.1 hl
  rw [Github.paginate_eq_ok hpages] at hjob
  exact ⟨hrun, mem_of_mem_take hjob, rfl⟩

theorem mem_newRuns : run ∈ newRuns since runs ↔ run ∈ runs ∧ isNew since run := by
  rw [newRuns, mem_insertionSort, mem_filter]

theorem take_le_drop {n : ℕ} {x y : Run} (hx : x ∈ (newRuns since runs).take n) (hy : y ∈ (newRuns since runs).drop n) :
    x.createdAt ≤ y.createdAt := by
  have : IsTrans Run (·.createdAt ≤ ·.createdAt) := ⟨fun _ _ _ => Nat.le_trans⟩
  have : Std.Total fun x y : Run => x.createdAt ≤ y.createdAt := ⟨fun _ _ => Nat.le_total _ _⟩
  have hsorted := pairwise_insertionSort (·.createdAt ≤ ·.createdAt) (runs.filter (isNew since))
  rw [← newRuns, ← take_append_drop n (newRuns since runs)] at hsorted
  exact (pairwise_append.1 hsorted).2.2 x hx y hy

structure Inv (first : Option ℕ) (w : World) : Prop where
  done : Done first w
  owed : w.owed = []

theorem isNew_or (since : Option ℕ) (run : Run) : isNew since run ∨ ∃ c ∈ since, run.createdAt ≤ c := by
  by_cases h : isNew since run
  · exact .inl h
  · simp only [isNew, decide_eq_true_eq] at h
    push Not at h
    exact .inr h

theorem Inv.tick (h : Inv first w) (ha : Heeds opts w (.tick net)) (hs : step opts w (.tick net) = some w') :
    Inv first w' := by
  obtain ⟨hread, hcut, hlogs⟩ := ha
  rw [step] at hs
  split at hs
  next res hres =>
    cases hs
    obtain ⟨hruns, hnewest, hres⟩ := capture_eq_ok hres
    have howed : failures res.logs = [] := by
      refine filterMap_eq_nil_iff.2 fun l hl => ?_
      obtain ⟨hrun, hjob, hlog⟩ := hres l hl
      have hok := hlogs l.1 (hruns ▸ hrun) _ hjob
      rw [← hlog] at hok
      split <;> simp_all
    refine ⟨fun run hrun hfirst c hc hle => ⟨?_, by simp [h.owed, howed]⟩, by simp [h.owed, howed]⟩
    · rcases isNew_or w.workflowsSince run with hnew | ⟨c', hc', hle'⟩
      · -- a new run is taken: the watermark does not pass those that are left
        refine mem_append_right _ ?_
        have hmem := mem_newRuns.2 ⟨hread run hrun hnew, hnew⟩
        rw [← take_append_drop opts.maxRunsPerTick (newRuns _ _)] at hmem
        rcases mem_append.1 hmem with htake | hdrop
        · exact hruns ▸ htake
        · exfalso
          rcases newest_cases (hnewest ▸ hc) with hold | htimes
          · have hlt := of_decide_eq_true hnew c hold
            omega
          · rw [hruns] at htimes
            obtain ⟨x, hx, rfl⟩ := mem_map.1 htimes
            have hxrun := take_le_drop hx hdrop
            have hne := hcut x hx run hdrop
            omega
      · exact mem_append_left _ (h.done run hrun hfirst c' hc' hle').1
  next =>
    cases hs
    exact h

theorem Inv.step (h : Inv first w) (ha : Heeds opts w a) (hs : step opts w a = some w') : Inv first w' := by
  cases a with
  | appear run =>
    obtain ⟨-, heq⟩ := Option.ite_none_right_eq_some.1 hs
    cases heq
    refine ⟨fun r hr hfirst c hc hle => ?_, h.owed⟩
    rcases mem_append.1 hr with hr | hr
    · exact h.done r hr hfirst c hc hle
    · obtain rfl := mem_singleton.1 hr
      exact absurd (of_decide_eq_true ha c hc) (not_lt.2 hle)
  | tick net => exact h.tick ha hs
  | failed =>
    cases hs
    exact h

/-- **No run is stranded** by ticks that are cut where times differ and lose no log. -/
theorem done_of_heeds {s : World} (howed : s.owed = []) (h : Runs.Reach (step opts) (Heeds opts) s w) :
    Done s.workflowsSince w := by
  have hstart : Inv s.workflowsSince s := by
    refine ⟨fun run _ hnew c hc hle => ?_, howed⟩
    exact absurd (of_decide_eq_true hnew c hc) (not_lt.2 hle)
  exact (h.inv hstart fun _ _ _ hi ha hs => hi.step ha hs).done

def oneRun : WorkflowOpts := ⟨1, 1⟩

def answers : Net := ⟨fun _ => .page false, fun _ _ => .page false, fun _ => .ok ()⟩

def started : World := ⟨[⟨1, 5, [10]⟩, ⟨2, 6, [20]⟩], some 4, [], []⟩

theorem done_of_heeds_two : ∃ w, Runs.Reach (step oneRun) (Heeds oneRun) started w ∧ w.processed = [⟨1, 5, [10]⟩] ∧
    Done (some 4) w := by
  have htick : Runs.Reach (step oneRun) (Heeds oneRun) started _ :=
    .step (.tick answers) .init ⟨by decide, by decide, fun _ _ _ _ => nofun⟩ rfl
  exact ⟨_, htick, by decide, done_of_heeds rfl htick⟩

def together : World := ⟨[⟨1, 5, []⟩, ⟨2, 5, []⟩], none, [], []⟩

/-- **Of two runs that were created in one second, a cap of one run strands the first.** -/
theorem first_run_stranded : ∃ w, step oneRun together (.tick answers) = some w ∧ ¬ Done none w := by
  refine ⟨_, rfl, fun h => ?_⟩
  have hdone := (h ⟨1, 5, []⟩ (mem_cons_self) rfl 5 rfl le_rfl).1
  exact absurd hdone (by decide)

end JobLogs
