/-
**Calls that change memories.**

A memory is a list of rows with one id, and the newest of them counts.  A save with a topic key
looks up which memory has the key and writes a new row of it, or of a new memory; an edit reads the
newest row, changes one column, and writes the whole row again.
-/

import Pensieve.MemoryFilter
import Pensieve.Runs

namespace MemoryCalls

open Discover (Text)
open Recall (MemoryStatus trim)

/-! ### Rows -/

abbrev Id := ℕ

section Rows

variable {B : Type}

/-- A row of `memory_nodes`; `body` is what an edit keeps of the other columns. -/
structure Row (B : Type) where
  id : Id
  realm : Text
  topicKey : Option Text
  importance : ℚ
  status : MemoryStatus
  updatedAt : ℕ
  memoryClass : Option Text
  space : Option Text
  writerAgentId : Option Text
  body : B
  deriving DecidableEq

/-- The arguments of a save; `body` has the title, the content and the other columns. -/
structure SaveMemoryArgs (B : Type) where
  realm : Option Text
  topicKey : Option Text
  importance : Option ℚ
  sync : Option Bool
  memoryClass : Text
  space : Option Text
  writerAgentId : Option Text
  body : B

structure CreateMemory (B : Type) where
  realm : Text
  topicKey : Option Text
  importance : ℚ
  memoryClass : Text
  space : Option Text
  writerAgentId : Option Text
  body : B

def defaultRealm : Text := ['d', 'e', 'f', 'a', 'u', 'l', 't']

/-- `clamp(0.0, 1.0)` -/
def clamp (x : ℚ) : ℚ := max 0 (min x 1)

def createFromSaveArgs (parsed : SaveMemoryArgs B) : CreateMemory B where
  realm := parsed.realm.getD defaultRealm
  topicKey := parsed.topicKey.filter fun s => trim s ≠ []
  importance := clamp (parsed.importance.getD (1 / 2))
  memoryClass := parsed.memoryClass
  space := parsed.space.filter fun s => trim s ≠ []
  writerAgentId := parsed.writerAgentId
  body := parsed.body

def nodeRow (id : Id) (m : CreateMemory B) (now : ℕ) : Row B where
  id := id
  realm := m.realm
  topicKey := m.topicKey
  importance := m.importance
  status := .active
  updatedAt := now
  memoryClass := some m.memoryClass
  space := m.space
  writerAgentId := m.writerAgentId
  body := m.body

/-- What `latest_node_sql` selects of a row: three columns are not in its list. -/
def Row.selected (r : Row B) : Row B :=
  { r with
    memoryClass := none
    space := none
    writerAgentId := none }

inductive Edit
  | status (s : MemoryStatus)
  | importance (x : ℚ)
  deriving DecidableEq

def Edit.apply (e : Edit) (r : Row B) (now : ℕ) : Row B :=
  match e with
  | .status s =>
    { r with
      status := s
      updatedAt := now }
  | .importance x =>
    { r with
      importance := clamp x
      updatedAt := now }

/-- **The row of an id that counts**: one of the newest. -/
def Latest (table : List (Row B)) (r : Row B) : Prop :=
  r ∈ table ∧ ∀ r' ∈ table, r'.id = r.id → r'.updatedAt ≤ r.updatedAt

instance [DecidableEq B] (table : List (Row B)) (r : Row B) : Decidable (Latest table r) :=
  inferInstanceAs (Decidable (_ ∧ _))

def Keyed (realm key : Text) (r : Row B) : Prop := r.realm = realm ∧ r.topicKey = some key

instance (realm key : Text) (r : Row B) : Decidable (Keyed realm key r) := inferInstanceAs (Decidable (_ ∧ _))

/-- **What `find_by_topic_key` may return.** -/
def Finds (table : List (Row B)) (realm key : Text) : Option Id → Prop
  | some id => ∃ r ∈ table, Latest table r ∧ Keyed realm key r ∧ r.id = id
  | none => ∀ r ∈ table, Latest table r → ¬ Keyed realm key r

instance [DecidableEq B] (table : List (Row B)) (realm key : Text) (found : Option Id) :
    Decidable (Finds table realm key found) := by
  cases found with
  | none => exact inferInstanceAs (Decidable (∀ r ∈ table, _))
  | some id => exact inferInstanceAs (Decidable (∃ r ∈ table, _))

end Rows

/-! ### Marks -/

abbrev Marks := List (Text × ℕ)

def markOf (marks : Marks) (part : Text) : ℕ := ((marks.find? fun p => p.1 = part).map Prod.snd).getD 0

def raise : Marks → Text → ℕ → Marks
  | [], part, seq => [(part, max 0 seq)]
  | (p, n) :: marks, part, seq => if p = part then (p, max n seq) :: marks else (p, n) :: raise marks part seq

/-- What `barrier` waits for: the marks of its partitions, of all if none is given. -/
def barrierTargets (partitions : List Text) (submitted : Marks) : Marks :=
  if partitions = [] then submitted
  else partitions.filterMap fun p => submitted.find? fun q => q.1 = p

def reached (attempted : Marks) (targets : Marks) : Bool := targets.all fun t => t.2 ≤ markOf attempted t.1

section Calls

variable {B C : Type}

structure Job (B : Type) where
  seq : ℕ
  row : Row B

inductive Path
  | queued
  | direct
  deriving DecidableEq

inductive Request (B : Type)
  | save (args : SaveMemoryArgs B)
  | update (id : Id) (e : Edit)

inductive Read (B : Type)
  | lookup (cm : CreateMemory B) (path : Path)
  | fetch (id : Id) (e : Edit)

inductive Origin (B : Type)
  | save (cm : CreateMemory B)
  | update (e : Edit)

inductive Stage (B : Type)
  | idle
  | waiting (next : Read B) (targets : Marks)
  | reading (next : Read B)
  | resolved (cm : CreateMemory B) (path : Path) (target : Option Id)
  | fetched (e : Edit) (row : Row B)
  | built (origin : Origin B) (path : Path) (row : Row B)

def lookupStage (cm : CreateMemory B) (path : Path) : Stage B :=
  if cm.topicKey = none then .resolved cm path none else .reading (.lookup cm path)

inductive Outcome
  | channel
  | store
  /-- `kept`: the job stays in the store all the same -/
  | refused (kept : Bool)
  deriving DecidableEq

structure St (B C : Type) where
  table : List (Row B)
  clock : ℕ
  nextId : Id
  seq : ℕ
  channel : List (Job B)
  submitted : Marks
  attempted : Marks
  parked : List (Row B)
  calls : C → Stage B
  log : List (Row B × Origin B)

def St.pending (s : St B C) : List (Row B) := s.channel.map Job.row ++ s.parked

def St.rows (s : St B C) : List (Row B) := s.table ++ s.pending

def St.empty : St B C := ⟨[], 0, 0, 0, [], [], [], [], fun _ => .idle, []⟩

inductive Action (B C : Type)
  | start (c : C) (req : Request B)
  | pass (c : C) (timedOut : Bool)
  | find (c : C) (found : Option Id)
  | findFails (c : C)
  | get (c : C) (row : Row B)
  | stamp (c : C)
  | send (c : C) (outcome : Outcome)
  /-- the row is appended; `told`: the caller is told so -/
  | append (c : C) (told : Bool)
  | abort (c : C)
  /-- the worker takes the first `n` jobs; `landed`: the rows are appended; `kept`: the jobs stay in the store -/
  | flush (n : ℕ) (landed kept : Bool)
  | replay (i : ℕ) (landed kept : Bool)

variable [DecidableEq B] [DecidableEq C]

def St.setCall (s : St B C) (c : C) (stage : Stage B) : St B C :=
  { s with calls := Function.update s.calls c stage }

omit [DecidableEq B] [DecidableEq C] in
def entry (queue : Bool) (submitted : Marks) : Request B → Stage B
  | .save args =>
    let cm := createFromSaveArgs args
    if args.sync.getD false = false ∧ queue = true then
      -- `resolve_upsert_target` returns before the barrier without a topic key
      if cm.topicKey = none then .resolved cm .queued none
      else .waiting (.lookup cm .queued) (barrierTargets [cm.realm] submitted)
    else lookupStage cm .direct
  | .update id e =>
    if queue = true then .waiting (.fetch id e) (barrierTargets [] submitted) else .reading (.fetch id e)

def pathOf (queue : Bool) : Path := if queue then .queued else .direct

omit [DecidableEq B] [DecidableEq C] in
theorem entry_save (queue : Bool) (submitted : Marks) (args : SaveMemoryArgs B) : entry queue submitted (.save args) =
      if args.sync.getD false = false ∧ queue = true then
        if (createFromSaveArgs args).topicKey = none then .resolved (createFromSaveArgs args) .queued none
        else .waiting (.lookup (createFromSaveArgs args) .queued)
          (barrierTargets [(createFromSaveArgs args).realm] submitted)
      else lookupStage (createFromSaveArgs args) .direct := rfl

def build (queue : Bool) (clock : ℕ) (next : Id) : Stage B → Option (Origin B × Path × Row B)
  | .resolved cm path target => some (.save cm, path, nodeRow (target.getD next) cm clock)
  | .fetched e row => some (.update e, pathOf queue, e.apply row clock)
  | _ => none

def refusedStage : Origin B → Row B → Stage B
  | .save cm, _ => lookupStage cm .direct
  | .update e, row => .built (.update e) .direct row

/-- **One step**; `queue`: the calls have the queue. -/
def step (queue : Bool) (s : St B C) : Action B C → Option (St B C)
  | .start c req =>
    match s.calls c with
    | .idle => some (s.setCall c (entry queue s.submitted req))
    | _ => none
  | .pass c timedOut =>
    match s.calls c with
    | .waiting next targets =>
      if timedOut || reached s.attempted targets then some (s.setCall c (.reading next)) else none
    | _ => none
  | .find c found =>
    match s.calls c with
    | .reading (.lookup cm path) =>
      match cm.topicKey with
      | some key =>
        if Finds s.table cm.realm key found then some (s.setCall c (.resolved cm path found)) else none
      | none => none
    | _ => none
  | .findFails c =>
    match s.calls c with
    | .reading (.lookup cm path) => some (s.setCall c (.resolved cm path none))
    | _ => none
  | .get c row =>
    match s.calls c with
    | .reading (.fetch id e) =>
      if Latest s.table row ∧ row.id = id then some (s.setCall c (.fetched e row.selected)) else none
    | _ => none
  | .stamp c =>
    match build queue s.clock s.nextId (s.calls c) with
    | some (origin, path, row) =>
      some { s.setCall c (.built origin path row) with
        clock := s.clock + 1
        nextId := s.nextId + 1 }
    | none => none
  | .send c outcome =>
    match s.calls c with
    | .built origin .queued row =>
      match outcome with
      | .channel =>
        some { s.setCall c .idle with
          seq := s.seq + 1
          channel := s.channel ++ [⟨s.seq + 1, row⟩]
          submitted := raise s.submitted row.realm (s.seq + 1)
          log := s.log ++ [(row, origin)] }
      | .store =>
        some { s.setCall c .idle with
          seq := s.seq + 1
          parked := s.parked ++ [row]
          log := s.log ++ [(row, origin)] }
      | .refused kept =>
        some { s.setCall c (refusedStage origin row) with
          seq := s.seq + 1
          parked := s.parked ++ if kept then [row] else [] }
    | _ => none
  | .append c told =>
    match s.calls c with
    | .built origin .direct row =>
      some { s.setCall c .idle with
        table := s.table ++ [row]
        log := s.log ++ if told then [(row, origin)] else [] }
    | _ => none
  | .abort c => some (s.setCall c .idle)
  | .flush n landed kept =>
    let batch := s.channel.take n
    some { s with
      channel := s.channel.drop n
      table := s.table ++ if landed then batch.map Job.row else []
      parked := s.parked ++ if landed && !kept then [] else batch.map Job.row
      attempted := batch.foldl (fun marks job => raise marks job.row.realm job.seq) s.attempted }
  | .replay i landed kept =>
    match s.parked[i]? with
    | some row =>
      -- the job gets a new number
      some { s with
        seq := s.seq + 1
        parked := s.parked.eraseIdx i ++ if landed && !kept then [] else [row]
        table := s.table ++ if landed then [row] else []
        attempted := raise s.attempted row.realm (s.seq + 1) }
    | none => none

inductive Moved (queue : Bool) (s : St B C) : Action B C → St B C → Prop
  | start {c : C} (req : Request B) (hidle : s.calls c = .idle) :
      Moved queue s (.start c req) (s.setCall c (entry queue s.submitted req))
  | pass {c : C} {timedOut : Bool} {next : Read B} {targets : Marks} (hstage : s.calls c = .waiting next targets)
      (hreached : (timedOut || reached s.attempted targets) = true) :
      Moved queue s (.pass c timedOut) (s.setCall c (.reading next))
  | find {c : C} {found : Option Id} {cm : CreateMemory B} {path : Path} {key : Text}
      (hstage : s.calls c = .reading (.lookup cm path)) (hkey : cm.topicKey = some key)
      (hfinds : Finds s.table cm.realm key found) :
      Moved queue s (.find c found) (s.setCall c (.resolved cm path found))
  | findFails {c : C} {cm : CreateMemory B} {path : Path} (hstage : s.calls c = .reading (.lookup cm path)) :
      Moved queue s (.findFails c) (s.setCall c (.resolved cm path none))
  | get {c : C} {row : Row B} {e : Edit} (hstage : s.calls c = .reading (.fetch row.id e))
      (hlatest : Latest s.table row) :
      Moved queue s (.get c row) (s.setCall c (.fetched e row.selected))
  | stampSave {c : C} {cm : CreateMemory B} {path : Path} {target : Option Id}
      (hstage : s.calls c = .resolved cm path target) :
      Moved queue s (.stamp c)
        { s.setCall c (.built (.save cm) path (nodeRow (target.getD s.nextId) cm s.clock)) with
          clock := s.clock + 1
          nextId := s.nextId + 1 }
  | stampUpdate {c : C} {e : Edit} {row : Row B} (hstage : s.calls c = .fetched e row) : Moved queue s (.stamp c)
        { s.setCall c (.built (.update e) (pathOf queue) (e.apply row s.clock)) with
          clock := s.clock + 1
          nextId := s.nextId + 1 }
  | channel {c : C} {origin : Origin B} {row : Row B} (hstage : s.calls c = .built origin .queued row) :
      Moved queue s (.send c .channel)
        { s.setCall c .idle with
          seq := s.seq + 1
          channel := s.channel ++ [⟨s.seq + 1, row⟩]
          submitted := raise s.submitted row.realm (s.seq + 1)
          log := s.log ++ [(row, origin)] }
  | store {c : C} {origin : Origin B} {row : Row B} (hstage : s.calls c = .built origin .queued row) :
      Moved queue s (.send c .store)
        { s.setCall c .idle with
          seq := s.seq + 1
          parked := s.parked ++ [row]
          log := s.log ++ [(row, origin)] }
  | refused {c : C} {kept : Bool} {origin : Origin B} {row : Row B}
      (hstage : s.calls c = .built origin .queued row) :
      Moved queue s (.send c (.refused kept))
        { s.setCall c (refusedStage origin row) with
          seq := s.seq + 1
          parked := s.parked ++ if kept then [row] else [] }
  | append {c : C} {told : Bool} {origin : Origin B} {row : Row B}
      (hstage : s.calls c = .built origin .direct row) :
      Moved queue s (.append c told)
        { s.setCall c .idle with
          table := s.table ++ [row]
          log := s.log ++ if told then [(row, origin)] else [] }
  | abort (c : C) : Moved queue s (.abort c) (s.setCall c .idle)
  | flush (n : ℕ) (landed kept : Bool) : Moved queue s (.flush n landed kept)
      { s with
        channel := s.channel.drop n
        table := s.table ++ if landed then (s.channel.take n).map Job.row else []
        parked := s.parked ++ if landed && !kept then [] else (s.channel.take n).map Job.row
        attempted := (s.channel.take n).foldl (fun marks job => raise marks job.row.realm job.seq) s.attempted }
  | replay {i : ℕ} (landed kept : Bool) {row : Row B} (hrow : s.parked[i]? = some row) :
      Moved queue s (.replay i landed kept)
        { s with
          seq := s.seq + 1
          parked := s.parked.eraseIdx i ++ if landed && !kept then [] else [row]
          table := s.table ++ if landed then [row] else []
          attempted := raise s.attempted row.realm (s.seq + 1) }

theorem moved_of_step {queue : Bool} {s s' : St B C} {a : Action B C} (h : step queue s a = some s') :
    Moved queue s a s' := by
  cases a with
  | start c req =>
    simp only [step] at h
    split at h
    · rename_i hidle
      cases h
      exact .start req hidle
    · cases h
  | pass c timedOut =>
    simp only [step] at h
    split at h
    · rename_i next targets hstage
      split at h
      · rename_i hreached
        cases h
        exact .pass hstage hreached
      · cases h
    · cases h
  | find c found =>
    simp only [step] at h
    split at h
    · rename_i cm path hstage
      split at h
      · rename_i key hkey
        split at h
        · rename_i hfinds
          cases h
          exact .find hstage hkey hfinds
        · cases h
      · cases h
    · cases h
  | findFails c =>
    simp only [step] at h
    split at h
    · rename_i cm path hstage
      cases h
      exact .findFails hstage
    · cases h
  | get c row =>
    simp only [step] at h
    split at h
    · rename_i id e hstage
      split at h
      · rename_i hrow
        obtain ⟨hlatest, rfl⟩ := hrow
        cases h
        exact .get hstage hlatest
      · cases h
    · cases h
  | stamp c =>
    simp only [step] at h
    split at h
    · rename_i origin path row hbuild
      cases h
      unfold build at hbuild
      split at hbuild
      · rename_i cm path' target hstage
        cases hbuild
        exact .stampSave hstage
      · rename_i e row' hstage
        cases hbuild
        exact .stampUpdate hstage
      · cases hbuild
    · cases h
  | send c outcome =>
    simp only [step] at h
    split at h
    · rename_i origin row hstage
      cases outcome with
      | channel =>
        cases h
        exact .channel hstage
      | store =>
        cases h
        exact .store hstage
      | refused kept =>
        cases h
        exact .refused hstage
    · cases h
  | append c told =>
    simp only [step] at h
    split at h
    · rename_i origin row hstage
      cases h
      exact .append hstage
    · cases h
  | abort c =>
    cases h
    exact .abort c
  | flush n landed kept =>
    cases h
    exact .flush n landed kept
  | replay i landed kept =>
    simp only [step] at h
    split at h
    · rename_i row hrow
      cases h
      exact .replay landed kept hrow
    · cases h

end Calls

end MemoryCalls
