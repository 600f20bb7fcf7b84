/-
**The staging buffer: one step for each lock acquisition.**

Ingest requests hand their batches to a buffer with one entry for each table and wait; a flush takes
everything an entry holds, writes it as one extent, commits that extent and wakes the requests it
has taken.
-/

import Mathlib.Tactic
import Pensieve.Runs

namespace Staging

open Function
open List

abbrev TableId := ℕ

variable {S : Type}

/-! ### Requests, entries, flushes -/

/-- A record batch: the request it came with, its position there, its schema and its size. -/
structure Batch (S : Type) where
  owner : ℕ
  position : ℕ
  schema : S
  rows : ℕ
  bytes : ℕ
  deriving DecidableEq

/-- What `submit` returns. -/
inductive Outcome where
  | noop
  | flushed (extent : ℕ)
  | failed
  deriving DecidableEq

inductive Phase where
  | checking
  | flushing (flush : ℕ)
  | inserting
  | waiting
  | returned (outcome : Outcome)
  deriving DecidableEq

/-- A call of `submit`. -/
structure Submit (S : Type) where
  table : TableId
  schema : S
  batches : List (Batch S)
  phase : Phase

/-- `TableStaging`, without the name of the table. -/
structure Entry (S : Type) where
  schema : S
  batches : List (Batch S)
  totalRows : ℕ
  totalBytes : ℕ
  firstQueuedAt : ℕ
  waiters : List ℕ

/-- `DrainedStaging`. -/
structure Taken (S : Type) where
  schema : S
  batches : List (Batch S)
  waiters : List ℕ
  rows : ℕ

inductive Status where
  | starting
  | taken
  | written
  | queued
  | committed
  | finished
  deriving DecidableEq

/-- A call of `flush_table`. -/
structure Flush (S : Type) where
  table : TableId
  status : Status
  taken : Option (Taken S)
  attempt : ℕ

/-- An extent of the catalog; a flush writes one at most, which goes by the number of the flush. -/
structure Extent (S : Type) where
  id : ℕ
  table : TableId
  schema : S
  batches : List (Batch S)

inductive Drain where
  | notStarted
  | flushing (rest : List TableId) (current : Option ℕ)
  | complete
  deriving DecidableEq

structure Config where
  flushMaxRows : ℕ
  flushMaxBytes : ℕ
  flushMaxAge : ℕ
  /-- `PENSIEVE_COMMIT_MAX_EXTENTS`, when there is a coordinator -/
  coordinator : Option ℕ

structure World (S : Type) where
  buffer : TableId → Option (Entry S)
  keys : List TableId
  submits : ℕ → Option (Submit S)
  flushes : ℕ → Option (Flush S)
  channel : List ℕ
  batch : List ℕ
  group : Option (TableId × ℕ)
  committed : List (Extent S)
  drain : Drain
  /-- where the batches of a request are, for the specification alone: nowhere yet, buffered, or
  taken by a flush -/
  place : ℕ → Option (Option ℕ)

def World.init : World S :=
  { buffer := fun _ => none, keys := [], submits := fun _ => none, flushes := fun _ => none,
    channel := [], batch := [], group := none, committed := [], drain := .notStarted,
    place := fun _ => none }

/-! ### Moves -/

namespace World

variable (w : World S)

def setSubmit (p : ℕ) (s : Submit S) : World S :=
  { w with submits := Function.update w.submits p (some s) }

/-- A new call of `flush_table`. -/
def spawn (f : ℕ) (t : TableId) : World S :=
  { w with flushes := Function.update w.flushes f (some ⟨t, .starting, none, 0⟩) }

/-- The flushes `fs` go on to the status `st`. -/
def mark (fs : List ℕ) (st : Status) : World S :=
  { w with flushes := fun f =>
      if f ∈ fs then (w.flushes f).map fun fl => { fl with status := st } else w.flushes f }

def waitersOf (f : ℕ) : List ℕ :=
  match w.flushes f with
  | some fl => (fl.taken.map Taken.waiters).getD []
  | none => []

def settle (waiters : List ℕ) (o : Outcome) : World S :=
  { w with submits := fun p =>
      if p ∈ waiters then
        (w.submits p).map fun s => if s.phase = .waiting then { s with phase := .returned o } else s
      else w.submits p }

def fail (fs : List ℕ) : World S := (w.settle (fs.flatMap w.waitersOf) .failed).mark fs .finished

def extentOf (f : ℕ) : Option (Extent S) :=
  (w.flushes f).bind fun fl => fl.taken.map fun tk => ⟨f, fl.table, tk.schema, tk.batches⟩

def commit (fs : List ℕ) : World S :=
  { w.mark fs .committed with committed := w.committed ++ fs.filterMap w.extentOf }

end World

def sumBatches (batches : List (Batch S)) : ℕ × ℕ := ((batches.map Batch.rows).sum, (batches.map Batch.bytes).sum)

/-- The batches of request `p`, of the sizes given. -/
def mkBatches (p : ℕ) (schema : S) (sizes : List (ℕ × ℕ)) : List (Batch S) :=
  sizes.zipIdx.map fun q => ⟨p, q.2, schema, q.1.1, q.1.2⟩

def Entry.insert (e : Entry S) (p : ℕ) (s : Submit S) : Entry S :=
  { e with
    schema := s.schema
    batches := e.batches ++ s.batches
    totalRows := e.totalRows + (sumBatches s.batches).1
    totalBytes := e.totalBytes + (sumBatches s.batches).2
    waiters := e.waiters ++ [p] }

/-- `or_insert_with`. -/
def Entry.empty (schema : S) (now : ℕ) : Entry S := ⟨schema, [], 0, 0, now, []⟩

def Entry.full (cfg : Config) (e : Entry S) : Bool :=
  cfg.flushMaxRows ≤ e.totalRows || cfg.flushMaxBytes ≤ e.totalBytes

def Entry.emptied (e : Entry S) (now : ℕ) : Entry S :=
  { e with batches := [], totalRows := 0, totalBytes := 0, firstQueuedAt := now, waiters := [] }

def Entry.take (e : Entry S) : Taken S := ⟨e.schema, e.batches, e.waiters, e.totalRows⟩

/-- How a commit ends: `CatalogError::Conflict` is told from other errors. -/
inductive Attempt where
  | ok
  | conflict
  | error
  deriving DecidableEq

/-! ### Actions -/

inductive Action (S : Type) where
  | submit (p : ℕ) (table : TableId) (schema : S) (sizes : List (ℕ × ℕ))
  | check (p f : ℕ)
  | resume (p : ℕ)
  | insert (p f now : ℕ)
  | cancel (p : ℕ)
  | age (table : TableId) (f now : ℕ)
  | take (f now : ℕ)
  | abort (f : ℕ)
  | write (f : ℕ)
  | commitDirect (f : ℕ) (attempt : Attempt)
  | hand (f : ℕ)
  | receive (n : ℕ)
  | commitGroup (table : TableId) (attempt : Attempt)
  | wake (f : ℕ)
  | drainList
  | drainFlush (f : ℕ)
  | drainNext

section Step

variable [DecidableEq S]

/-- The comparison of schemas in `enqueue`, under the lock. -/
def World.check (w : World S) (p f : ℕ) (s : Submit S) : Option (World S) :=
  match w.buffer s.table with
  | some e =>
    if e.schema = s.schema then some (w.setSubmit p { s with phase := .inserting })
    else if w.flushes f = none then
      some ((w.setSubmit p { s with phase := .flushing f }).spawn f s.table)
    else none
  | none => some (w.setSubmit p { s with phase := .inserting })

/-- The world once request `p` is in the entry `e`. -/
def World.inserted (w : World S) (p : ℕ) (s : Submit S) (e : Entry S) : World S :=
  { w.setSubmit p { s with phase := .waiting } with
    buffer := Function.update w.buffer s.table (some e)
    keys := if s.table ∈ w.keys then w.keys else w.keys ++ [s.table]
    place := Function.update w.place p (some none) }

/-- The insertion in `enqueue`, under the lock, and the flush it may start. -/
def World.insert (cfg : Config) (w : World S) (p f now : ℕ) (s : Submit S) : Option (World S) :=
  let e := ((w.buffer s.table).getD (.empty s.schema now)).insert p s
  if e.full cfg then
    if w.flushes f = none then some ((w.inserted p s e).spawn f s.table) else none
  else some (w.inserted p s e)

/-- The world once flush `f` has taken what the entry `e` held. -/
def World.took (w : World S) (f now : ℕ) (fl : Flush S) (e : Entry S) : World S :=
  { w with
    buffer := Function.update w.buffer fl.table (some (e.emptied now))
    flushes := Function.update w.flushes f
      (some { fl with status := .taken, taken := some e.take })
    place := fun p => if p ∈ e.waiters then some (some f) else w.place p }

/-- The part of `flush_table` under the lock. -/
def World.take (w : World S) (f now : ℕ) (fl : Flush S) : World S :=
  match w.buffer fl.table with
  | some e => if e.batches = [] then w.mark [f] .finished else w.took f now fl e
  | none => w.mark [f] .finished

def World.write (w : World S) (f : ℕ) (tk : Taken S) : World S :=
  if ∀ b ∈ tk.batches, b.schema = tk.schema then w.mark [f] .written else w.fail [f]

/-- `commit_with_retry`: a conflict is tried again until there were twenty. -/
def World.commitDirect (w : World S) (f : ℕ) (fl : Flush S) : Attempt → World S
  | .ok => w.commit [f]
  | .conflict =>
    if fl.attempt + 1 < 20 then
      { w with flushes := Function.update w.flushes f (some { fl with attempt := fl.attempt + 1 }) }
    else w.fail [f]
  | .error => w.fail [f]

def World.jobsOf (w : World S) (t : TableId) : List ℕ :=
  w.batch.filter fun f => (w.flushes f).map Flush.table = some t

def World.nextGroup (w : World S) (t : TableId) : World S :=
  { w with batch := w.batch.filter fun f => (w.flushes f).map Flush.table ≠ some t, group := none }

/-- `commit_one_table_group`. -/
def World.commitGroup (w : World S) (t : TableId) (n : ℕ) : Attempt → World S
  | .ok => (w.nextGroup t).commit (w.jobsOf t)
  | .conflict =>
    if n + 1 < 20 then { w with group := some (t, n + 1) } else (w.nextGroup t).fail (w.jobsOf t)
  | .error => (w.nextGroup t).fail (w.jobsOf t)

def World.nonempty (w : World S) : List TableId :=
  w.keys.filter fun t => match w.buffer t with
    | some e => e.batches ≠ []
    | none => false

def step (cfg : Config) (w : World S) : Action S → Option (World S)
  | .submit p table schema sizes =>
    if w.submits p = none then
      some (w.setSubmit p ⟨table, schema, mkBatches p schema sizes,
        if sizes = [] then .returned .noop else .checking⟩)
    else none
  | .check p f =>
    (w.submits p).bind fun s => if s.phase = .checking then w.check p f s else none
  | .resume p =>
    (w.submits p).bind fun s =>
      match s.phase with
      | .flushing f =>
        if (w.flushes f).map Flush.status = some .finished then
          some (w.setSubmit p { s with phase := .inserting })
        else none
      | _ => none
  | .insert p f now =>
    (w.submits p).bind fun s => if s.phase = .inserting then w.insert cfg p f now s else none
  | .cancel p =>
    (w.submits p).bind fun s =>
      match s.phase with
      | .returned _ => none
      | _ => some (w.setSubmit p { s with phase := .returned .failed })
  | .age table f now =>
    (w.buffer table).bind fun e =>
      if e.batches ≠ [] ∧ e.firstQueuedAt + cfg.flushMaxAge ≤ now ∧ w.flushes f = none then
        some (w.spawn f table)
      else none
  | .take f now =>
    (w.flushes f).bind fun fl => if fl.status = .starting then some (w.take f now fl) else none
  | .abort f =>
    (w.flushes f).bind fun fl =>
      if fl.status = .taken ∨ fl.status = .written then some (w.fail [f]) else none
  | .write f =>
    (w.flushes f).bind fun fl =>
      match fl.status, fl.taken with
      | .taken, some tk => some (w.write f tk)
      | _, _ => none
  | .commitDirect f attempt =>
    (w.flushes f).bind fun fl =>
      if fl.status = .written ∧ cfg.coordinator = none then some (w.commitDirect f fl attempt)
      else none
  | .hand f =>
    (w.flushes f).bind fun fl =>
      if fl.status = .written ∧ cfg.coordinator ≠ none then
        some { w.mark [f] .queued with channel := w.channel ++ [f] }
      else none
  | .receive n =>
    cfg.coordinator.bind fun max =>
      if w.batch = [] ∧ 0 < n ∧ n ≤ max.max 1 ∧ n ≤ w.channel.length then
        some { w with batch := w.channel.take n, channel := w.channel.drop n }
      else none
  | .commitGroup table attempt =>
    if w.jobsOf table = [] then none
    else
      match w.group with
      | none => some (w.commitGroup table 0 attempt)
      | some (t, n) => if t = table then some (w.commitGroup table n attempt) else none
  | .wake f =>
    (w.flushes f).bind fun fl =>
      if fl.status = .committed then
        some ((w.settle (w.waitersOf f) (.flushed f)).mark [f] .finished)
      else none
  | .drainList =>
    match w.drain with
    | .notStarted => some { w with drain := .flushing w.nonempty none }
    | _ => none
  | .drainFlush f =>
    match w.drain with
    | .flushing (t :: rest) none =>
      if w.flushes f = none then some { w.spawn f t with drain := .flushing rest (some f) }
      else none
    | _ => none
  | .drainNext =>
    match w.drain with
    | .flushing rest (some f) =>
      if (w.flushes f).map Flush.status = some .finished then
        some { w with drain := .flushing rest none }
      else none
    | .flushing [] none => some { w with drain := .complete }
    | _ => none

end Step

/-! ### The invariant -/

def Phase.inserted : Phase → Bool
  | .waiting => true
  | .returned .failed => true
  | .returned (.flushed _) => true
  | _ => false

def World.batchesOf (w : World S) (p : ℕ) : List (Batch S) := ((w.submits p).map Submit.batches).getD []

def World.tableOf (w : World S) (p : ℕ) : Option TableId := (w.submits p).map Submit.table

def World.committedIds (w : World S) : List ℕ := w.committed.map Extent.id

structure Holds (w : World S) (waiters : List ℕ) (batches : List (Batch S)) (where_ : Option ℕ) : Prop where
  nodup : waiters.Nodup
  batches_eq : batches = waiters.flatMap w.batchesOf
  placed : ∀ p ∈ waiters, w.place p = some where_

structure Inv (w : World S) : Prop where
  entry : ∀ t e, w.buffer t = some e → t ∈ w.keys ∧ Holds w e.waiters e.batches none ∧
    ∀ p ∈ e.waiters, w.tableOf p = some t
  taken : ∀ f fl tk, w.flushes f = some fl → fl.taken = some tk → Holds w tk.waiters tk.batches (some f)
  placed : ∀ p, w.place p ≠ none → ∃ s, w.submits p = some s ∧ s.phase.inserted
  owned : ∀ p s, w.submits p = some s → s.batches.Nodup ∧ ∀ b ∈ s.batches, b.owner = p
  held : ∀ f fl, w.flushes f = some fl → (fl.status = .starting → fl.taken = none) ∧
    (fl.status ≠ .starting → fl.status ≠ .finished → fl.taken ≠ none)
  extentIds : w.committedIds.Nodup
  extents : ∀ e ∈ w.committed, ∃ fl tk, w.flushes e.id = some fl ∧ fl.taken = some tk ∧
    e.batches = tk.batches ∧ (fl.status = .committed ∨ fl.status = .finished)
  committed : ∀ f fl, w.flushes f = some fl → fl.status = .committed → f ∈ w.committedIds
  jobsNodup : (w.channel ++ w.batch).Nodup
  jobs : ∀ f ∈ w.channel ++ w.batch, ∃ fl, w.flushes f = some fl ∧ fl.status = .queued
  returned : ∀ p s f, w.submits p = some s → s.phase = .returned (.flushed f) → f ∈ w.committedIds ∧ p ∈ w.waitersOf f

theorem inv_init : Inv (World.init : World S) where
  entry := fun t e h => by cases h
  taken := fun f fl tk h => by cases h
  placed := fun p h => absurd rfl h
  owned := fun p s h => by cases h
  held := fun f fl h => by cases h
  extentIds := nodup_nil
  extents := fun e he => absurd he not_mem_nil
  committed := fun f fl h => by cases h
  jobsNodup := nodup_nil
  jobs := fun f hf => absurd hf not_mem_nil
  returned := fun p s f h => by cases h

theorem Holds.congr {w w' : World S} {waiters : List ℕ} {batches : List (Batch S)}
    {where_ : Option ℕ} (h : Holds w waiters batches where_)
    (hb : ∀ p ∈ waiters, w'.batchesOf p = w.batchesOf p)
    (hp : ∀ p ∈ waiters, w'.place p = w.place p) : Holds w' waiters batches where_ where
  nodup := h.nodup
  batches_eq := by
    rw [h.batches_eq]
    exact flatMap_congr fun p hmem => (hb p hmem).symm
  placed := fun p hmem => (hp p hmem).trans (h.placed p hmem)

theorem Holds.of_eq {w w' : World S} {waiters : List ℕ} {batches : List (Batch S)}
    {where_ : Option ℕ} (h : Holds w waiters batches where_) (hs : w'.submits = w.submits)
    (hp : w'.place = w.place) : Holds w' waiters batches where_ :=
  h.congr (fun p _ => by rw [World.batchesOf, World.batchesOf, hs]) fun p _ => by rw [hp]

section Requests

variable {w : World S}

variable {p : ℕ}

theorem Inv.not_mem_of_unplaced {waiters : List ℕ} {batches : List (Batch S)} {where_ : Option ℕ}
    (hp : w.place p = none) (hw : Holds w waiters batches where_) : p ∉ waiters := by
  intro hmem
  have := hw.placed p hmem
  rw [hp] at this
  cases this

theorem Inv.setSubmit (h : Inv w) {s' : Submit S}
    (hown : s'.batches.Nodup ∧ ∀ b ∈ s'.batches, b.owner = p)
    (hsame : w.place p ≠ none → s'.phase.inserted ∧ ∃ s, w.submits p = some s ∧ s'.table = s.table ∧ s'.batches = s.batches)
    (hret : ∀ f, s'.phase ≠ .returned (.flushed f)) : Inv (w.setSubmit p s') := by
  have hb : ∀ q, w.place q ≠ none → (w.setSubmit p s').batchesOf q = w.batchesOf q := by
    intro q hq
    by_cases hqp : q = p
    · subst hqp
      obtain ⟨-, s, hs, -, hbs⟩ := hsame hq
      simp [World.batchesOf, World.setSubmit, hs, hbs]
    · simp [World.batchesOf, World.setSubmit, update_of_ne hqp]
  have ht : ∀ q, w.place q ≠ none → (w.setSubmit p s').tableOf q = w.tableOf q := by
    intro q hq
    by_cases hqp : q = p
    · subst hqp
      obtain ⟨-, s, hs, hts, -⟩ := hsame hq
      simp [World.tableOf, World.setSubmit, hs, hts]
    · simp [World.tableOf, World.setSubmit, update_of_ne hqp]
  have hplaced : ∀ {waiters : List ℕ} {batches : List (Batch S)} {where_ : Option ℕ},
      Holds w waiters batches where_ → Holds (w.setSubmit p s') waiters batches where_ := by
    intro waiters batches where_ hh
    refine hh.congr (fun q hq => hb q ?_) fun q _ => rfl
    rw [hh.placed q hq]
    simp
  refine { entry := ?_, taken := fun f fl tk hf htk => hplaced (h.taken f fl tk hf htk),
           placed := ?_, owned := ?_, held := h.held, extentIds := h.extentIds,
           extents := h.extents, committed := h.committed, jobsNodup := h.jobsNodup,
           jobs := h.jobs, returned := ?_ }
  · intro t e he
    obtain ⟨hk, hh, htab⟩ := h.entry t e he
    refine ⟨hk, hplaced hh, fun q hq => ?_⟩
    rw [ht q (by rw [hh.placed q hq]; simp), htab q hq]
  · intro q hq
    by_cases hqp : q = p
    · subst hqp
      exact ⟨s', update_self .., (hsame hq).1⟩
    · obtain ⟨s, hs, hins⟩ := h.placed q hq
      exact ⟨s, by simpa [World.setSubmit, update_of_ne hqp] using hs, hins⟩
  · intro q s hs
    by_cases hqp : q = p
    · subst hqp
      obtain rfl : s' = s := by simpa [World.setSubmit] using hs
      exact hown
    · exact h.owned q s (by simpa [World.setSubmit, update_of_ne hqp] using hs)
  · intro q s f hs hph
    by_cases hqp : q = p
    · subst hqp
      obtain rfl : s' = s := by simpa [World.setSubmit] using hs
      exact absurd hph (hret f)
    · exact h.returned q s f (by simpa [World.setSubmit, update_of_ne hqp] using hs) hph

theorem Inv.unplaced (h : Inv w) {s : Submit S} (hs : w.submits p = some s)
    (hph : s.phase.inserted = false) : w.place p = none := by
  by_contra hne
  obtain ⟨s', hs', hins⟩ := h.placed p hne
  obtain rfl : s = s' := by simpa [hs] using hs'
  rw [hph] at hins
  cases hins

theorem Inv.setPhase (h : Inv w) {s : Submit S} (hs : w.submits p = some s)
    (hph : s.phase.inserted = false) {ph : Phase} (hret : ∀ f, ph ≠ .returned (.flushed f)) :
    Inv (w.setSubmit p { s with phase := ph }) :=
  h.setSubmit (h.owned p s hs) (fun hne => absurd (h.unplaced hs hph) hne) hret

theorem nodup_mkBatches (p : ℕ) (schema : S) (sizes : List (ℕ × ℕ)) : (mkBatches p schema sizes).Nodup := by
  refine List.Nodup.of_map Batch.position ?_
  rw [mkBatches, map_map]
  have hpos : (Batch.position ∘ fun q : (ℕ × ℕ) × ℕ =>
      (⟨p, q.2, schema, q.1.1, q.1.2⟩ : Batch S)) = Prod.snd := rfl
  rw [hpos, zipIdx_map_snd]
  exact nodup_range' ..

theorem owner_mkBatches {schema : S} {sizes : List (ℕ × ℕ)} {b : Batch S}
    (hb : b ∈ mkBatches p schema sizes) : b.owner = p ∧ b.schema = schema := by
  obtain ⟨q, -, rfl⟩ := mem_map.mp hb
  exact ⟨rfl, rfl⟩

theorem Inv.settle (h : Inv w) {waiters : List ℕ} {o : Outcome} (hne : o ≠ .noop)
    (ho : ∀ f, o = .flushed f → f ∈ w.committedIds ∧ ∀ p ∈ waiters, p ∈ w.waitersOf f) : Inv (w.settle waiters o) := by
  -- a request is what it was, or it was waiting and has the outcome now
  have hcases : ∀ p s', (w.settle waiters o).submits p = some s' → ∃ s, w.submits p = some s ∧
      s'.table = s.table ∧ s'.batches = s.batches ∧
      (s'.phase = s.phase ∨ (p ∈ waiters ∧ s.phase = .waiting ∧ s'.phase = .returned o)) := by
    intro p s' hs'
    simp only [World.settle] at hs'
    split at hs'
    · rename_i hmem
      obtain ⟨s, hs, rfl⟩ := Option.map_eq_some_iff.mp hs'
      refine ⟨s, hs, ?_⟩
      split
      · rename_i hwait
        exact ⟨rfl, rfl, .inr ⟨hmem, hwait, rfl⟩⟩
      · exact ⟨rfl, rfl, .inl rfl⟩
    · exact ⟨s', hs', rfl, rfl, .inl rfl⟩
  have hsome : ∀ p s, w.submits p = some s → ∃ s', (w.settle waiters o).submits p = some s' := by
    intro p s hs
    simp only [World.settle, hs]
    split
    · exact ⟨_, rfl⟩
    · exact ⟨_, rfl⟩
  have hb : ∀ p, (w.settle waiters o).batchesOf p = w.batchesOf p ∧ (w.settle waiters o).tableOf p = w.tableOf p := by
    intro p
    cases hs : w.submits p with
    | none => simp [World.batchesOf, World.tableOf, World.settle, hs]
    | some s =>
      obtain ⟨s', hs'⟩ := hsome p s hs
      obtain ⟨s₀, hs₀, htab, hbat, -⟩ := hcases p s' hs'
      obtain rfl : s = s₀ := by simpa [hs] using hs₀
      simp [World.batchesOf, World.tableOf, hs, hs', htab, hbat]
  refine { entry := ?_, taken := ?_, placed := ?_, owned := ?_, held := h.held,
           extentIds := h.extentIds, extents := h.extents, committed := h.committed,
           jobsNodup := h.jobsNodup, jobs := h.jobs, returned := ?_ }
  · intro t e he
    obtain ⟨hk, hh, htab⟩ := h.entry t e he
    exact ⟨hk, hh.congr (fun p _ => (hb p).1) fun p _ => rfl, fun p hp => (hb p).2.trans (htab p hp)⟩
  · intro f fl tk hf htk
    exact (h.taken f fl tk hf htk).congr (fun p _ => (hb p).1) fun p _ => rfl
  · intro p hp
    obtain ⟨s, hs, hins⟩ := h.placed p hp
    obtain ⟨s', hs'⟩ := hsome p s hs
    refine ⟨s', hs', ?_⟩
    obtain ⟨s₀, hs₀, -, -, hph | ⟨-, -, hph⟩⟩ := hcases p s' hs'
    · obtain rfl : s = s₀ := by simpa [hs] using hs₀
      rwa [hph]
    · rw [hph]
      cases o with
      | noop => exact absurd rfl hne
      | flushed f | failed => rfl
  · intro p s' hs'
    obtain ⟨s, hs, -, hbat, -⟩ := hcases p s' hs'
    rw [hbat]
    exact h.owned p s hs
  · intro p s' f hs' hph'
    obtain ⟨s, hs, -, -, hph | ⟨hmem, -, hph⟩⟩ := hcases p s' hs'
    · exact h.returned p s f hs (hph ▸ hph')
    · rw [hph] at hph'
      obtain rfl : o = .flushed f := by cases hph'; rfl
      exact ⟨(ho f rfl).1, (ho f rfl).2 p hmem⟩

end Requests

theorem Inv.inserted {w : World S} (h : Inv w) {p now : ℕ} {s : Submit S}
    (hs : w.submits p = some s) (hph : s.phase = .inserting) :
    Inv (w.inserted p s (((w.buffer s.table).getD (.empty s.schema now)).insert p s)) := by
  have hplace : w.place p = none := h.unplaced hs (by rw [hph]; rfl)
  obtain ⟨e, he⟩ : ∃ e, e = (w.buffer s.table).getD (.empty s.schema now) := ⟨_, rfl⟩
  rw [← he]
  -- what the entry held before, if there was one
  have hold : Holds w e.waiters e.batches none ∧ ∀ q ∈ e.waiters, w.tableOf q = some s.table := by
    cases hb : w.buffer s.table with
    | none =>
      rw [hb] at he
      subst he
      exact ⟨⟨nodup_nil, rfl, fun q hq => absurd hq not_mem_nil⟩, fun q hq => absurd hq not_mem_nil⟩
    | some e₀ =>
      rw [hb] at he
      subst he
      exact (h.entry s.table _ hb).2
  have hbatches : ∀ q, (w.inserted p s (e.insert p s)).batchesOf q = w.batchesOf q := by
    intro q
    by_cases hqp : q = p
    · simp [World.inserted, World.batchesOf, World.setSubmit, hqp, hs]
    · simp [World.inserted, World.batchesOf, World.setSubmit, update_of_ne hqp]
  have htable : ∀ q, (w.inserted p s (e.insert p s)).tableOf q = w.tableOf q := by
    intro q
    by_cases hqp : q = p
    · simp [World.inserted, World.tableOf, World.setSubmit, hqp, hs]
    · simp [World.inserted, World.tableOf, World.setSubmit, update_of_ne hqp]
  have hothers : ∀ {waiters : List ℕ} {batches : List (Batch S)} {where_ : Option ℕ},
      Holds w waiters batches where_ → Holds (w.inserted p s (e.insert p s)) waiters batches where_ := by
    intro waiters batches where_ hh
    refine hh.congr (fun q _ => hbatches q) fun q hq => ?_
    have hne : q ≠ p := fun heq => Inv.not_mem_of_unplaced hplace hh (heq ▸ hq)
    simp [World.inserted, update_of_ne hne]
  have hmem : p ∉ e.waiters := Inv.not_mem_of_unplaced hplace hold.1
  refine { entry := ?_, taken := fun f fl tk hf htk => hothers (h.taken f fl tk hf htk),
           placed := ?_, owned := ?_, held := h.held, extentIds := h.extentIds,
           extents := h.extents, committed := h.committed, jobsNodup := h.jobsNodup,
           jobs := h.jobs, returned := ?_ }
  · intro t e' he'
    by_cases ht : t = s.table
    · subst ht
      obtain rfl : e.insert p s = e' := by simpa [World.inserted] using he'
      refine ⟨?_, ⟨?_, ?_, ?_⟩, ?_⟩
      · simp only [World.inserted]
        split <;> simp_all
      · exact nodup_append'.mpr ⟨hold.1.nodup, nodup_singleton p, by
          simpa [disjoint_singleton] using hmem⟩
      · have hown : w.batchesOf p = s.batches := by simp [World.batchesOf, hs]
        have hrest := (hothers hold.1).batches_eq
        show e.batches ++ s.batches = (e.waiters ++ [p]).flatMap (w.inserted p s (e.insert p s)).batchesOf
        rw [flatMap_append, flatMap_singleton, hbatches p, hown, ← hrest]
      · intro q hq
        rcases mem_append.mp hq with hq | hq
        · exact (hothers hold.1).placed q hq
        · rw [mem_singleton.mp hq]
          simp [World.inserted]
      · intro q hq
        rw [htable]
        rcases mem_append.mp hq with hq | hq
        · exact hold.2 q hq
        · rw [mem_singleton.mp hq, World.tableOf, hs]
          rfl
    · have he₀ : w.buffer t = some e' := by
        simpa [World.inserted, update_of_ne ht] using he'
      obtain ⟨hk, hh, htab⟩ := h.entry t e' he₀
      refine ⟨?_, hothers hh, fun q hq => (htable q).trans (htab q hq)⟩
      simp only [World.inserted]
      split
      · exact hk
      · exact mem_append_left _ hk
  · intro q hq
    by_cases hqp : q = p
    · refine ⟨{ s with phase := .waiting }, ?_, rfl⟩
      rw [hqp]
      exact update_self ..
    · obtain ⟨s', hs', hins⟩ := h.placed q (by
        simpa [World.inserted, update_of_ne hqp] using hq)
      refine ⟨s', ?_, hins⟩
      simpa [World.inserted, World.setSubmit, update_of_ne hqp] using hs'
  · intro q s' hs'
    by_cases hqp : q = p
    · subst hqp
      obtain rfl : { s with phase := .waiting } = s' := by
        simpa [World.inserted, World.setSubmit] using hs'
      exact h.owned q s hs
    · exact h.owned q s' (by
        simpa [World.inserted, World.setSubmit, update_of_ne hqp] using hs')
  · intro q s' f hs' hph'
    by_cases hqp : q = p
    · subst hqp
      obtain rfl : { s with phase := .waiting } = s' := by
        simpa [World.inserted, World.setSubmit] using hs'
      cases hph'
    · exact h.returned q s' f (by
        simpa [World.inserted, World.setSubmit, update_of_ne hqp] using hs') hph'

/-! ### Flushes -/

variable {fl : Flush S} {f : ℕ}

section Flushes

variable {w : World S}

theorem waitersOf_eq (hf : w.flushes f = some fl) : w.waitersOf f = (fl.taken.map Taken.waiters).getD [] := by
  rw [World.waitersOf, hf]

theorem Inv.fresh (h : Inv w) {f : ℕ} (hf : w.flushes f = none) : f ∉ w.committedIds ∧ f ∉ w.channel ++ w.batch := by
  constructor
  · intro hmem
    obtain ⟨e, he, rfl⟩ := mem_map.mp hmem
    obtain ⟨fl, tk, hfl, -⟩ := h.extents e he
    rw [hf] at hfl
    cases hfl
  · intro hmem
    obtain ⟨fl, hfl, -⟩ := h.jobs f hmem
    rw [hf] at hfl
    cases hfl

theorem Inv.spawn (h : Inv w) {f : ℕ} (hf : w.flushes f = none) (t : TableId) : Inv (w.spawn f t) := by
  obtain ⟨hcom, hjob⟩ := h.fresh hf
  have hother : ∀ g, g ≠ f → (w.spawn f t).flushes g = w.flushes g := fun g hg => update_of_ne hg ..
  have hself : (w.spawn f t).flushes f = some ⟨t, .starting, none, 0⟩ := update_self ..
  refine { entry := ?_, taken := ?_, placed := h.placed, owned := h.owned, held := ?_,
           extentIds := h.extentIds, extents := ?_, committed := ?_, jobsNodup := h.jobsNodup,
           jobs := ?_, returned := ?_ }
  · intro t' e he
    obtain ⟨hk, hh, htab⟩ := h.entry t' e he
    exact ⟨hk, hh.of_eq rfl rfl, htab⟩
  · intro g fl tk hg htk
    by_cases hgf : g = f
    · rw [hgf, hself] at hg
      cases hg
      cases htk
    · exact (h.taken g fl tk (hother g hgf ▸ hg) htk).of_eq rfl rfl
  · intro g fl hg
    by_cases hgf : g = f
    · rw [hgf, hself] at hg
      cases hg
      exact ⟨fun _ => rfl, fun hne => absurd rfl hne⟩
    · exact h.held g fl (hother g hgf ▸ hg)
  · intro e he
    have hne : e.id ≠ f := fun heq => hcom (heq ▸ mem_map_of_mem he)
    rw [hother e.id hne]
    exact h.extents e he
  · intro g fl hg hst
    by_cases hgf : g = f
    · rw [hgf, hself] at hg
      cases hg
      cases hst
    · exact h.committed g fl (hother g hgf ▸ hg) hst
  · intro g hg
    have hne : g ≠ f := fun heq => hjob (heq ▸ hg)
    rw [hother g hne]
    exact h.jobs g hg
  · intro p s g hs hph
    obtain ⟨hg, hmem⟩ := h.returned p s g hs hph
    have hne : g ≠ f := fun heq => hcom (heq ▸ hg)
    refine ⟨hg, ?_⟩
    rw [World.waitersOf, hother g hne]
    exact hmem

theorem Inv.uncommitted (h : Inv w) (hf : w.flushes f = some fl)
    (hcom : fl.status ≠ .committed) (hfin : fl.status ≠ .finished) : f ∉ w.committedIds := by
  intro hmem
  obtain ⟨e, he, rfl⟩ := mem_map.mp hmem
  obtain ⟨fl', -, hfl', -, -, hst⟩ := h.extents e he
  obtain rfl : fl = fl' := by simpa [hf] using hfl'
  rcases hst with hst | hst
  · exact hcom hst
  · exact hfin hst

theorem Inv.no_job (h : Inv w) {f : ℕ} {fl : Flush S} (hf : w.flushes f = some fl)
    (hq : fl.status ≠ .queued) : f ∉ w.channel ++ w.batch := by
  intro hmem
  obtain ⟨fl', hfl', hst⟩ := h.jobs f hmem
  obtain rfl : fl = fl' := by simpa [hf] using hfl'
  exact hq hst

theorem Inv.took (h : Inv w) {f now : ℕ} {fl : Flush S} {e : Entry S} (hf : w.flushes f = some fl)
    (hst : fl.status = .starting) (he : w.buffer fl.table = some e) : Inv (w.took f now fl e) := by
  obtain ⟨hkey, hhold, htab⟩ := h.entry fl.table e he
  have hcom : f ∉ w.committedIds := h.uncommitted hf (by simp [hst]) (by simp [hst])
  have hjob : f ∉ w.channel ++ w.batch := h.no_job hf (by simp [hst])
  have hother : ∀ g, g ≠ f → (w.took f now fl e).flushes g = w.flushes g := fun g hg => update_of_ne hg ..
  have hself : (w.took f now fl e).flushes f =
      some { fl with status := .taken, taken := some e.take } := update_self ..
  -- requests that are elsewhere stay there
  have hothers : ∀ {waiters : List ℕ} {batches : List (Batch S)} {where_ : Option ℕ},
      Holds w waiters batches where_ → (∀ q ∈ waiters, q ∉ e.waiters) →
        Holds (w.took f now fl e) waiters batches where_ := by
    intro waiters batches where_ hh hdisj
    refine hh.congr (fun q _ => rfl) fun q hq => ?_
    simp [World.took, hdisj q hq]
  refine { entry := ?_, taken := ?_, placed := ?_, owned := h.owned, held := ?_,
           extentIds := h.extentIds, extents := ?_, committed := ?_, jobsNodup := h.jobsNodup,
           jobs := ?_, returned := ?_ }
  · intro t e' he'
    by_cases ht : t = fl.table
    · subst ht
      obtain rfl : e.emptied now = e' := by simpa [World.took] using he'
      exact ⟨hkey, ⟨nodup_nil, rfl, fun q hq => absurd hq not_mem_nil⟩, fun q hq => absurd hq not_mem_nil⟩
    · have he₀ : w.buffer t = some e' := by
        simpa [World.took, update_of_ne ht] using he'
      obtain ⟨hk, hh, htab'⟩ := h.entry t e' he₀
      refine ⟨hk, hothers hh fun q hq hmem => ht ?_, htab'⟩
      exact Option.some.inj ((htab' q hq).symm.trans (htab q hmem))
  · intro g fl' tk hg htk
    by_cases hgf : g = f
    · rw [hgf, hself] at hg
      cases hg
      obtain rfl : e.take = tk := Option.some.inj htk
      refine ⟨hhold.nodup, hhold.batches_eq, fun q hq => ?_⟩
      have hq' : q ∈ e.waiters := hq
      simp [World.took, hq', hgf]
    · have hg₀ : w.flushes g = some fl' := hother g hgf ▸ hg
      refine hothers (h.taken g fl' tk hg₀ htk) fun q hq hmem => ?_
      have h₁ := (h.taken g fl' tk hg₀ htk).placed q hq
      rw [hhold.placed q hmem] at h₁
      cases h₁
  · intro q hq
    by_cases hmem : q ∈ e.waiters
    · exact h.placed q (by rw [hhold.placed q hmem]; simp)
    · exact h.placed q (by simpa [World.took, hmem] using hq)
  · intro g fl' hg
    by_cases hgf : g = f
    · rw [hgf, hself] at hg
      cases hg
      exact ⟨fun hs => absurd hs (by simp), fun _ _ => by simp⟩
    · exact h.held g fl' (hother g hgf ▸ hg)
  · intro x hx
    have hne : x.id ≠ f := fun heq => hcom (heq ▸ mem_map_of_mem hx)
    rw [hother x.id hne]
    exact h.extents x hx
  · intro g fl' hg hst'
    by_cases hgf : g = f
    · rw [hgf, hself] at hg
      cases hg
      cases hst'
    · exact h.committed g fl' (hother g hgf ▸ hg) hst'
  · intro g hg
    have hne : g ≠ f := fun heq => hjob (heq ▸ hg)
    rw [hother g hne]
    exact h.jobs g hg
  · intro p s g hs hph
    obtain ⟨hg, hmem⟩ := h.returned p s g hs hph
    have hne : g ≠ f := fun heq => hcom (heq ▸ hg)
    refine ⟨hg, ?_⟩
    rw [World.waitersOf, hother g hne]
    exact hmem

variable {fs : List ℕ}

theorem mark_flushes {st : Status} {fl' : Flush S}
    (hf : (w.mark fs st).flushes f = some fl') : ∃ fl, w.flushes f = some fl ∧
      fl'.taken = fl.taken ∧ fl'.table = fl.table ∧
      ((f ∉ fs ∧ fl'.status = fl.status) ∨ (f ∈ fs ∧ fl'.status = st)) := by
  simp only [World.mark] at hf
  split at hf
  · rename_i hmem
    obtain ⟨fl, hfl, rfl⟩ := Option.map_eq_some_iff.mp hf
    exact ⟨fl, hfl, rfl, rfl, .inr ⟨hmem, rfl⟩⟩
  · rename_i hmem
    exact ⟨fl', hf, rfl, rfl, .inl ⟨hmem, rfl⟩⟩

theorem mark_flushes_of (fs : List ℕ) (st : Status) {f : ℕ} {fl : Flush S}
    (hf : w.flushes f = some fl) : ∃ fl', (w.mark fs st).flushes f = some fl' ∧
      fl'.taken = fl.taken ∧ fl'.table = fl.table ∧ (f ∉ fs → fl'.status = fl.status) ∧ (f ∈ fs → fl'.status = st) := by
  simp only [World.mark, hf]
  split
  · rename_i hmem
    exact ⟨_, rfl, rfl, rfl, fun hn => absurd hmem hn, fun _ => rfl⟩
  · rename_i hmem
    exact ⟨fl, rfl, rfl, rfl, fun _ => rfl, fun hm => absurd hm hmem⟩

theorem waitersOf_mark (fs : List ℕ) (st : Status) (f : ℕ) : (w.mark fs st).waitersOf f = w.waitersOf f := by
  cases hf : w.flushes f with
  | none => simp [World.waitersOf, World.mark, hf]
  | some fl =>
    obtain ⟨fl', hfl', htk, -⟩ := mark_flushes_of fs st hf
    rw [waitersOf_eq hfl', waitersOf_eq hf, htk]

/-- **Flushes go on** to a status that what they have taken allows, and the catalog gains the
extents `cs` in the same step. -/
theorem Inv.marked (h : Inv w) {st : Status} {cs : List (Extent S)}
    (hstart : st ≠ .starting) (htaken : st ≠ .finished → ∀ f ∈ fs, ∀ fl, w.flushes f = some fl → fl.taken ≠ none)
    (hjob : ∀ f ∈ fs, f ∉ w.channel ++ w.batch) (hids : ((w.committed ++ cs).map Extent.id).Nodup)
    (hold : st = .finished ∨ ∀ f ∈ fs, f ∉ w.committedIds)
    (hnew : ∀ e ∈ cs, st = .committed ∧ e.id ∈ fs ∧ ∃ fl tk, w.flushes e.id = some fl ∧
      fl.taken = some tk ∧ e.batches = tk.batches) (hcom : st = .committed → ∀ f ∈ fs, f ∈ cs.map Extent.id) :
    Inv { w.mark fs st with committed := w.committed ++ cs } := by
  refine { entry := ?_, taken := ?_, placed := h.placed, owned := h.owned, held := ?_,
           extentIds := hids, extents := ?_, committed := ?_, jobsNodup := h.jobsNodup,
           jobs := ?_, returned := ?_ }
  · intro t e he
    obtain ⟨hk, hh, htab⟩ := h.entry t e he
    exact ⟨hk, hh.of_eq rfl rfl, htab⟩
  · intro f fl' tk hf htk
    obtain ⟨fl, hfl, hsame, -⟩ := mark_flushes hf
    exact (h.taken f fl tk hfl (hsame ▸ htk)).of_eq rfl rfl
  · intro f fl' hf
    obtain ⟨fl, hfl, hsame, -, ⟨-, hst⟩ | ⟨hmem, hst⟩⟩ := mark_flushes hf
    · rw [hsame, hst]
      exact h.held f fl hfl
    · rw [hsame, hst]
      exact ⟨fun heq => absurd heq hstart, fun _ hfin => htaken hfin f hmem fl hfl⟩
  · intro e he
    rcases mem_append.mp he with he | he
    · obtain ⟨fl, tk, hfl, htk, hbat, hst⟩ := h.extents e he
      obtain ⟨fl', hfl', hsame, -, hout, hin⟩ := mark_flushes_of fs st hfl
      refine ⟨fl', tk, hfl', hsame.trans htk, hbat, ?_⟩
      by_cases hmem : e.id ∈ fs
      · rcases hold with hfin | hold
        · exact .inr ((hin hmem).trans hfin)
        · exact absurd (mem_map_of_mem he) (hold e.id hmem)
      · rwa [hout hmem]
    · obtain ⟨hst, hmem, fl, tk, hfl, htk, hbat⟩ := hnew e he
      obtain ⟨fl', hfl', hsame, -, -, hin⟩ := mark_flushes_of fs st hfl
      exact ⟨fl', tk, hfl', hsame.trans htk, hbat, .inl ((hin hmem).trans hst)⟩
  · intro f fl' hf hst'
    rw [World.committedIds, map_append]
    obtain ⟨fl, hfl, -, -, ⟨-, hst⟩ | ⟨hmem, hst⟩⟩ := mark_flushes hf
    · exact mem_append_left _ (h.committed f fl hfl (hst ▸ hst'))
    · exact mem_append_right _ (hcom (hst ▸ hst') f hmem)
  · intro f hf
    obtain ⟨fl, hfl, hst⟩ := h.jobs f hf
    obtain ⟨fl', hfl', -, -, hout, -⟩ := mark_flushes_of fs st hfl
    exact ⟨fl', hfl', (hout fun hmem => hjob f hmem hf).trans hst⟩
  · intro p s f hs hph
    obtain ⟨hf, hmem⟩ := h.returned p s f hs hph
    refine ⟨?_, ?_⟩
    · rw [World.committedIds, map_append]
      exact mem_append_left _ hf
    · exact (waitersOf_mark fs st f).symm ▸ hmem

theorem Inv.mark (h : Inv w) {st : Status} (hstart : st ≠ .starting)
    (hcom : st ≠ .committed) (htaken : st ≠ .finished → ∀ f ∈ fs, ∀ fl, w.flushes f = some fl → fl.taken ≠ none)
    (hjob : ∀ f ∈ fs, f ∉ w.channel ++ w.batch)
    (hold : st = .finished ∨ ∀ f ∈ fs, f ∉ w.committedIds) : Inv (w.mark fs st) := by
  have hids : ((w.committed ++ []).map Extent.id).Nodup := by
    rw [append_nil]
    exact h.extentIds
  have hall : Inv { w.mark fs st with committed := w.committed ++ [] } :=
    h.marked hstart htaken hjob hids hold (fun e he => absurd he not_mem_nil) fun heq => absurd heq hcom
  rw [append_nil] at hall
  exact hall

theorem Inv.commit (h : Inv w) (hnodup : fs.Nodup)
    (hfs : ∀ f ∈ fs, ∃ fl, w.flushes f = some fl ∧ fl.status ≠ .starting ∧
      fl.status ≠ .committed ∧ fl.status ≠ .finished)
    (hjob : ∀ f ∈ fs, f ∉ w.channel ++ w.batch) : Inv (w.commit fs) := by
  have hheld : ∀ f ∈ fs, ∃ fl tk, w.flushes f = some fl ∧ fl.taken = some tk := by
    intro f hf
    obtain ⟨fl, hfl, hs, -, hfin⟩ := hfs f hf
    obtain ⟨tk, htk⟩ := Option.ne_none_iff_exists'.mp ((h.held f fl hfl).2 hs hfin)
    exact ⟨fl, tk, hfl, htk⟩
  have hnone : ∀ f ∈ fs, f ∉ w.committedIds := by
    intro f hf
    obtain ⟨fl, hfl, -, hcom, hfin⟩ := hfs f hf
    exact h.uncommitted hfl hcom hfin
  have hextent : ∀ f ∈ fs, ∃ e, w.extentOf f = some e ∧ e.id = f ∧
      ∃ fl tk, w.flushes f = some fl ∧ fl.taken = some tk ∧ e.batches = tk.batches := by
    intro f hf
    obtain ⟨fl, tk, hfl, htk⟩ := hheld f hf
    exact ⟨⟨f, fl.table, tk.schema, tk.batches⟩, by simp [World.extentOf, hfl, htk], rfl, fl, tk, hfl, htk, rfl⟩
  have hids : (fs.filterMap w.extentOf).map Extent.id = fs := by
    clear hnodup hjob hnone hheld hfs
    induction fs with
    | nil => rfl
    | cons f fs ih =>
      obtain ⟨e, he, hid, -⟩ := hextent f mem_cons_self
      rw [filterMap_cons_some he, map_cons, hid, ih fun g hg => hextent g (mem_cons_of_mem f hg)]
  refine h.marked (by simp) (fun _ f hf fl hfl => ?_) hjob ?_ (.inr hnone) ?_ ?_
  · obtain ⟨fl', tk, hfl', htk⟩ := hheld f hf
    obtain rfl : fl = fl' := by simpa [hfl] using hfl'
    simp [htk]
  · rw [map_append, hids]
    refine nodup_append'.mpr ⟨h.extentIds, hnodup, ?_⟩
    exact fun f hf hmem => hnone f hmem hf
  · intro e he
    obtain ⟨f, hf, hex⟩ := mem_filterMap.mp he
    obtain ⟨e', he', hid, hrest⟩ := hextent f hf
    obtain rfl : e = e' := by simpa [hex] using he'
    rw [hid]
    exact ⟨rfl, hf, hrest⟩
  · intro _ f hf
    rwa [hids]

theorem Inv.jobs_sublist (h : Inv w) {c b : List ℕ} (hnodup : (c ++ b).Nodup)
    (hq : ∀ f ∈ c ++ b, ∃ fl, w.flushes f = some fl ∧ fl.status = .queued) (g : Option (TableId × ℕ)) (d : Drain) :
    Inv { w with channel := c, batch := b, group := g, drain := d } where
  entry := fun t e he => ⟨(h.entry t e he).1, (h.entry t e he).2.1.of_eq rfl rfl, (h.entry t e he).2.2⟩
  taken := fun f fl tk hf htk => (h.taken f fl tk hf htk).of_eq rfl rfl
  placed := h.placed
  owned := h.owned
  held := h.held
  extentIds := h.extentIds
  extents := h.extents
  committed := h.committed
  jobsNodup := hnodup
  jobs := hq
  returned := h.returned

theorem Inv.fail (h : Inv w) (hjob : ∀ f ∈ fs, f ∉ w.channel ++ w.batch) : Inv (w.fail fs) := by
  have hs : Inv (w.settle (fs.flatMap w.waitersOf) .failed) := h.settle (by simp) fun f hf => by cases hf
  exact hs.mark (by simp) (by simp) (fun hne => absurd rfl hne) hjob (.inl rfl)

theorem Inv.retry (h : Inv w) {f : ℕ} {fl : Flush S} (hf : w.flushes f = some fl) (n : ℕ) :
    Inv { w with flushes := Function.update w.flushes f (some { fl with attempt := n }) } := by
  -- every flush is what it was, but for the count
  have hback : ∀ g fl', Function.update w.flushes f (some { fl with attempt := n }) g = some fl' →
      ∃ fl₀, w.flushes g = some fl₀ ∧ fl'.taken = fl₀.taken ∧ fl'.status = fl₀.status := by
    intro g fl' hg
    by_cases hgf : g = f
    · rw [hgf, update_self] at hg
      cases hg
      exact ⟨fl, hgf ▸ hf, rfl, rfl⟩
    · rw [update_of_ne hgf] at hg
      exact ⟨fl', hg, rfl, rfl⟩
  have hfwd : ∀ g fl₀, w.flushes g = some fl₀ →
      ∃ fl', Function.update w.flushes f (some { fl with attempt := n }) g = some fl' ∧
        fl'.taken = fl₀.taken ∧ fl'.status = fl₀.status := by
    intro g fl₀ hg
    by_cases hgf : g = f
    · subst hgf
      obtain rfl : fl = fl₀ := by simpa [hf] using hg
      exact ⟨_, update_self .., rfl, rfl⟩
    · exact ⟨fl₀, by rwa [update_of_ne hgf], rfl, rfl⟩
  refine { entry := ?_, taken := ?_, placed := h.placed, owned := h.owned, held := ?_,
           extentIds := h.extentIds, extents := ?_, committed := ?_, jobsNodup := h.jobsNodup,
           jobs := ?_, returned := ?_ }
  · intro t e he
    obtain ⟨hk, hh, htab⟩ := h.entry t e he
    exact ⟨hk, hh.of_eq rfl rfl, htab⟩
  · intro g fl' tk hg htk
    obtain ⟨fl₀, hfl₀, hsame, -⟩ := hback g fl' hg
    exact (h.taken g fl₀ tk hfl₀ (hsame ▸ htk)).of_eq rfl rfl
  · intro g fl' hg
    obtain ⟨fl₀, hfl₀, hsame, hst⟩ := hback g fl' hg
    rw [hsame, hst]
    exact h.held g fl₀ hfl₀
  · intro e he
    obtain ⟨fl₀, tk, hfl₀, htk, hbat, hst⟩ := h.extents e he
    obtain ⟨fl', hfl', hsame, hst'⟩ := hfwd e.id fl₀ hfl₀
    exact ⟨fl', tk, hfl', hsame.trans htk, hbat, hst' ▸ hst⟩
  · intro g fl' hg hst
    obtain ⟨fl₀, hfl₀, -, hst'⟩ := hback g fl' hg
    exact h.committed g fl₀ hfl₀ (hst' ▸ hst)
  · intro g hg
    obtain ⟨fl₀, hfl₀, hst⟩ := h.jobs g hg
    obtain ⟨fl', hfl', -, hst'⟩ := hfwd g fl₀ hfl₀
    exact ⟨fl', hfl', hst'.trans hst⟩
  · intro p s g hs hph
    obtain ⟨hg, hmem⟩ := h.returned p s g hs hph
    refine ⟨hg, ?_⟩
    obtain ⟨e, he, rfl⟩ := mem_map.mp hg
    obtain ⟨fl₀, -, hfl₀, -⟩ := h.extents e he
    obtain ⟨fl', hfl', hsame, -⟩ := hfwd e.id fl₀ hfl₀
    rw [waitersOf_eq hfl₀] at hmem
    rw [waitersOf_eq hfl', hsame]
    exact hmem

end Flushes

section Steps

variable {cfg : Config} {w w' : World S}

theorem Inv.check [DecidableEq S] (h : Inv w) {p f : ℕ} {s : Submit S} (hs : w.submits p = some s)
    (hph : s.phase = .checking) (hw : w.check p f s = some w') : Inv w' := by
  have hphase : ∀ ph, (∀ g, ph ≠ .returned (.flushed g)) → Inv (w.setSubmit p { s with phase := ph }) :=
    fun ph hne => h.setPhase hs (by rw [hph]; rfl) hne
  simp only [World.check] at hw
  split at hw
  · split at hw
    · cases hw
      exact hphase _ (by simp)
    · split at hw
      · rename_i hnone
        cases hw
        exact (hphase _ (by simp)).spawn hnone s.table
      · cases hw
  · cases hw
    exact hphase _ (by simp)

theorem Inv.insert (h : Inv w) {p f now : ℕ} {s : Submit S} (hs : w.submits p = some s)
    (hph : s.phase = .inserting) (hw : w.insert cfg p f now s = some w') : Inv w' := by
  simp only [World.insert] at hw
  split at hw
  · split at hw
    · rename_i hnone
      cases hw
      exact (h.inserted hs hph).spawn hnone s.table
    · cases hw
  · cases hw
    exact h.inserted hs hph

theorem Inv.take (h : Inv w) {f now : ℕ} (hf : w.flushes f = some fl)
    (hst : fl.status = .starting) : Inv (w.take f now fl) := by
  have hdone : Inv (w.mark [f] .finished) := by
    refine h.mark (by simp) (by simp) (fun hne => absurd rfl hne) (fun g hg => ?_) (.inl rfl)
    rw [mem_singleton.mp hg]
    exact h.no_job hf (by simp [hst])
  simp only [World.take]
  split
  · rename_i e he
    split
    · exact hdone
    · exact h.took hf hst he
  · exact hdone

theorem Inv.failOne (h : Inv w) (hf : w.flushes f = some fl) (hq : fl.status ≠ .queued) : Inv (w.fail [f]) := by
  refine h.fail fun g hg => ?_
  rw [mem_singleton.mp hg]
  exact h.no_job hf hq

theorem Inv.markOne (h : Inv w) {f : ℕ} {fl : Flush S} {st : Status} (hf : w.flushes f = some fl)
    (hfl : fl.status = .taken ∨ fl.status = .written) (hst : st = .written ∨ st = .queued) : Inv (w.mark [f] st) := by
  refine h.mark ?_ ?_ (fun _ g hg fl' hfl' => ?_) (fun g hg => ?_) (.inr fun g hg => ?_)
  · rcases hst with rfl | rfl <;> simp
  · rcases hst with rfl | rfl <;> simp
  · rw [mem_singleton.mp hg] at hfl'
    obtain rfl : fl = fl' := by simpa [hf] using hfl'
    exact (h.held f fl hf).2 (by rcases hfl with e | e <;> simp [e])
      (by rcases hfl with e | e <;> simp [e])
  · rw [mem_singleton.mp hg]
    exact h.no_job hf (by rcases hfl with e | e <;> simp [e])
  · rw [mem_singleton.mp hg]
    exact h.uncommitted hf (by rcases hfl with e | e <;> simp [e])
      (by rcases hfl with e | e <;> simp [e])

theorem Inv.commitDirect (h : Inv w) (hf : w.flushes f = some fl)
    (hst : fl.status = .written) (a : Attempt) : Inv (w.commitDirect f fl a) := by
  cases a with
  | ok =>
    refine h.commit (nodup_singleton f) (fun g hg => ?_) fun g hg => ?_
    · rw [mem_singleton.mp hg]
      exact ⟨fl, hf, by simp [hst], by simp [hst], by simp [hst]⟩
    · rw [mem_singleton.mp hg]
      exact h.no_job hf (by simp [hst])
  | conflict =>
    simp only [World.commitDirect]
    split
    · exact h.retry hf (fl.attempt + 1)
    · exact h.failOne hf (by simp [hst])
  | error => exact h.failOne hf (by simp [hst])

theorem Inv.nextGroup (h : Inv w) (t : TableId) : Inv (w.nextGroup t) ∧
    ∀ f ∈ w.jobsOf t, f ∉ (w.nextGroup t).channel ++ (w.nextGroup t).batch := by
  have hsub : (w.channel ++ (w.nextGroup t).batch).Sublist (w.channel ++ w.batch) :=
    List.Sublist.append_left filter_sublist w.channel
  refine ⟨h.jobs_sublist (h.jobsNodup.sublist hsub) (fun f hf => h.jobs f (hsub.subset hf)) none w.drain, ?_⟩
  intro f hf hmem
  obtain ⟨hbatch, htable⟩ := mem_filter.mp hf
  rcases mem_append.mp hmem with hc | hb
  · exact (nodup_append'.mp h.jobsNodup).2.2 hc hbatch
  · have hne := (mem_filter.mp hb).2
    simp_all

theorem Inv.commitGroup (h : Inv w) (t : TableId) (n : ℕ) (a : Attempt) : Inv (w.commitGroup t n a) := by
  obtain ⟨hnext, hjob⟩ := h.nextGroup t
  cases a with
  | ok =>
    refine hnext.commit ?_ (fun f hf => ?_) hjob
    · exact (nodup_append'.mp h.jobsNodup).2.1.filter _
    · have hmem : f ∈ w.channel ++ w.batch := mem_append_right _ (mem_of_mem_filter hf)
      obtain ⟨fl, hfl, hst⟩ := h.jobs f hmem
      exact ⟨fl, hfl, by simp [hst], by simp [hst], by simp [hst]⟩
  | conflict =>
    simp only [World.commitGroup]
    split
    · exact h.jobs_sublist h.jobsNodup h.jobs _ _
    · exact hnext.fail hjob
  | error => exact hnext.fail hjob

variable [DecidableEq S]

theorem inv_step {a : Action S} (h : Inv w) (hstep : step cfg w a = some w') : Inv w' := by
  cases a with
  | submit p table schema sizes =>
    simp only [step] at hstep
    split at hstep
    · rename_i hnone
      cases hstep
      refine h.setSubmit ⟨nodup_mkBatches p schema sizes, fun b hb => (owner_mkBatches hb).1⟩
        (fun hne => ?_) fun f => ?_
      · -- a request that is not there yet has no batches anywhere
        obtain ⟨s, hs, -⟩ := h.placed p hne
        rw [hnone] at hs
        cases hs
      · dsimp only
        split <;> simp
    · cases hstep
  | check p f =>
    obtain ⟨s, hs, hrest⟩ := Option.bind_eq_some_iff.mp hstep
    obtain ⟨hph, hw⟩ := Option.ite_none_right_eq_some.mp hrest
    exact h.check hs hph hw
  | resume p =>
    obtain ⟨s, hs, hrest⟩ := Option.bind_eq_some_iff.mp hstep
    split at hrest
    · rename_i f hph
      obtain ⟨-, hw⟩ := Option.ite_none_right_eq_some.mp hrest
      cases hw
      exact h.setPhase hs (by rw [hph]; rfl) (by simp)
    · cases hrest
  | insert p f now =>
    obtain ⟨s, hs, hrest⟩ := Option.bind_eq_some_iff.mp hstep
    obtain ⟨hph, hw⟩ := Option.ite_none_right_eq_some.mp hrest
    exact h.insert hs hph hw
  | cancel p =>
    obtain ⟨s, hs, hrest⟩ := Option.bind_eq_some_iff.mp hstep
    split at hrest
    · cases hrest
    · cases hrest
      exact h.setSubmit (h.owned p s hs) (fun _ => ⟨rfl, s, hs, rfl, rfl⟩) (by simp)
  | age table f now =>
    obtain ⟨e, -, hrest⟩ := Option.bind_eq_some_iff.mp hstep
    obtain ⟨⟨-, -, hnone⟩, hw⟩ := Option.ite_none_right_eq_some.mp hrest
    cases hw
    exact h.spawn hnone table
  | take f now =>
    obtain ⟨fl, hf, hrest⟩ := Option.bind_eq_some_iff.mp hstep
    obtain ⟨hst, hw⟩ := Option.ite_none_right_eq_some.mp hrest
    cases hw
    exact h.take hf hst
  | abort f =>
    obtain ⟨fl, hf, hrest⟩ := Option.bind_eq_some_iff.mp hstep
    obtain ⟨hst, hw⟩ := Option.ite_none_right_eq_some.mp hrest
    cases hw
    exact h.failOne hf (by rcases hst with e | e <;> simp [e])
  | write f =>
    obtain ⟨fl, hf, hrest⟩ := Option.bind_eq_some_iff.mp hstep
    split at hrest
    · rename_i tk hst htk
      cases hrest
      simp only [World.write]
      split
      · exact h.markOne hf (.inl hst) (.inl rfl)
      · exact h.failOne hf (by simp [hst])
    · cases hrest
  | commitDirect f attempt =>
    obtain ⟨fl, hf, hrest⟩ := Option.bind_eq_some_iff.mp hstep
    obtain ⟨⟨hst, -⟩, hw⟩ := Option.ite_none_right_eq_some.mp hrest
    cases hw
    exact h.commitDirect hf hst attempt
  | hand f =>
    obtain ⟨fl, hf, hrest⟩ := Option.bind_eq_some_iff.mp hstep
    obtain ⟨⟨hst, -⟩, hw⟩ := Option.ite_none_right_eq_some.mp hrest
    cases hw
    have hmark : Inv (w.mark [f] .queued) := h.markOne hf (.inr hst) (.inr rfl)
    have hnew : f ∉ w.channel ++ w.batch := h.no_job hf (by simp [hst])
    have hperm : (w.channel ++ [f] ++ w.batch).Perm (f :: (w.channel ++ w.batch)) := by
      rw [append_assoc]
      exact perm_middle
    refine hmark.jobs_sublist ?_ (fun g hg => ?_) w.group w.drain
    · exact hperm.nodup_iff.mpr (nodup_cons.mpr ⟨hnew, h.jobsNodup⟩)
    · rcases mem_cons.mp (hperm.mem_iff.mp hg) with rfl | hg
      · obtain ⟨fl', hfl', -, -, -, hin⟩ := mark_flushes_of [g] .queued hf
        exact ⟨fl', hfl', hin (mem_singleton_self g)⟩
      · exact hmark.jobs g hg
  | receive n =>
    obtain ⟨max, -, hrest⟩ := Option.bind_eq_some_iff.mp hstep
    obtain ⟨⟨hbatch, -, -, -⟩, hw⟩ := Option.ite_none_right_eq_some.mp hrest
    cases hw
    have hperm : (w.channel.drop n ++ w.channel.take n).Perm (w.channel ++ w.batch) := by
      rw [hbatch, append_nil]
      exact perm_append_comm.trans (by rw [take_append_drop])
    exact h.jobs_sublist (hperm.nodup_iff.mpr h.jobsNodup) (fun f hf => h.jobs f (hperm.mem_iff.mp hf)) w.group w.drain
  | commitGroup table attempt =>
    simp only [step] at hstep
    split at hstep
    · cases hstep
    · split at hstep
      · cases hstep
        exact h.commitGroup table 0 attempt
      · obtain ⟨-, hw⟩ := Option.ite_none_right_eq_some.mp hstep
        cases hw
        exact h.commitGroup table _ attempt
  | wake f =>
    obtain ⟨fl, hf, hrest⟩ := Option.bind_eq_some_iff.mp hstep
    obtain ⟨hst, hw⟩ := Option.ite_none_right_eq_some.mp hrest
    cases hw
    have hsettle : Inv (w.settle (w.waitersOf f) (.flushed f)) := by
      refine h.settle (by simp) fun g hg => ?_
      cases hg
      exact ⟨h.committed f fl hf hst, fun p hp => hp⟩
    refine hsettle.mark (by simp) (by simp) (fun hne => absurd rfl hne) (fun g hg => ?_)
      (.inl rfl)
    rw [mem_singleton.mp hg]
    exact h.no_job hf (by simp [hst])
  | drainList =>
    simp only [step] at hstep
    split at hstep
    · cases hstep
      exact h.jobs_sublist h.jobsNodup h.jobs w.group _
    · cases hstep
  | drainFlush f =>
    simp only [step] at hstep
    split at hstep
    · obtain ⟨hnone, hw⟩ := Option.ite_none_right_eq_some.mp hstep
      cases hw
      have hs := h.spawn hnone
      exact (hs _).jobs_sublist h.jobsNodup (hs _).jobs w.group _
    · cases hstep
  | drainNext =>
    simp only [step] at hstep
    split at hstep
    · obtain ⟨-, hw⟩ := Option.ite_none_right_eq_some.mp hstep
      cases hw
      exact h.jobs_sublist h.jobsNodup h.jobs w.group _
    · cases hstep
      exact h.jobs_sublist h.jobsNodup h.jobs w.group _
    · cases hstep

end Steps

end Staging
