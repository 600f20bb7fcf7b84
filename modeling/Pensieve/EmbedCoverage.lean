/-
**Embeddings and sidecars, tick by tick.**

Extents are written by ingests, by compactions and by backfills.  A scheduler looks at the live
extents of every table from time to time: an extent with rows whose statistics have no vectors in an
embedding column goes into a backfill job, an extent with such statistics and without a sidecar into
a job that builds one, and in server mode a column whose sidecars are not those that its tree was
built of into a job that builds the tree anew.
-/

import Pensieve.EmbedExtents
import Pensieve.Runs
import Pensieve.TenantScope

namespace Coverage

open List
open Catalog (ExtentId HasSqrt)
open Tenancy (defaultTenant)

variable {F : Type}

/-! ### Extents, sidecars and jobs -/

structure Extent (F : Type) where
  id : ExtentId
  contents : Contents F

inductive Kind where
  | ivfRabitq
  | tantivyFts
  deriving DecidableEq

/-- `extent_indexes`; no builder names a model. -/
structure Sidecar where
  extent : ExtentId
  column : String
  kind : Kind
  deriving DecidableEq

inductive Job where
  /-- `embed_backfill` -/
  | embed (ids : List ExtentId) (cfg : EmbedConfig)
  /-- `index_build` -/
  | index (ids : List ExtentId) (column : String) (kind : Kind)
  /-- `ann_maintain` -/
  | ann (column : String)
  deriving DecidableEq

inductive Work where
  | job (j : Job)
  | merge (ids : List ExtentId)
  deriving DecidableEq

/-- What the processes of one table share: the embedder, whether they run over Postgres, whether a
builder makes a sidecar of some contents, and the fingerprint of sorted extent ids. -/
structure Env (F : Type) where
  embedder : Embedder F
  server : Bool
  builds : Contents F → String → Kind → Bool
  fingerprint : Finset ExtentId → ℕ

structure World (F : Type) where
  live : List (Extent F)
  next : ExtentId
  sidecars : List Sidecar
  trees : String → Option ℕ
  pending : List Job
  held : List (Work × List (Extent F))

def World.init : World F := ⟨[], 0, [], fun _ => none, [], []⟩

section Scheduler

variable [Field F] [LinearOrder F] [HasSqrt F]

def hasVec (T : Table) (x : Contents F) (c : String) : Bool :=
  match T.vectorColumns.find? (·.1 = c) with
  | some c => (x.vecStat c).isSome
  | none => false

def maxExtentsPerJob : ℕ := 32

def chunksFrom {α : Type} (n : ℕ) : ℕ → List α → List (List α)
  | 0, _ => []
  | _ + 1, [] => []
  | fuel + 1, a :: l => (a :: l).take n :: chunksFrom n fuel ((a :: l).drop n)

/-- `slice.chunks(n)`. -/
def chunks {α : Type} (n : ℕ) (l : List α) : List (List α) := chunksFrom n l.length l

def needsEmbedding (T : Table) (cfg : EmbedConfig) (x : Contents F) : Bool :=
  !x.rows.isEmpty && !hasVec T x cfg.embeddingColumn

def enqueueEmbedMissing (T : Table) (w : World F) (cfg : EmbedConfig) : List Job :=
  (chunks maxExtentsPerJob
    ((w.live.filter fun e => needsEmbedding T cfg e.contents).map Extent.id)).map (Job.embed · cfg)

/-- The extents with vectors in `vectorColumn` and without a sidecar of `column`. -/
def unindexed (T : Table) (w : World F) (vectorColumn column : String) (kind : Kind) : List ExtentId :=
  ((w.live.filter fun e => hasVec T e.contents vectorColumn).map Extent.id).filter fun id =>
    ⟨id, column, kind⟩ ∉ w.sidecars

def enqueueFtsMissing (T : Table) (w : World F) (cfg : EmbedConfig) : List Job :=
  (chunks maxExtentsPerJob (unindexed T w cfg.embeddingColumn cfg.sourceColumn .tantivyFts)).map
    (Job.index · cfg.sourceColumn .tantivyFts)

def enqueueMissing (T : Table) (w : World F) (column : String) : List Job :=
  (chunks maxExtentsPerJob (unindexed T w column column .ivfRabitq)).map (Job.index · column .ivfRabitq)

end Scheduler

def World.liveSidecars (w : World F) : List Sidecar :=
  w.sidecars.filter fun s => s.kind = .ivfRabitq ∧ s.extent ∈ w.live.map Extent.id

def World.coveredBy (w : World F) (column : String) : Finset ExtentId :=
  ((w.liveSidecars.filter (·.column = column)).map Sidecar.extent).toFinset

/-- `enqueue_ann_maintain_stale`: one job for every column whose tree is of other extents. -/
def enqueueAnnMaintainStale (env : Env F) (w : World F) : List Job :=
  ((w.liveSidecars.map Sidecar.column).dedup.filter fun c =>
    w.trees c ≠ some (env.fingerprint (w.coveredBy c))).map Job.ann

section Ticks

variable [Field F] [LinearOrder F] [HasSqrt F]

/-- The passes of a tick over the table, with the jobs that each of them enqueues.  The databases are
those of the default tenant. -/
def passes (env : Env F) (T : Table) (w : World F) : List (List Job) :=
  if T.tenant = defaultTenant then
    (T.autoConfigs.flatMap fun cfg => [enqueueEmbedMissing T w cfg, enqueueFtsMissing T w cfg]) ++
      (T.vectorColumns.map fun c => enqueueMissing T w c.1) ++
      if env.server then [enqueueAnnMaintainStale env w] else []
  else []

/-- `tick`: a pass whose catalog calls fail is logged, with the jobs that it had enqueued before. -/
def tick (env : Env F) (T : Table) (w : World F) (fault : ℕ → Option ℕ) : List Job :=
  (passes env T w).zipIdx.flatMap fun p =>
    match fault p.2 with
    | none => p.1
    | some k => p.1.take k

def noFault : ℕ → Option ℕ := fun _ => none

end Ticks

/-! ### The jobs -/

def World.supersede (w : World F) (removed : List ExtentId) (x : Contents F) : World F :=
  { w with
    live := (w.live.filter fun e => e.id ∉ removed) ++ [⟨w.next, x⟩]
    next := w.next + 1 }

/-- One extent of a backfill job; `seen` are the extents that were live when the job began. -/
def backfillStep (env : Env F) (T : Table) (cfg : EmbedConfig) (seen : List (Extent F))
    (w : World F) (id : ExtentId) : World F :=
  match seen.find? (·.id = id) with
  | none => w
  | some e =>
    match backfillOne T env.embedder cfg e.contents with
    | .ok (some x) => w.supersede [e.id] x
    | _ => w

/-- One extent of a build job: `none` if the builder fails. -/
def buildStep (env : Env F) (column : String) (kind : Kind) (seen : List (Extent F)) (w : World F)
    (id : ExtentId) : Option (World F) :=
  if ⟨id, column, kind⟩ ∈ w.sidecars then some w
  else
    match seen.find? (·.id = id) with
    | none => some w
    | some e =>
      if env.builds e.contents column kind then
        some { w with sidecars := w.sidecars ++ [⟨id, column, kind⟩] }
      else none

/-- `ann_maintain`: a tree of the sidecars that there are, or none. -/
def maintainStep (env : Env F) (w : World F) (column : String) : World F :=
  let tree := if w.coveredBy column = ∅ then none else some (env.fingerprint (w.coveredBy column))
  { w with trees := Function.update w.trees column tree }

/-- A job from start to end: `none` if it fails.  A backfill refuses to run with another model. -/
def runJob (env : Env F) (T : Table) (w : World F) : Job → Option (World F)
  | .embed ids cfg =>
    if cfg.modelId = env.embedder.id then
      some (ids.foldl (backfillStep env T cfg w.live) w)
    else none
  | .index ids column kind => ids.foldlM (buildStep env column kind w.live) w
  | .ann column => some (maintainStep env w column)

/-- The jobs `tick` are enqueued, and all jobs that are pending are run. -/
def runAll (env : Env F) (T : Table) (w : World F) (jobs : List Job) : Option (World F) :=
  (w.pending ++ jobs).foldlM (runJob env T) { w with pending := [] }

/-! ### Steps -/

/-- `promote_batch`, for a row. -/
def promoteRow (T : Table) (r : Row F) : Row F where
  text c := if c ∈ T.columns then r.text c else none
  vec c := if c ∈ T.columns then r.vec c else none

def mergeContents (T : Table) (sources : List (Extent F)) : Contents F where
  columns := T.columns
  blocks := sources.flatMap fun e => e.contents.blocks.map fun b => b.map (promoteRow T)
  lacks := by
    intro b hb r hr c hc
    obtain ⟨e, -, hb⟩ := mem_flatMap.1 hb
    obtain ⟨b, -, rfl⟩ := mem_map.1 hb
    obtain ⟨r, -, rfl⟩ := mem_map.1 hr
    exact ⟨if_neg hc, if_neg hc⟩

/-- `enqueue_sidecar_rebuilds`: the sidecars that the sources had are built for the merged extent. -/
def sidecarRebuilds (env : Env F) (w : World F) (ids : List ExtentId) : List Job :=
  if env.server then
    ((w.sidecars.filter (·.extent ∈ ids)).map fun s => (s.column, s.kind)).dedup.map fun p =>
      Job.index [w.next] p.1 p.2
  else []

inductive Action (F : Type) where
  | ingest (x : Contents F)
  | tick (fault : ℕ → Option ℕ)
  | start (work : Work)
  | compact (i : ℕ)
  | backfill (i : ℕ) (id : ExtentId)
  | build (i : ℕ) (id : ExtentId)
  | maintain (i : ℕ)
  | leave (j : Job)

def sourcesOf (ids : List ExtentId) (seen : List (Extent F)) : List (Extent F) := seen.filter (·.id ∈ ids)

variable [Field F] [LinearOrder F] [HasSqrt F]

def step (env : Env F) (T : Table) (w : World F) : Action F → Option (World F)
  | .ingest x => some (w.supersede [] x)
  | .tick fault => some { w with pending := w.pending ++ tick env T w fault }
  | .start (.job j) =>
    if j ∈ w.pending then some { w with held := w.held ++ [(.job j, w.live)] } else none
  | .start (.merge ids) => some { w with held := w.held ++ [(.merge ids, w.live)] }
  | .compact i =>
    match w.held[i]? with
    | some (.merge ids, seen) =>
      let sources := sourcesOf ids seen
      if 2 ≤ sources.length then
        let replaced := sources.map Extent.id
        some { w.supersede replaced (mergeContents T sources) with
          pending := w.pending ++ sidecarRebuilds env w replaced }
      else none
    | _ => none
  | .backfill i id =>
    match w.held[i]? with
    | some (.job (.embed ids cfg), seen) =>
      if id ∈ ids ∧ cfg.modelId = env.embedder.id then some (backfillStep env T cfg seen w id)
      else none
    | _ => none
  | .build i id =>
    match w.held[i]? with
    | some (.job (.index ids column kind), seen) =>
      if id ∈ ids then buildStep env column kind seen w id else none
    | _ => none
  | .maintain i =>
    match w.held[i]? with
    | some (.job (.ann column), _) => some (maintainStep env w column)
    | _ => none
  | .leave j => some { w with pending := w.pending.erase j }

/-! ### What the scheduler is to achieve -/

/-- Every live row with a text has an embedding, and every live extent with a vector that is not zero
has a vector sidecar. -/
structure Covered (T : Table) (w : World F) : Prop where
  embedded : ∀ e ∈ w.live, ∀ r ∈ e.contents.rows, ∀ cfg ∈ T.autoConfigs, ∀ t,
    r.text cfg.sourceColumn = some t → t ≠ "" → (r.vec cfg.embeddingColumn).isSome = true
  indexed : ∀ e ∈ w.live, ∀ c ∈ T.vectorColumns, (∃ r ∈ e.contents.rows, ∃ v ∈ r.vec c.1, ∃ a ∈ v, a ≠ 0) →
      ⟨e.id, c.1, .ivfRabitq⟩ ∈ w.sidecars

/-- **The condition**: what is ingested and what is merged is fit. -/
def Heeds (env : Env F) (T : Table) (w : World F) : Action F → Prop
  | .ingest x => Fit T env.embedder x
  | .compact i => ∀ ids seen, w.held[i]? = some (.merge ids, seen) →
      Fit T env.embedder (mergeContents T (sourcesOf ids seen))
  | _ => True

/-! ### Jobs of a tick -/

variable {α : Type}

omit [Field F] [LinearOrder F] [HasSqrt F] in
theorem flatten_chunksFrom {n : ℕ} (hn : 0 < n) {fuel : ℕ} {l : List α}
    (h : l.length ≤ fuel) : (chunksFrom n fuel l).flatten = l := by
  induction fuel generalizing l with
  | zero =>
    rw [length_eq_zero_iff.1 (Nat.le_zero.1 h)]
    rfl
  | succ fuel ih =>
    cases l with
    | nil => rfl
    | cons a l =>
      have hdrop : ((a :: l).drop n).length ≤ fuel := by
        rw [length_drop]
        rw [length_cons] at h ⊢
        omega
      rw [chunksFrom, flatten_cons, ih hdrop, take_append_drop]

omit [Field F] [LinearOrder F] [HasSqrt F] in
theorem flatten_chunks {n : ℕ} (hn : 0 < n) (l : List α) : (chunks n l).flatten = l := flatten_chunksFrom hn le_rfl

omit [Field F] [LinearOrder F] [HasSqrt F] in
theorem mem_chunks {l : List α} {a : α} : a ∈ l ↔ ∃ c ∈ chunks maxExtentsPerJob l, a ∈ c := by
  have hflat := flatten_chunks (by decide : 0 < maxExtentsPerJob) l
  conv_lhs => rw [← hflat]
  exact mem_flatten

omit [Field F] [LinearOrder F] [HasSqrt F] in
theorem nodup_of_mem_chunks {l c : List α} (hl : l.Nodup)
    (hc : c ∈ chunks maxExtentsPerJob l) : c.Nodup := by
  have hsub := sublist_flatten_of_mem hc
  rw [flatten_chunks (by decide : 0 < maxExtentsPerJob)] at hsub
  exact hl.sublist hsub

variable {env : Env F} {T : Table} {w w' : World F}

theorem tick_noFault : tick env T w noFault = (passes env T w).flatten := by
  have hzip : ∀ (l : List (List Job)) (n : ℕ), ((l.zipIdx n).flatMap fun p =>
      match noFault p.2 with
      | none => p.1
      | some k => p.1.take k) = l.flatten := by
    intro l
    induction l with
    | nil => intro n; rfl
    | cons a l ih =>
      intro n
      rw [zipIdx_cons, flatMap_cons, ih, flatten_cons]
      rfl
  exact hzip _ 0

variable {j : Job}

theorem mem_passes (htenant : T.tenant = defaultTenant) : j ∈ (passes env T w).flatten ↔
      (∃ cfg ∈ T.autoConfigs, j ∈ enqueueEmbedMissing T w cfg ∨ j ∈ enqueueFtsMissing T w cfg) ∨
      (∃ c ∈ T.vectorColumns, j ∈ enqueueMissing T w c.1) ∨
      (env.server = true ∧ j ∈ enqueueAnnMaintainStale env w) := by
  rw [passes, if_pos htenant]
  simp only [flatten_append, mem_append]
  have hembed : j ∈ (T.autoConfigs.flatMap fun cfg =>
      [enqueueEmbedMissing T w cfg, enqueueFtsMissing T w cfg]).flatten ↔
      ∃ cfg ∈ T.autoConfigs, j ∈ enqueueEmbedMissing T w cfg ∨ j ∈ enqueueFtsMissing T w cfg := by
    simp only [mem_flatten, mem_flatMap]
    constructor
    · rintro ⟨l, ⟨cfg, hcfg, hl⟩, hj⟩
      rcases mem_pair.1 hl with rfl | rfl
      · exact ⟨cfg, hcfg, .inl hj⟩
      · exact ⟨cfg, hcfg, .inr hj⟩
    · rintro ⟨cfg, hcfg, hj | hj⟩
      · exact ⟨_, ⟨cfg, hcfg, mem_pair.2 (.inl rfl)⟩, hj⟩
      · exact ⟨_, ⟨cfg, hcfg, mem_pair.2 (.inr rfl)⟩, hj⟩
  have hindex : j ∈ (T.vectorColumns.map fun c => enqueueMissing T w c.1).flatten ↔
      ∃ c ∈ T.vectorColumns, j ∈ enqueueMissing T w c.1 := by
    simp only [mem_flatten, mem_map]
    constructor
    · rintro ⟨_, ⟨c, hc, rfl⟩, hj⟩
      exact ⟨c, hc, hj⟩
    · rintro ⟨c, hc, hj⟩
      exact ⟨_, ⟨c, hc, rfl⟩, hj⟩
  have hann : j ∈ (if env.server = true then [enqueueAnnMaintainStale env w] else []).flatten ↔
      env.server = true ∧ j ∈ enqueueAnnMaintainStale env w := by
    by_cases hserver : env.server = true <;> simp [hserver]
  rw [hembed, hindex, hann, or_assoc]

variable {cfg : EmbedConfig}

theorem mem_enqueueEmbedMissing (h : j ∈ enqueueEmbedMissing T w cfg) : ∃ ids, j = .embed ids cfg ∧
      ids ∈ chunks maxExtentsPerJob ((w.live.filter fun e => needsEmbedding T cfg e.contents).map Extent.id) := by
  obtain ⟨ids, hids, rfl⟩ := mem_map.1 h
  exact ⟨ids, rfl, hids⟩

variable {e : Extent F}

theorem exists_embed_job {cfg : EmbedConfig} (he : e ∈ w.live)
    (hneeds : needsEmbedding T cfg e.contents = true) :
    ∃ ids, Job.embed ids cfg ∈ enqueueEmbedMissing T w cfg ∧ e.id ∈ ids := by
  have hmem : e.id ∈ (w.live.filter fun e => needsEmbedding T cfg e.contents).map Extent.id :=
    mem_map.2 ⟨e, mem_filter.2 ⟨he, hneeds⟩, rfl⟩
  obtain ⟨ids, hids, hid⟩ := mem_chunks.1 hmem
  exact ⟨ids, mem_map.2 ⟨ids, hids, rfl⟩, hid⟩

variable {c : String} {kind : Kind} {id : ExtentId}

theorem mem_unindexed {v : String} : id ∈ unindexed T w v c kind ↔
      (∃ e ∈ w.live, hasVec T e.contents v = true ∧ e.id = id) ∧ ⟨id, c, kind⟩ ∉ w.sidecars := by
  unfold unindexed
  rw [mem_filter, mem_map]
  constructor
  · rintro ⟨⟨e, he, rfl⟩, hnot⟩
    obtain ⟨hlive, hvec⟩ := mem_filter.1 he
    exact ⟨⟨e, hlive, hvec, rfl⟩, by simpa using hnot⟩
  · rintro ⟨⟨e, hlive, hvec, rfl⟩, hnot⟩
    exact ⟨⟨e, mem_filter.2 ⟨hlive, hvec⟩, rfl⟩, by simpa using hnot⟩

theorem exists_index_job {v : String} (h : id ∈ unindexed T w v c kind) : ∃ ids, Job.index ids c kind ∈
      (chunks maxExtentsPerJob (unindexed T w v c kind)).map (Job.index · c kind) ∧ id ∈ ids := by
  obtain ⟨ids, hids, hid⟩ := mem_chunks.1 h
  exact ⟨ids, mem_map.2 ⟨ids, hids, rfl⟩, hid⟩

/-! ### What is fit stays fit -/

def JobOk (T : Table) : Job → Prop
  | .embed ids cfg => ids.Nodup ∧ cfg ∈ T.autoConfigs
  | _ => True

def WorkOk (T : Table) : Work → Prop
  | .job j => JobOk T j
  | .merge _ => True

/-- What is live is fit and has ids of its own, and so has been what workers have listed. -/
structure Inv (env : Env F) (T : Table) (w : World F) : Prop where
  fit : ∀ e ∈ w.live, Fit T env.embedder e.contents
  nodup : (w.live.map Extent.id).Nodup
  lt : ∀ e ∈ w.live, e.id < w.next
  jobs : ∀ j ∈ w.pending, JobOk T j
  held : ∀ p ∈ w.held, WorkOk T p.1 ∧ ∀ e ∈ p.2, Fit T env.embedder e.contents

variable {x : Contents F}

theorem Inv.supersede (h : Inv env T w) (removed : List ExtentId)
    (hx : Fit T env.embedder x) : Inv env T (w.supersede removed x) where
  fit := by
    intro e he
    rcases mem_append.1 he with he | he
    · exact h.fit e (mem_filter.1 he).1
    · cases mem_singleton.1 he
      exact hx
  nodup := by
    change (((w.live.filter fun e : Extent F => e.id ∉ removed) ++ [(⟨w.next, x⟩ : Extent F)]).map Extent.id).Nodup
    rw [map_append, nodup_append']
    refine ⟨h.nodup.sublist (filter_sublist.map _), nodup_singleton _, ?_⟩
    rw [map_cons, map_nil, disjoint_singleton]
    intro hmem
    obtain ⟨e, he, hid⟩ := mem_map.1 hmem
    exact absurd hid (h.lt e (mem_filter.1 he).1).ne
  lt := by
    intro e he
    rcases mem_append.1 he with he | he
    · exact (h.lt e (mem_filter.1 he).1).trans (Nat.lt_succ_self _)
    · cases mem_singleton.1 he
      exact Nat.lt_succ_self _
  jobs := h.jobs
  held := h.held

variable {seen : List (Extent F)}

theorem Inv.backfillStep (h : Inv env T w) (hcfg : cfg ∈ T.autoConfigs)
    (hseen : ∀ e ∈ seen, Fit T env.embedder e.contents) (id : ExtentId) :
    Inv env T (backfillStep env T cfg seen w id) := by
  unfold Coverage.backfillStep
  split
  · exact h
  · rename_i e hfind
    have hfit := hseen e (mem_of_find?_eq_some hfind)
    split
    · rename_i x hx
      have hfill : x = fill T env.embedder cfg e.contents := by
        unfold backfillOne at hx
        split_ifs at hx
        · cases hx
        · exact (Option.some.inj (Except.ok.inj hx)).symm
      rw [hfill]
      exact h.supersede _ (hfit.fill hcfg)
    · exact h

theorem Inv.buildStep (h : Inv env T w) {column : String}
    (hstep : buildStep env column kind seen w id = some w') : Inv env T w' := by
  unfold Coverage.buildStep at hstep
  split at hstep
  · cases hstep
    exact h
  · split at hstep
    · cases hstep
      exact h
    · split at hstep
      · cases hstep
        exact { h with }
      · cases hstep

theorem Inv.maintainStep (h : Inv env T w) (column : String) : Inv env T (maintainStep env w column) := { h with }

theorem jobOk_of_mem_passes (h : Inv env T w) (hj : j ∈ (passes env T w).flatten) : JobOk T j := by
  by_cases htenant : T.tenant = defaultTenant
  · rcases (mem_passes htenant).1 hj with ⟨cfg, hcfg, hembed | hfts⟩ | ⟨c, -, hindex⟩ | ⟨-, hann⟩
    · obtain ⟨ids, rfl, hids⟩ := mem_enqueueEmbedMissing hembed
      have hnodup := h.nodup.sublist
        ((filter_sublist (p := fun e : Extent F => needsEmbedding T cfg e.contents)).map Extent.id)
      exact ⟨nodup_of_mem_chunks hnodup hids, hcfg⟩
    · obtain ⟨ids, -, rfl⟩ := mem_map.1 hfts
      exact True.intro
    · obtain ⟨ids, -, rfl⟩ := mem_map.1 hindex
      exact True.intro
    · obtain ⟨c, -, rfl⟩ := mem_map.1 hann
      exact True.intro
  · rw [passes, if_neg htenant] at hj
    cases hj

theorem mem_passes_of_mem_tick {fault : ℕ → Option ℕ} (h : j ∈ tick env T w fault) :
    j ∈ (passes env T w).flatten := by
  obtain ⟨p, hp, hj⟩ := mem_flatMap.1 h
  have hmem : p.1 ∈ passes env T w := fst_mem_of_mem_zipIdx hp
  refine mem_flatten.2 ⟨p.1, hmem, ?_⟩
  split at hj
  · exact hj
  · exact mem_of_mem_take hj

theorem Inv.step (h : Inv env T w) {a : Action F} (hheeds : Heeds env T w a)
    (hstep : step env T w a = some w') : Inv env T w' := by
  cases a with
  | ingest x =>
    cases hstep
    exact h.supersede [] hheeds
  | tick fault =>
    cases hstep
    refine { h with jobs := fun j hj => ?_ }
    rcases mem_append.1 hj with hj | hj
    · exact h.jobs j hj
    · exact jobOk_of_mem_passes h (mem_passes_of_mem_tick hj)
  | start work =>
    cases work with
    | job j =>
      simp only [Coverage.step] at hstep
      split at hstep
      · rename_i hmem
        cases hstep
        refine { h with held := fun p hp => ?_ }
        rcases mem_append.1 hp with hp | hp
        · exact h.held p hp
        · cases mem_singleton.1 hp
          exact ⟨h.jobs j hmem, h.fit⟩
      · cases hstep
    | merge ids =>
      cases hstep
      refine { h with held := fun p hp => ?_ }
      rcases mem_append.1 hp with hp | hp
      · exact h.held p hp
      · cases mem_singleton.1 hp
        exact ⟨True.intro, h.fit⟩
  | compact i =>
    simp only [Coverage.step] at hstep
    split at hstep
    · rename_i ids seen hi
      split at hstep
      · cases hstep
        have hnew := h.supersede ((sourcesOf ids seen).map Extent.id) (hheeds ids seen hi)
        refine { hnew with jobs := fun j hj => ?_ }
        rcases mem_append.1 hj with hj | hj
        · exact h.jobs j hj
        · unfold sidecarRebuilds at hj
          split at hj
          · obtain ⟨p, -, rfl⟩ := mem_map.1 hj
            exact True.intro
          · cases hj
      · cases hstep
    · cases hstep
  | backfill i id =>
    simp only [Coverage.step] at hstep
    split at hstep
    · rename_i ids cfg seen hi
      obtain ⟨hwork, hseen⟩ := h.held _ (mem_of_getElem? hi)
      split at hstep
      · cases hstep
        exact h.backfillStep hwork.2 hseen id
      · cases hstep
    · cases hstep
  | build i id =>
    simp only [Coverage.step] at hstep
    split at hstep
    · split at hstep
      · exact h.buildStep hstep
      · cases hstep
    · cases hstep
  | maintain i =>
    simp only [Coverage.step] at hstep
    split at hstep
    · cases hstep
      exact h.maintainStep _
    · cases hstep
  | leave j =>
    cases hstep
    exact { h with jobs := fun j' hj' => h.jobs j' (mem_of_mem_erase hj') }

theorem inv_init : Inv env T World.init where
  fit := fun e he => by cases he
  nodup := nodup_nil
  lt := fun e he => by cases he
  jobs := fun j hj => by cases hj
  held := fun p hp => by cases hp

theorem Fit.hasVec_iff {E : Embedder F} (h : Fit T E x) {c : String × ℕ}
    (hc : c ∈ T.vectorColumns) : hasVec T x c.1 = true ↔ 0 < tally (·.vec c.1) x.rows := by
  unfold hasVec
  cases hfind : T.vectorColumns.find? (·.1 = c.1) with
  | none => exact absurd (find?_eq_none.1 hfind c hc) (by simp)
  | some c' =>
    have hname : c'.1 = c.1 := by simpa using find?_some hfind
    rw [h.isSome_vecStat_iff (mem_of_find?_eq_some hfind), hname]

theorem covered_of_tick_nil (h : Inv env T w) (htenant : T.tenant = defaultTenant)
    (hquiet : tick env T w noFault = []) : Covered T w := by
  have hnone : ∀ j, j ∉ (passes env T w).flatten := by
    rw [← tick_noFault, hquiet]
    exact fun j => not_mem_nil
  constructor
  · intro e he r hr cfg hcfg t ht hne
    have hfit := h.fit e he
    have hrows : e.contents.rows ≠ [] := ne_nil_of_mem hr
    have hvec : hasVec T e.contents cfg.embeddingColumn = true := by
      by_contra hvec
      have hneeds : needsEmbedding T cfg e.contents = true := by
        rw [Bool.not_eq_true] at hvec
        simp only [needsEmbedding, hvec, isEmpty_eq_false_iff.2 hrows, Bool.not_false, Bool.and_self]
      obtain ⟨ids, hjob, -⟩ := exists_embed_job he hneeds
      exact hnone _ ((mem_passes htenant).2 (.inl ⟨cfg, hcfg, .inl hjob⟩))
    have hpos := (hfit.hasVec_iff (hfit.embedding cfg hcfg)).1 hvec
    have hneeded := hfit.unmixed cfg hcfg hpos r hr
    by_contra hno
    simp [needed, wantedText, hno, ht, hne] at hneeded
  · rintro e he c hc ⟨r, hr, v, hv, a, ha, hne⟩
    have hfit := h.fit e he
    have hsig := hfit.significant c hc r hr v (due_of_vec hv) ⟨a, ha, hne⟩
    have hpos : 0 < tally (·.vec c.1) e.contents.rows := by
      refine countP_pos_iff.2 ⟨r, hr, ?_⟩
      have hsome : r.vec c.1 = some v := hv
      simp [hsome, hsig]
    by_contra hnot
    have hun : e.id ∈ unindexed T w c.1 c.1 .ivfRabitq :=
      mem_unindexed.2 ⟨⟨e, he, (hfit.hasVec_iff hc).2 hpos, rfl⟩, hnot⟩
    obtain ⟨ids, hjob, -⟩ := exists_index_job hun
    exact hnone _ ((mem_passes htenant).2 (.inr (.inl ⟨c, hc, hjob⟩)))

/-! ### A round makes progress -/

def missing (T : Table) (w : World F) : ℕ :=
  (w.live.map fun e => T.autoConfigs.countP fun cfg => needsEmbedding T cfg e.contents).sum

theorem needsEmbedding_fill {E : Embedder F} (h : Fit T E x)
    (hcfg : cfg ∈ T.autoConfigs) (hrows : x.rows ≠ []) : needsEmbedding T cfg (fill T E cfg x) = false := by
  have hvec : hasVec T (fill T E cfg x) cfg.embeddingColumn = true := by
    rw [(h.fill hcfg).hasVec_iff (h.embedding cfg hcfg), h.tally_vec_fill hcfg]
    exact h.exists_vector cfg hcfg hrows
  simp [needsEmbedding, hvec]

theorem needsEmbedding_of_fill {E : Embedder F} {x : Contents F} (h : Fit T E x)
    {cfg cfg' : EmbedConfig} (hcfg : cfg ∈ T.autoConfigs) (hcfg' : cfg' ∈ T.autoConfigs)
    (hrows : x.rows ≠ []) (hneeds : needsEmbedding T cfg' (fill T E cfg x) = true) :
    needsEmbedding T cfg' x = true := by
  by_cases hne : cfg'.embeddingColumn = cfg.embeddingColumn
  · have heq : cfg' = cfg := by
      have hfind := find?_autoConfigs hcfg'
      rw [hne, find?_autoConfigs hcfg] at hfind
      exact (Option.some.inj hfind).symm
    rw [heq, needsEmbedding_fill h hcfg hrows] at hneeds
    cases hneeds
  · have hvec : hasVec T (fill T E cfg x) cfg'.embeddingColumn = hasVec T x cfg'.embeddingColumn := by
      rw [Bool.eq_iff_iff, (h.fill hcfg).hasVec_iff (h.embedding cfg' hcfg'),
        h.hasVec_iff (h.embedding cfg' hcfg'), tally_vec_fill_of_ne (h.vector_mem hcfg') hne]
    unfold needsEmbedding at hneeds ⊢
    rw [hvec, rows_fill] at hneeds
    simpa using hneeds

omit [Field F] [LinearOrder F] [HasSqrt F] in
theorem countP_lt {p q : α → Bool} {l : List α} {a : α} (ha : a ∈ l)
    (h : ∀ b ∈ l, p b = true → q b = true) (hp : p a = false) (hq : q a = true) : l.countP p < l.countP q := by
  obtain ⟨s, t, rfl⟩ := append_of_mem ha
  have hs : s.countP p ≤ s.countP q := countP_mono_left fun b hb => h b (mem_append_left _ hb)
  have ht : t.countP p ≤ t.countP q := countP_mono_left fun b hb => h b (mem_append_right _ (mem_cons_of_mem _ hb))
  rw [countP_append, countP_append, countP_cons_of_neg (by simp [hp]), countP_cons_of_pos hq]
  omega

theorem missing_supersede (h : Inv env T w) (he : e ∈ w.live)
    (hx : T.autoConfigs.countP (fun cfg => needsEmbedding T cfg x) < T.autoConfigs.countP fun cfg => needsEmbedding T cfg e.contents) :
    missing T (w.supersede [e.id] x) < missing T w := by
  obtain ⟨s, t, hlive⟩ := append_of_mem he
  have hnodup := h.nodup
  rw [hlive, map_append, map_cons, nodup_append] at hnodup
  obtain ⟨-, htail, hsep⟩ := hnodup
  obtain ⟨hnot, -⟩ := nodup_cons.1 htail
  have hs : ∀ e' ∈ s, e'.id ∉ [e.id] := by
    intro e' he' hid
    rw [mem_singleton] at hid
    exact hsep e'.id (mem_map.2 ⟨e', he', rfl⟩) e.id (mem_cons_self ..) hid
  have ht : ∀ e' ∈ t, e'.id ∉ [e.id] := by
    intro e' he' hid
    rw [mem_singleton] at hid
    exact hnot (mem_map.2 ⟨e', he', hid⟩)
  have hfilter : (w.live.filter fun e' => e'.id ∉ [e.id]) = s ++ t := by
    rw [hlive, filter_append, filter_cons_of_neg (by simp), filter_eq_self.2 fun e' he' => by simpa using hs e' he',
      filter_eq_self.2 fun e' he' => by simpa using ht e' he']
  unfold missing World.supersede
  simp only [hfilter]
  rw [hlive]
  simp only [map_append, sum_append, map_cons, sum_cons, map_nil, sum_nil]
  omega

theorem backfillStep_progress (h : Inv env T w) (hcfg : cfg ∈ T.autoConfigs)
    (hfind : seen.find? (·.id = id) = some e) (he : e ∈ w.live) :
    (backfillStep env T cfg seen w id = w ∧ needsEmbedding T cfg e.contents = false) ∨
      (missing T (backfillStep env T cfg seen w id) < missing T w ∧
        ∀ e' ∈ w.live, e'.id ≠ id → e' ∈ (backfillStep env T cfg seen w id).live) := by
  have hid : e.id = id := by simpa using find?_some hfind
  have hfit := h.fit e he
  unfold backfillStep
  rw [hfind]
  dsimp only
  by_cases hrows : e.contents.rows = []
  · refine .inl ⟨?_, by simp [needsEmbedding, hrows]⟩
    split
    · rename_i x hx
      unfold backfillOne at hx
      rw [hrows] at hx
      split_ifs at hx with _ _ hall
      · cases hx
      · cases hall rfl
    · rfl
  · have hone := hfit.backfillOne_eq hcfg hrows
    have hstat : (e.contents.vecStat (cfg.embeddingColumn, env.embedder.dim)).isSome =
        hasVec T e.contents cfg.embeddingColumn := by
      rw [Bool.eq_iff_iff, hfit.isSome_vecStat_iff (hfit.embedding cfg hcfg), hfit.hasVec_iff (hfit.embedding cfg hcfg)]
    rw [hstat] at hone
    cases hvec : hasVec T e.contents cfg.embeddingColumn with
    | true =>
      rw [hvec, if_pos rfl] at hone
      rw [hone]
      exact .inl ⟨rfl, by simp [needsEmbedding, hvec]⟩
    | false =>
      rw [hvec, if_neg (by decide)] at hone
      rw [hone]
      refine .inr ⟨missing_supersede h he ?_, fun e' he' hne => ?_⟩
      · refine countP_lt hcfg (fun cfg' hcfg' hneeds => ?_) (needsEmbedding_fill hfit hcfg hrows) ?_
        · exact needsEmbedding_of_fill hfit hcfg hcfg' hrows hneeds
        · simp only [needsEmbedding, hvec, isEmpty_eq_false_iff.2 hrows, Bool.not_false, Bool.and_self]
      · exact mem_append_left _ (mem_filter.2 ⟨he', by simpa [hid] using hne⟩)

theorem foldl_backfillStep (hcfg : cfg ∈ T.autoConfigs)
    (hfit : ∀ e ∈ seen, Fit T env.embedder e.contents) {ids : List ExtentId} (hnodup : ids.Nodup)
    {w : World F} (h : Inv env T w)
    (hseen : ∀ id ∈ ids, ∀ e, seen.find? (·.id = id) = some e → e ∈ w.live) :
    Inv env T (ids.foldl (backfillStep env T cfg seen) w) ∧
      ((ids.foldl (backfillStep env T cfg seen) w = w ∧ ∀ id ∈ ids, ∀ e,
          seen.find? (·.id = id) = some e → needsEmbedding T cfg e.contents = false) ∨
        missing T (ids.foldl (backfillStep env T cfg seen) w) < missing T w) := by
  induction ids generalizing w with
  | nil => exact ⟨h, .inl ⟨rfl, fun id hid => by cases hid⟩⟩
  | cons id ids ih =>
    obtain ⟨hnot, hnodup⟩ := nodup_cons.1 hnodup
    rw [foldl_cons]
    have hstep := h.backfillStep hcfg hfit id
    cases hfind : seen.find? (·.id = id) with
    | none =>
      have hsame : backfillStep env T cfg seen w id = w := by
        unfold backfillStep
        rw [hfind]
      rw [hsame]
      obtain ⟨hinv, hrest | hrest⟩ := ih hnodup h fun id' hid' =>
        hseen id' (mem_cons_of_mem _ hid')
      · refine ⟨hinv, .inl ⟨hrest.1, fun id' hid' e he => ?_⟩⟩
        rcases mem_cons.1 hid' with rfl | hid'
        · cases hfind.symm.trans he
        · exact hrest.2 id' hid' e he
      · exact ⟨hinv, .inr hrest⟩
    | some e =>
      have he := hseen id (mem_cons_self ..) e hfind
      rcases backfillStep_progress h hcfg hfind he with ⟨hsame, hneeds⟩ | ⟨hless, hstay⟩
      · rw [hsame]
        obtain ⟨hinv, hrest | hrest⟩ := ih hnodup h fun id' hid' =>
          hseen id' (mem_cons_of_mem _ hid')
        · refine ⟨hinv, .inl ⟨hrest.1, fun id' hid' e' he' => ?_⟩⟩
          rcases mem_cons.1 hid' with rfl | hid'
          · cases hfind.symm.trans he'
            exact hneeds
          · exact hrest.2 id' hid' e' he'
        · exact ⟨hinv, .inr hrest⟩
      · -- the extents to come are still live
        have hlive : ∀ id' ∈ ids, ∀ e', seen.find? (·.id = id') = some e' →
            e' ∈ (backfillStep env T cfg seen w id).live := by
          intro id' hid' e' he'
          have hid : e'.id = id' := by simpa using find?_some he'
          refine hstay e' (hseen id' (mem_cons_of_mem _ hid') e' he') ?_
          rintro rfl
          exact hnot (hid ▸ hid')
        obtain ⟨hinv, hrest | hrest⟩ := ih hnodup hstep hlive
        · exact ⟨hinv, .inr (by rw [hrest.1]; exact hless)⟩
        · exact ⟨hinv, .inr (hrest.trans hless)⟩

def Done (T : Table) (j : Job) (w : World F) : Prop :=
  match j with
  | .embed ids cfg => ∀ e ∈ w.live, e.id ∈ ids → needsEmbedding T cfg e.contents = false
  | .index ids column kind => ∀ e ∈ w.live, e.id ∈ ids → ⟨e.id, column, kind⟩ ∈ w.sidecars
  | .ann _ => True

theorem Done.mono (h : Done T j w) (hlive : w'.live = w.live) (hsidecars : w.sidecars ⊆ w'.sidecars) : Done T j w' := by
  cases j with
  | embed ids cfg =>
    intro e he
    rw [hlive] at he
    exact h e he
  | index ids column kind =>
    intro e he hid
    rw [hlive] at he
    exact hsidecars (h e he hid)
  | ann column => exact True.intro

theorem foldlM_buildStep {column : String} {ids : List ExtentId} {w : World F} (h : Inv env T w)
    (hrun : ids.foldlM (buildStep env column kind seen) w = some w') :
    Inv env T w' ∧ w'.live = w.live ∧ w'.pending = w.pending ∧ w.sidecars ⊆ w'.sidecars ∧
      ∀ id ∈ ids, (seen.find? (·.id = id)).isSome = true → ⟨id, column, kind⟩ ∈ w'.sidecars := by
  induction ids generalizing w with
  | nil =>
    cases hrun
    exact ⟨h, rfl, rfl, List.Subset.refl _, fun id hid => by cases hid⟩
  | cons id ids ih =>
    rw [foldlM_cons] at hrun
    obtain ⟨mid, hmid, hrest⟩ := Option.bind_eq_some_iff.1 hrun
    obtain ⟨hinv, hlive, hpending, hsidecars, hbuilt⟩ := ih (h.buildStep hmid) hrest
    have hone : mid.live = w.live ∧ mid.pending = w.pending ∧ w.sidecars ⊆ mid.sidecars ∧
        ((seen.find? (·.id = id)).isSome = true → ⟨id, column, kind⟩ ∈ mid.sidecars) := by
      unfold buildStep at hmid
      split at hmid
      · rename_i hmem
        cases hmid
        exact ⟨rfl, rfl, List.Subset.refl _, fun _ => hmem⟩
      · split at hmid
        · rename_i hnone
          cases hmid
          refine ⟨rfl, rfl, List.Subset.refl _, fun hsome => ?_⟩
          rw [hnone] at hsome
          cases hsome
        · split at hmid
          · cases hmid
            exact ⟨rfl, rfl, subset_append_left _ _, fun _ =>
              mem_append_right _ (mem_singleton_self _)⟩
          · cases hmid
    obtain ⟨hlive₁, hpending₁, hsidecars₁, hbuilt₁⟩ := hone
    refine ⟨hinv, hlive.trans hlive₁, hpending.trans hpending₁,
      List.Subset.trans hsidecars₁ hsidecars, fun id' hid' hsome => ?_⟩
    rcases mem_cons.1 hid' with rfl | hid'
    · exact hsidecars (hbuilt₁ hsome)
    · exact hbuilt id' hid' hsome

omit [Field F] [LinearOrder F] [HasSqrt F] in
theorem find?_live (h : (w.live.map Extent.id).Nodup) (he : e ∈ w.live) : w.live.find? (·.id = e.id) = some e := by
  cases hfind : w.live.find? (·.id = e.id) with
  | none => exact absurd (find?_eq_none.1 hfind e he) (by simp)
  | some e' =>
    have hid : e'.id = e.id := by simpa using find?_some hfind
    rw [inj_on_of_nodup_map h (mem_of_find?_eq_some hfind) he hid]

omit [Field F] [LinearOrder F] [HasSqrt F] in
theorem pending_foldl_backfillStep (cfg : EmbedConfig) (seen : List (Extent F)) (ids : List ExtentId) (w : World F) :
    (ids.foldl (backfillStep env T cfg seen) w).pending = w.pending := by
  induction ids generalizing w with
  | nil => rfl
  | cons id ids ih =>
    rw [foldl_cons, ih]
    unfold backfillStep
    split
    · rfl
    · split <;> rfl

theorem runJob_progress (h : Inv env T w) (hj : JobOk T j) (hrun : runJob env T w j = some w') :
    Inv env T w' ∧ w'.pending = w.pending ∧ (missing T w' < missing T w ∨
        w'.live = w.live ∧ w.sidecars ⊆ w'.sidecars ∧ Done T j w') := by
  cases j with
  | embed ids cfg =>
    simp only [runJob] at hrun
    split at hrun
    · cases hrun
      have hseen : ∀ id ∈ ids, ∀ e, w.live.find? (·.id = id) = some e → e ∈ w.live :=
        fun id _ e he => mem_of_find?_eq_some he
      obtain ⟨hinv, hsame | hless⟩ := foldl_backfillStep hj.2 h.fit hj.1 h hseen
      · refine ⟨hinv, pending_foldl_backfillStep cfg w.live ids w, .inr ?_⟩
        rw [hsame.1]
        exact ⟨rfl, List.Subset.refl _, fun e he hid => hsame.2 e.id hid e (find?_live h.nodup he)⟩
      · exact ⟨hinv, pending_foldl_backfillStep cfg w.live ids w, .inl hless⟩
    · cases hrun
  | index ids column kind =>
    obtain ⟨hinv, hlive, hpending, hsidecars, hbuilt⟩ := foldlM_buildStep h hrun
    refine ⟨hinv, hpending, .inr ⟨hlive, hsidecars, fun e he hid => hbuilt e.id hid ?_⟩⟩
    rw [hlive] at he
    rw [find?_live h.nodup he]
    rfl
  | ann column =>
    cases hrun
    exact ⟨h.maintainStep column, rfl, .inr ⟨rfl, List.Subset.refl _, True.intro⟩⟩

theorem missing_eq (hlive : w'.live = w.live) : missing T w' = missing T w := by
  rw [missing, missing, hlive]

theorem foldlM_runJob {jobs : List Job} {w : World F} (h : Inv env T w)
    (hjobs : ∀ j ∈ jobs, JobOk T j) (hrun : jobs.foldlM (runJob env T) w = some w') :
    Inv env T w' ∧ w'.pending = w.pending ∧ (missing T w' < missing T w ∨
        w'.live = w.live ∧ w.sidecars ⊆ w'.sidecars ∧ ∀ j ∈ jobs, Done T j w') := by
  induction jobs generalizing w with
  | nil =>
    cases hrun
    exact ⟨h, rfl, .inr ⟨rfl, List.Subset.refl _, fun j hj => by cases hj⟩⟩
  | cons j jobs ih =>
    rw [foldlM_cons] at hrun
    obtain ⟨mid, hmid, hrest⟩ := Option.bind_eq_some_iff.1 hrun
    obtain ⟨hinv₁, hpending₁, hone⟩ := runJob_progress h (hjobs j (mem_cons_self ..)) hmid
    obtain ⟨hinv, hpending, hmany⟩ := ih hinv₁ (fun j' hj' => hjobs j' (mem_cons_of_mem _ hj')) hrest
    refine ⟨hinv, hpending.trans hpending₁, ?_⟩
    rcases hone with hless₁ | ⟨hlive₁, hsidecars₁, hdone₁⟩
    · rcases hmany with hless | ⟨hlive, -⟩
      · exact .inl (hless.trans hless₁)
      · exact .inl (by rw [missing_eq hlive]; exact hless₁)
    · rcases hmany with hless | ⟨hlive, hsidecars, hdone⟩
      · exact .inl (by rw [← missing_eq hlive₁]; exact hless)
      · refine .inr ⟨hlive.trans hlive₁, List.Subset.trans hsidecars₁ hsidecars, fun j' hj' => ?_⟩
        rcases mem_cons.1 hj' with rfl | hj'
        · exact hdone₁.mono hlive hsidecars
        · exact hdone j' hj'

/-! ### Rounds become quiet -/

def Rounds (env : Env F) (T : Table) (f : ℕ → World F) : Prop :=
  ∀ n, runAll env T (f n) (tick env T (f n) noFault) = some (f (n + 1))

theorem runAll_progress (h : Inv env T w) (hrun : runAll env T w (tick env T w noFault) = some w') :
    Inv env T w' ∧ w'.pending = [] ∧ (missing T w' < missing T w ∨ w'.live = w.live ∧ w.sidecars ⊆ w'.sidecars ∧
          ∀ j ∈ (passes env T w).flatten, Done T j w') := by
  have hstart : Inv env T { w with pending := [] } := { h with jobs := fun j hj => by cases hj }
  have hjobs : ∀ j ∈ w.pending ++ tick env T w noFault, JobOk T j := by
    intro j hj
    rcases mem_append.1 hj with hj | hj
    · exact h.jobs j hj
    · rw [tick_noFault] at hj
      exact jobOk_of_mem_passes h hj
  obtain ⟨hinv, hpending, hprogress⟩ := foldlM_runJob hstart hjobs hrun
  refine ⟨hinv, hpending, ?_⟩
  rcases hprogress with hless | ⟨hlive, hsidecars, hdone⟩
  · exact .inl hless
  · refine .inr ⟨hlive, hsidecars, fun j hj => hdone j (mem_append_right _ ?_)⟩
    rw [tick_noFault]
    exact hj

theorem chunks_nil : chunks maxExtentsPerJob ([] : List ExtentId) = [] := rfl

def Filled (T : Table) (w : World F) : Prop :=
  (∀ cfg ∈ T.autoConfigs, enqueueEmbedMissing T w cfg = [] ∧ enqueueFtsMissing T w cfg = []) ∧
    ∀ c ∈ T.vectorColumns, enqueueMissing T w c.1 = []

theorem Filled.congr (h : Filled T w) (hlive : w'.live = w.live) (hsidecars : w'.sidecars = w.sidecars) :
    Filled T w' := by
  unfold Filled enqueueEmbedMissing enqueueFtsMissing enqueueMissing unindexed at h ⊢
  rw [hlive, hsidecars]
  exact h

theorem unindexed_eq_nil {v : String} (hlive : w'.live = w.live)
    (hsidecars : w.sidecars ⊆ w'.sidecars) (hdone : ∀ ids, Job.index ids c kind ∈
      (chunks maxExtentsPerJob (unindexed T w v c kind)).map (Job.index · c kind) →
      Done T (.index ids c kind) w') : unindexed T w' v c kind = [] := by
  rw [eq_nil_iff_forall_not_mem]
  intro id hid
  obtain ⟨⟨e, he, hvec, rfl⟩, hnot⟩ := mem_unindexed.1 hid
  have he' := he
  rw [hlive] at he
  have hbefore : e.id ∈ unindexed T w v c kind :=
    mem_unindexed.2 ⟨⟨e, he, hvec, rfl⟩, fun hmem => hnot (hsidecars hmem)⟩
  obtain ⟨ids, hjob, hin⟩ := exists_index_job hbefore
  exact hnot (hdone ids hjob e he' hin)

theorem filled_of_done (htenant : T.tenant = defaultTenant) (hlive : w'.live = w.live)
    (hsidecars : w.sidecars ⊆ w'.sidecars) (hdone : ∀ j ∈ (passes env T w).flatten, Done T j w') : Filled T w' := by
  refine ⟨fun cfg hcfg => ⟨?_, ?_⟩, fun c hc => ?_⟩
  · have hnone : (w'.live.filter fun e => needsEmbedding T cfg e.contents) = [] := by
      rw [filter_eq_nil_iff]
      intro e he hneeds
      have hbefore := he
      rw [hlive] at hbefore
      obtain ⟨ids, hjob, hid⟩ := exists_embed_job hbefore hneeds
      have hdone' : needsEmbedding T cfg e.contents = false :=
        hdone _ ((mem_passes htenant).2 (.inl ⟨cfg, hcfg, .inl hjob⟩)) e he hid
      rw [hneeds] at hdone'
      cases hdone'
    rw [enqueueEmbedMissing, hnone, map_nil, chunks_nil, map_nil]
  · have hnone := unindexed_eq_nil hlive hsidecars fun ids hjob =>
      hdone _ ((mem_passes htenant).2 (.inl ⟨cfg, hcfg, .inr hjob⟩))
    rw [enqueueFtsMissing, hnone, chunks_nil, map_nil]
  · have hnone := unindexed_eq_nil hlive hsidecars fun ids hjob =>
      hdone _ ((mem_passes htenant).2 (.inr (.inl ⟨c, hc, hjob⟩)))
    rw [enqueueMissing, hnone, chunks_nil, map_nil]

theorem Filled.passes (h : Filled T w) (htenant : T.tenant = defaultTenant) (hj : j ∈ (passes env T w).flatten) :
    env.server = true ∧ j ∈ enqueueAnnMaintainStale env w := by
  rcases (mem_passes htenant).1 hj with ⟨cfg, hcfg, hembed | hfts⟩ | ⟨c, hc, hindex⟩ | hann
  · rw [(h.1 cfg hcfg).1] at hembed
    cases hembed
  · rw [(h.1 cfg hcfg).2] at hfts
    cases hfts
  · rw [h.2 c hc] at hindex
    cases hindex
  · exact hann

/-- The tree that `ann_maintain` makes of a column. -/
def treeOf (env : Env F) (w : World F) (column : String) : Option ℕ :=
  if w.coveredBy column = ∅ then none else some (env.fingerprint (w.coveredBy column))

omit [Field F] [LinearOrder F] [HasSqrt F] in
theorem foldlM_ann {columns : List String} {w : World F}
    (hrun : (columns.map Job.ann).foldlM (runJob env T) w = some w') : w'.live = w.live ∧ w'.sidecars = w.sidecars ∧
      ∀ c, w'.trees c = if c ∈ columns then treeOf env w c else w.trees c := by
  induction columns generalizing w with
  | nil =>
    cases hrun
    exact ⟨rfl, rfl, fun c => by simp⟩
  | cons column columns ih =>
    rw [map_cons, foldlM_cons] at hrun
    obtain ⟨mid, hmid, hrest⟩ := Option.bind_eq_some_iff.1 hrun
    cases hmid
    obtain ⟨hlive, hsidecars, htrees⟩ := ih hrest
    have hcovered : ∀ c, (maintainStep env w column).coveredBy c = w.coveredBy c := fun c => rfl
    refine ⟨hlive, hsidecars, fun c => ?_⟩
    rw [htrees c]
    by_cases hmem : c ∈ columns
    · rw [if_pos hmem, if_pos (mem_cons_of_mem _ hmem), treeOf, treeOf, hcovered]
    · rw [if_neg hmem]
      by_cases heq : c = column
      · subst heq
        rw [if_pos (mem_cons_self ..)]
        exact Function.update_self ..
      · rw [if_neg (by simp [heq, hmem])]
        exact Function.update_of_ne heq ..

omit [Field F] [LinearOrder F] [HasSqrt F] in
theorem mem_liveSidecars_covered {w : World F}
    (h : c ∈ w.liveSidecars.map Sidecar.column) : w.coveredBy c ≠ ∅ := by
  obtain ⟨s, hs, rfl⟩ := mem_map.1 h
  have hmem : s.extent ∈ w.coveredBy s.column := by
    unfold World.coveredBy
    rw [mem_toFinset, mem_map]
    exact ⟨s, mem_filter.2 ⟨hs, by simp⟩, rfl⟩
  exact Finset.ne_empty_of_mem hmem

theorem tick_nil_of_filled (h : Filled T w) (htenant : T.tenant = defaultTenant) (hpending : w.pending = [])
    (hrun : runAll env T w (tick env T w noFault) = some w') : tick env T w' noFault = [] := by
  rw [tick_noFault] at hrun ⊢
  -- the jobs of the tick, by their columns
  have hjobs : ∃ columns : List String, (passes env T w).flatten = columns.map Job.ann ∧
      (env.server = true → ∀ c ∈ w.liveSidecars.map Sidecar.column,
        w.trees c ≠ some (env.fingerprint (w.coveredBy c)) → c ∈ columns) := by
    refine ⟨(passes env T w).flatten.filterMap fun j => match j with
      | .ann c => some c
      | _ => none, ?_, ?_⟩
    · rw [map_filterMap]
      symm
      have hid : ∀ j ∈ (passes env T w).flatten, Option.map Job.ann (match j with
          | .ann c => some c
          | _ => none) = some j := by
        intro j hj
        obtain ⟨c, -, rfl⟩ := mem_map.1 (h.passes htenant hj).2
        rfl
      rw [filterMap_congr hid, filterMap_some]
    · intro hserver c hc hstale
      have hjob : Job.ann c ∈ (passes env T w).flatten := by
        refine (mem_passes htenant).2 (.inr (.inr ⟨hserver, mem_map.2 ⟨c, ?_, rfl⟩⟩))
        rw [mem_filter, mem_dedup]
        exact ⟨hc, by simpa using hstale⟩
      exact mem_filterMap.2 ⟨_, hjob, rfl⟩
  obtain ⟨columns, hcolumns, hstale⟩ := hjobs
  unfold runAll at hrun
  rw [hpending, nil_append, hcolumns] at hrun
  obtain ⟨hlive, hsidecars, htrees⟩ := foldlM_ann hrun
  have hfilled : Filled T w' := h.congr hlive hsidecars
  have hliveSidecars : w'.liveSidecars = w.liveSidecars := by
    unfold World.liveSidecars
    rw [hlive, hsidecars]
  rw [eq_nil_iff_forall_not_mem]
  intro j hj
  obtain ⟨hserver, hann⟩ := hfilled.passes htenant hj
  obtain ⟨c, hc, rfl⟩ := mem_map.1 hann
  obtain ⟨hc, hold⟩ := mem_filter.1 hc
  rw [mem_dedup, hliveSidecars] at hc
  have hcovered : w'.coveredBy c = w.coveredBy c := by
    unfold World.coveredBy
    rw [hliveSidecars]
  have hne := mem_liveSidecars_covered hc
  refine absurd hold ?_
  rw [decide_eq_true_eq, not_not, hcovered, htrees c]
  by_cases hmem : c ∈ columns
  · rw [if_pos hmem]
    exact if_neg hne
  · rw [if_neg hmem]
    by_contra hstale'
    exact hmem (hstale hserver c hc hstale')

theorem exists_tick_nil {f : ℕ → World F} (h : Inv env T (f 0)) (hrounds : Rounds env T f) :
    ∃ n, tick env T (f n) noFault = [] := by
  by_cases htenant : T.tenant = defaultTenant
  · have hinv : ∀ n, Inv env T (f n) := by
      intro n
      induction n with
      | zero => exact h
      | succ n ih => exact (runAll_progress ih (hrounds n)).1
    obtain ⟨n, hn⟩ := WellFounded.not_rel_apply_succ (r := (· < ·)) fun n => missing T (f n)
    obtain ⟨-, hpending, hless | ⟨hlive, hsidecars, hdone⟩⟩ := runAll_progress (hinv n) (hrounds n)
    · exact absurd hless hn
    · have hfilled := filled_of_done htenant hlive hsidecars hdone
      exact ⟨n + 2, tick_nil_of_filled hfilled htenant hpending (hrounds (n + 1))⟩
  · refine ⟨0, ?_⟩
    rw [tick_noFault, passes, if_neg htenant]
    rfl

/-- **In every run that heeds the condition quiet means covered, and rounds become quiet.**  Of a table of
the default tenant: in every state that a run reaches, if no job is pending and a tick without faults
enqueues nothing, everything is covered; and rounds of a tick and all its jobs, if these succeed, come
to a tick that enqueues nothing. -/
theorem coverage_of_heeds (env : Env F) (T : Table) (htenant : T.tenant = defaultTenant) {w : World F}
    (h : Runs.Reach (step env T) (Heeds env T) World.init w) :
    (w.pending = [] → tick env T w noFault = [] → Covered T w) ∧
      ∀ f : ℕ → World F, f 0 = w → Rounds env T f → ∃ n, tick env T (f n) noFault = [] := by
  have hinv : Inv env T w := h.inv inv_init fun _ _ _ hw hok hstep => hw.step hok hstep
  refine ⟨fun _ hquiet => covered_of_tick_nil hinv htenant hquiet, fun f hf hrounds => ?_⟩
  rw [← hf] at hinv
  exact exists_tick_nil hinv hrounds

/-! ### A table -/

def bodyConfig : EmbedConfig := ⟨"t", "v", "m", true⟩

def bodyTable : Table where
  tenant := defaultTenant
  columns := ["t", "v"]
  vectorColumns := [("v", 1)]
  configs := [bodyConfig]
  vector_mem := by decide
  config_key := by decide

def localEnv : Env ℚ where
  embedder := ⟨"m", 1, fun _ => some [1]⟩
  server := false
  builds := fun _ _ _ => true
  fingerprint := Finset.card

def bodyRow : Row ℚ := ⟨fun c => if c = "t" then some "x" else none, fun _ => none⟩

def bodyContents : Contents ℚ where
  columns := ["t", "v"]
  blocks := [[bodyRow]]
  lacks := by
    intro b hb r hr c hc
    cases mem_singleton.1 hb
    cases mem_singleton.1 hr
    exact ⟨if_neg fun heq => hc (by rw [heq]; exact mem_cons_self ..), rfl⟩

theorem due_bodyRow : due bodyTable localEnv.embedder "v" bodyRow = some [1] := by decide

theorem significant_one : Significant ([1] : List ℚ) := by decide +kernel

theorem fit_bodyContents : Fit bodyTable localEnv.embedder bodyContents where
  significant := by
    intro c hc r hr v hv _
    cases mem_singleton.1 hc
    cases mem_singleton.1 hr
    rw [due_bodyRow] at hv
    cases hv
    exact significant_one
  capped := by
    intro c hc
    cases mem_singleton.1 hc
    decide +kernel
  exists_vector := by
    intro cfg hcfg _
    cases mem_singleton.1 hcfg
    decide +kernel
  unmixed := by
    intro cfg hcfg hpos
    cases mem_singleton.1 hcfg
    exact absurd hpos (by decide)
  embedding := by decide
  source := by
    intro cfg hcfg
    cases mem_singleton.1 hcfg
    exact ⟨by decide, fun _ => by decide⟩
  embeds := fun _ _ _ _ _ _ => rfl

/-- A row is ingested, and rounds go on from there. -/
theorem coverage_of_heeds_one :
    ∃ w : World ℚ, w.live.length = 1 ∧ ∀ f : ℕ → World ℚ, f 0 = w → Rounds localEnv bodyTable f →
      ∃ n, tick localEnv bodyTable (f n) noFault = [] :=
  ⟨World.init.supersede [] bodyContents, rfl, (coverage_of_heeds localEnv bodyTable rfl
    (.step (Action.ingest bodyContents) .init fit_bodyContents rfl)).2⟩

def mixing : List (Action ℚ) :=
  [.ingest bodyContents, .tick noFault, .start (.job (.embed [0] bodyConfig)), .backfill 0 0,
    .leave (.embed [0] bodyConfig), .ingest bodyContents, .start (.merge [1, 2]), .compact 1,
    .tick noFault, .start (.job (.index [3] "t" .tantivyFts)), .build 2 3,
    .start (.job (.index [3] "v" .ivfRabitq)), .build 3 3, .leave (.index [3] "t" .tantivyFts),
    .leave (.index [3] "v" .ivfRabitq)]

/-- **A run after which a row is never embedded**: the merged extent has vectors in its statistics. -/
theorem merged_uncovered : ∃ w, Runs.Reach (step localEnv bodyTable) Runs.Free World.init w ∧ w.pending = [] ∧
      tick localEnv bodyTable w noFault = [] ∧ ¬ Covered bodyTable w := by
  have hquiet : ((Runs.run (step localEnv bodyTable) Runs.Free World.init mixing).any fun w =>
      w.pending = [] ∧ tick localEnv bodyTable w noFault = [] ∧ w.live.any fun e => e.contents.rows.any fun r =>
          r.text "t" = some "x" ∧ (r.vec "v").isSome = false) = true := by decide +kernel
  obtain ⟨w, hrun, hw⟩ := (Option.any_eq_true _ _).1 hquiet
  obtain ⟨hpending, htick, hrow⟩ := of_decide_eq_true hw
  obtain ⟨e, he, hrows⟩ := any_eq_true.1 hrow
  obtain ⟨r, hr, hcells⟩ := any_eq_true.1 hrows
  obtain ⟨htext, hvec⟩ := of_decide_eq_true hcells
  refine ⟨w, Runs.reach_of_run hrun, hpending, htick, fun hcovered => ?_⟩
  have hsome := hcovered.embedded e he r hr bodyConfig (mem_singleton_self _) "x" htext (by decide)
  rw [show bodyConfig.embeddingColumn = "v" from rfl, hvec] at hsome
  cases hsome

end Coverage
