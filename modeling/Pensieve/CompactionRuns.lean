/-
**Which runs of merges and rewrites conserve the rows of a table.**

The processes of `Pensieve/Compaction.lean` are meant to keep the rows of a table: what is live is
what was ingested less what retention has removed.
-/

import Pensieve.Compaction

namespace Compaction

open Function
open List
open Catalog

variable {V : Type} {env : Env V}

/-! ### The condition and the property -/

def Proc.SourcesLive (env : Env V) (st : St V) : Proc → Prop
  | .committing c => ∀ txn ∈ c.txn, c.kind = .merge → ¬Stale st.db txn →
      ∀ id ∈ c.removed, id ∈ (st.live env).map ExtentManifest.id
  | _ => True

/-- The condition on a run: whenever a merge or rewrite commits on the current snapshot, all of its
sources are live. -/
def SourcesLive (env : Env V) (st : St V) : Action V → Prop
  | .commit i _ _ => ∀ p ∈ st.procs i, p.SourcesLive env st
  | _ => True

instance (st : St V) (p : Proc) : Decidable (p.SourcesLive env st) :=
  match p with
  | .committing c => inferInstanceAs (Decidable (∀ txn ∈ c.txn, c.kind = .merge →
      ¬Stale st.db txn → ∀ id ∈ c.removed, id ∈ (st.live env).map ExtentManifest.id))
  | .compactionTask _ => isTrue trivial
  | .compactionListed _ _ => isTrue trivial
  | .backfillTask _ _ _ => isTrue trivial
  | .backfillListed _ _ _ _ => isTrue trivial

instance (st : St V) (a : Action V) : Decidable (SourcesLive env st a) :=
  match a with
  | .commit i _ _ => inferInstanceAs (Decidable (∀ p ∈ st.procs i, p.SourcesLive env st))
  | .alterTableAddColumn _ => isTrue trivial
  | .submitCompaction _ _ => isTrue trivial
  | .submitBackfill _ _ _ _ => isTrue trivial
  | .list _ => isTrue trivial
  | .read _ _ _ => isTrue trivial
  | .ingest _ _ _ => isTrue trivial
  | .retention _ _ => isTrue trivial
  | .beginSnapshot _ => isTrue trivial

/-- The rows that are live and those that retention removed are, together, those of the committed
ingests. -/
def Conserved (env : Env V) (st : St V) : Prop := st.liveRows env + st.retired = st.ingested

/-! ### What merges and rewrites write -/

theorem promoteBatch_fields (b : Block V) (target : List String) : (promoteBatch b target).fields = target := by
  unfold promoteBatch
  split
  · assumption
  · rfl

theorem visible_promote {b : Block V} {target : List String}
    (h : ∀ c ∈ b.fields, c ∈ target) : (promoteBatch b target).rows.map (env.visible (promoteBatch b target)) =
      b.rows.map (env.visible b) := by
  unfold promoteBatch
  split
  · rfl
  · rw [map_map]
    refine map_congr_left fun r _ => funext fun c => ?_
    -- a column outside the target is outside the block, and reads as null in both
    have hread : (if c ∈ target then b.read r c else none) = b.read r c := by
      split
      · rfl
      · rename_i hc
        rw [Block.read, if_neg fun hcb => hc (h c hcb)]
    simp only [comp_apply, Env.visible, Block.read] at hread ⊢
    split
    · rfl
    · exact hread

theorem visible_rewrite {b : Block V} {target : List String} {src emb : String}
    (hemb : env.isEmbedding emb = true) (h : ∀ c ∈ b.fields, c ∈ target) :
    (rewriteBlock env target src emb b).rows.map (env.visible (rewriteBlock env target src emb b)) =
      b.rows.map (env.visible b) := by
  rw [rewriteBlock, map_map]
  refine map_congr_left fun r _ => funext fun c => ?_
  simp only [comp_apply, Env.visible, Block.read]
  split
  · rfl
  · rename_i hc
    have hne : c ≠ emb := by
      rintro rfl
      exact hc hemb
    rw [rewriteRow, if_neg hne, Block.read]
    split
    · rfl
    · rename_i hct
      rw [if_neg fun hcb => hct (h c hcb)]

theorem blocksRows_map {f : Block V → Block V} {blocks : List (Block V)}
    (h : ∀ b ∈ blocks, (f b).rows.map (env.visible (f b)) = b.rows.map (env.visible b)) :
    blocksRows env (blocks.map f) = blocksRows env blocks := by
  unfold blocksRows
  rw [map_map]
  congr 1
  refine map_congr_left fun b hb => ?_
  rw [comp_apply, h b hb]

theorem blocksRows_flatten (extents : List (List (Block V))) :
    blocksRows env extents.flatten = (extents.map (blocksRows env)).sum := by
  induction extents with
  | nil => rfl
  | cons e es ih =>
    rw [flatten_cons, map_cons, sum_cons, ← ih]
    simp [blocksRows]

variable {st : St V}

theorem rowsOf_of_mapM (env : Env V) {sources : List (ExtentManifest (Json ℚ))}
    {extents : List (List (Block V))} (h : sources.mapM (fun m => st.objects m.id) = some extents) :
    (∀ m ∈ sources, ∃ blocks ∈ extents, st.objects m.id = some blocks) ∧
    (∀ blocks ∈ extents, ∃ m ∈ sources, st.objects m.id = some blocks) ∧
    (extents.map (blocksRows env)).sum = (sources.map fun m => st.rowsOf env m.id).sum := by
  induction sources generalizing extents with
  | nil =>
    cases h
    simp
  | cons m ms ih =>
    rw [mapM_cons] at h
    obtain ⟨blocks, hb, h⟩ := Option.bind_eq_some_iff.mp h
    obtain ⟨rest, hrest, h⟩ := Option.bind_eq_some_iff.mp h
    cases h
    obtain ⟨h₁, h₂, h₃⟩ := ih hrest
    refine ⟨?_, ?_, ?_⟩
    · intro m' hm'
      rcases mem_cons.mp hm' with rfl | hm'
      · exact ⟨blocks, by simp, hb⟩
      · obtain ⟨bs, hbs, hobj⟩ := h₁ m' hm'
        exact ⟨bs, by simp [hbs], hobj⟩
    · intro bs hbs
      rcases mem_cons.mp hbs with rfl | hbs
      · exact ⟨m, by simp, hb⟩
      · obtain ⟨m', hm', hobj⟩ := h₂ bs hbs
        exact ⟨m', by simp [hm'], hobj⟩
    · rw [map_cons, sum_cons, map_cons, sum_cons, h₃, St.rowsOf, hb]

/-! ### The invariant -/

/-- The extent can be read, and a promotion of its blocks to `schema` loses no column. -/
def Readable (st : St V) (schema : List String) (id : ExtentId) : Prop :=
  ∃ blocks, st.objects id = some blocks ∧ ∀ b ∈ blocks, ∀ c ∈ b.fields, c ∈ schema

/-- A commit loop knows what it stands for: an ingest removes nothing, retention adds nothing, and
what a merge or rewrite adds are the rows of what it removes. -/
structure CommitterOk (env : Env V) (st : St V) (c : Committer) : Prop where
  ownTable : ∀ m ∈ c.added, m.tableId = env.tableId
  stored : ∀ m ∈ c.added, Readable st st.schema m.id
  fresh : ∀ m ∈ c.added, m.id ∉ c.removed
  ingest : c.kind = .ingest → c.removed = []
  retention : c.kind = .retention → c.added = []
  sources : ∀ id ∈ c.removed, (st.objects id).isSome
  merge : c.kind = .merge → c.removed.Nodup ∧ st.addedRows env c = (c.removed.map (st.rowsOf env)).sum
  txn : ∀ txn ∈ c.txn, txn.tenant = env.tenant ∧ txn.tableId = env.tableId ∧
    txn.added = c.added ∧ txn.removed = c.removed

def ProcOk (env : Env V) (st : St V) : Proc → Prop
  | .compactionTask _ => True
  | .backfillTask _ _ _ => True
  | .compactionListed schema sources => (sources.map ExtentManifest.id).Nodup ∧
      (∀ c ∈ schema, c ∈ st.schema) ∧ ∀ m ∈ sources, Readable st schema m.id
  | .backfillListed schema m _ _ => (∀ c ∈ schema, c ∈ st.schema) ∧ Readable st schema m.id
  | .committing c => CommitterOk env st c

/-- No row is lost; and with `exact`, none is there twice. -/
structure Inv (exact : Prop) (env : Env V) (st : St V) : Prop where
  extentIds : (extentIds st.db).Nodup
  stored : ∀ e ∈ st.db.extents, Readable st st.schema e.manifest.id
  procs : ∀ i, ∀ p ∈ st.procs i, ProcOk env st p
  kept : st.ingested ≤ st.liveRows env + st.retired
  exactly : exact → Conserved env st

variable {exact : Prop}

theorem inv_init (schema : List String) : Inv exact env (St.init env schema) where
  extentIds := by simp [St.init, Catalog.extentIds]
  stored := by simp [St.init]
  procs := by simp [St.init]
  kept := by simp [St.init]
  exactly _ := by simp [Conserved, St.liveRows, St.live, liveExtents, St.init]

/-! ### Growing the object store and the schema -/

/-- What a step that does not touch the database may do: new objects, new columns. -/
structure Grows (st st' : St V) : Prop where
  objects : ∀ id blocks, st.objects id = some blocks → st'.objects id = some blocks
  schema : ∀ c ∈ st.schema, c ∈ st'.schema

variable {id : ExtentId}

variable {st' : St V}

theorem Grows.isSome (h : Grows st st') (hid : (st.objects id).isSome) : (st'.objects id).isSome := by
  obtain ⟨blocks, hb⟩ := Option.isSome_iff_exists.mp hid
  exact Option.isSome_iff_exists.mpr ⟨blocks, h.objects id blocks hb⟩

theorem Grows.rowsOf (h : Grows st st') {id : ExtentId}
    (hid : (st.objects id).isSome) : st'.rowsOf env id = st.rowsOf env id := by
  obtain ⟨blocks, hb⟩ := Option.isSome_iff_exists.mp hid
  rw [St.rowsOf, St.rowsOf, hb, h.objects id blocks hb]

theorem Grows.sum_rowsOf {α : Type} (h : Grows st st') {l : List α} {key : α → ExtentId}
    (hl : ∀ a ∈ l, (st.objects (key a)).isSome) :
    (l.map fun a => st'.rowsOf env (key a)).sum = (l.map fun a => st.rowsOf env (key a)).sum := by
  congr 1
  exact map_congr_left fun a ha => h.rowsOf (hl a ha)

variable {schema : List String}

theorem Readable.mono (h : Grows st st') {schema' : List String} (hs : ∀ c ∈ schema, c ∈ schema')
    {id : ExtentId} (hr : Readable st schema id) :
    Readable st' schema' id := by
  obtain ⟨blocks, hb, hf⟩ := hr
  exact ⟨blocks, h.objects id blocks hb, fun b hbm c hc => hs c (hf b hbm c hc)⟩

theorem Readable.isSome {id : ExtentId} (h : Readable st schema id) : (st.objects id).isSome := by
  obtain ⟨blocks, hb, -⟩ := h
  exact Option.isSome_iff_exists.mpr ⟨blocks, hb⟩

variable {c : Committer}

theorem CommitterOk.mono (h : Grows st st') (hc : CommitterOk env st c) : CommitterOk env st' c where
  ownTable := hc.ownTable
  stored := fun m hm => (hc.stored m hm).mono h h.schema
  fresh := hc.fresh
  ingest := hc.ingest
  retention := hc.retention
  sources := fun id hid => h.isSome (hc.sources id hid)
  merge := by
    intro hk
    obtain ⟨hnd, hsum⟩ := hc.merge hk
    refine ⟨hnd, ?_⟩
    have hrem : (c.removed.map (st'.rowsOf env)).sum = (c.removed.map (st.rowsOf env)).sum := h.sum_rowsOf hc.sources
    rw [St.addedRows, h.sum_rowsOf fun m hm => (hc.stored m hm).isSome, ← St.addedRows, hsum, hrem]
  txn := hc.txn

theorem ProcOk.mono (h : Grows st st') {p : Proc} (hp : ProcOk env st p) : ProcOk env st' p := by
  cases p with
  | compactionTask ids | backfillTask id src emb => trivial
  | compactionListed schema sources =>
    obtain ⟨hnd, hsch, hread⟩ := hp
    exact ⟨hnd, fun c hc => h.schema c (hsch c hc), fun m hm => (hread m hm).mono h fun _ hc => hc⟩
  | backfillListed schema m src emb =>
    obtain ⟨hsch, hread⟩ := hp
    exact ⟨fun c hc => h.schema c (hsch c hc), hread.mono h fun _ hc => hc⟩
  | committing c => exact CommitterOk.mono h hp

theorem Inv.stored_live (h : Inv exact env st) {m : ExtentManifest (Json ℚ)}
    (hm : m ∈ st.live env) : Readable st st.schema m.id := by
  obtain ⟨e, he, rfl⟩ := mem_map.mp hm
  exact h.stored e (mem_filter.mp he).1

theorem Inv.liveRows_eq (h : Inv exact env st) (hg : Grows st st') (hdb : st'.db = st.db) :
    st'.liveRows env = st.liveRows env := by
  have hlive : st'.live env = st.live env := by rw [St.live, hdb, St.live]
  rw [St.liveRows, hlive, hg.sum_rowsOf fun m hm => (h.stored_live hm).isSome, St.liveRows]

theorem Inv.grow (h : Inv exact env st) (hg : Grows st st') {i : ℕ} {o : Option Proc} (hdb : st'.db = st.db)
    (hprocs : st'.procs = Function.update st.procs i o) (hin : st'.ingested = st.ingested)
    (hret : st'.retired = st.retired) (ho : ∀ p ∈ o, ProcOk env st' p) : Inv exact env st' where
  extentIds := by rw [hdb]; exact h.extentIds
  stored := by
    intro e he
    rw [hdb] at he
    exact (h.stored e he).mono hg hg.schema
  procs := by
    intro j p hp
    rw [hprocs] at hp
    by_cases hij : j = i
    · subst hij
      rw [update_self] at hp
      exact ho p hp
    · rw [update_of_ne hij] at hp
      exact (h.procs j p hp).mono hg
  kept := by
    rw [h.liveRows_eq hg hdb, hin, hret]
    exact h.kept
  exactly hexact := by
    rw [Conserved, h.liveRows_eq hg hdb, hin, hret]
    exact h.exactly hexact

theorem Inv.setProc (h : Inv exact env st) (i : ℕ) {o : Option Proc}
    (ho : ∀ p ∈ o, ProcOk env st p) : Inv exact env (st.setProc i o) := by
  have hg : Grows st (st.setProc i o) := ⟨fun _ _ h => h, fun _ h => h⟩
  exact h.grow hg rfl rfl rfl rfl fun p hp => (ho p hp).mono hg

/-! ### Listing -/

theorem Inv.nodup_live (h : Inv exact env st) : ((st.live env).map ExtentManifest.id).Nodup := by
  rw [St.live, liveExtents, map_map]
  exact h.extentIds.sublist (filter_sublist.map _)

theorem Inv.listCompaction (h : Inv exact env st) (ids : List ExtentId) :
    ∀ p ∈ st.listCompaction env ids, ProcOk env st p := by
  intro p hp
  obtain ⟨all, hall, hperm⟩ := listExtents_default env.backend env.jsonbLe st.db env.tenant
    env.tableId (st.currentSnapshotId env)
  unfold St.listCompaction St.listAll at hp
  simp only [hall] at hp
  split at hp
  · cases hp
  · cases hp
    refine ⟨?_, fun c hc => hc, fun m hm => ?_⟩
    · have hnd : (all.map ExtentManifest.id).Nodup := (hperm.map _).nodup_iff.mpr h.nodup_live
      exact hnd.sublist (filter_sublist.map _)
    · exact h.stored_live (hperm.mem_iff.mp (mem_filter.mp hm).1)

theorem Inv.listBackfill (h : Inv exact env st) (id : ExtentId) (src emb : String) :
    ∀ p ∈ st.listBackfill env id src emb, ProcOk env st p := by
  intro p hp
  obtain ⟨all, hall, hperm⟩ := listExtents_default env.backend env.jsonbLe st.db env.tenant
    env.tableId (st.currentSnapshotId env)
  unfold St.listBackfill St.listAll at hp
  simp only [hall] at hp
  obtain ⟨m, hm, rfl⟩ := Option.map_eq_some_iff.mp hp
  exact ⟨fun c hc => hc, h.stored_live (hperm.mem_iff.mp (mem_of_find?_eq_some hm))⟩

/-! ### Reading and writing -/

variable {w : ExtentWriteResult}

theorem grows_writeMerged (hw : st.objects w.extentId = none) (i : ℕ) (now : DateTime)
    (blocks : List (Block V)) (gen : ℕ) (removed : List ExtentId) :
    Grows st (st.writeMerged env i w now blocks gen removed) where
  objects := by
    intro id bs hbs
    have hne : id ≠ w.extentId := by
      rintro rfl
      rw [hw] at hbs
      cases hbs
    show Function.update st.objects w.extentId (some blocks) id = some bs
    rw [update_of_ne hne, hbs]
  schema := fun _ h => h

theorem Inv.writeMerged (h : Inv exact env st) (hw : st.objects w.extentId = none) (i : ℕ) (now : DateTime)
    {blocks : List (Block V)} (gen : ℕ) {removed : List ExtentId} (hnd : removed.Nodup)
    (hrem : ∀ id ∈ removed, (st.objects id).isSome) (hfields : ∀ b ∈ blocks, ∀ c ∈ b.fields, c ∈ st.schema)
    (hrows : blocksRows env blocks = (removed.map (st.rowsOf env)).sum) :
    Inv exact env (st.writeMerged env i w now blocks gen removed) := by
  have hg : Grows st (st.writeMerged env i w now blocks gen removed) := grows_writeMerged hw i now blocks gen removed
  refine h.grow hg rfl rfl rfl rfl ?_
  rintro p ⟨⟩
  have hself : (st.writeMerged env i w now blocks gen removed).objects w.extentId = some blocks := update_self ..
  refine { ownTable := ?_, stored := ?_, fresh := ?_, ingest := ?_, retention := ?_, sources := ?_, merge := ?_, txn := ?_ }
  · rintro m hm
    cases mem_singleton.mp hm
    rfl
  · rintro m hm
    cases mem_singleton.mp hm
    exact ⟨blocks, hself, hfields⟩
  · rintro m hm hin
    cases mem_singleton.mp hm
    have hsome := hrem w.extentId hin
    rw [hw] at hsome
    cases hsome
  · rintro ⟨⟩
  · rintro ⟨⟩
  · exact fun id hid => hg.isSome (hrem id hid)
  · intro _
    refine ⟨hnd, ?_⟩
    have hsum : (removed.map ((st.writeMerged env i w now blocks gen removed).rowsOf env)).sum =
        (removed.map (st.rowsOf env)).sum := hg.sum_rowsOf hrem
    rw [show (Committer.start .merge _ removed).removed = removed from rfl, hsum, ← hrows]
    simp [St.addedRows, Committer.start, manifestFromWrite, St.rowsOf, hself]
  · rintro txn ⟨⟩

theorem Inv.readCompaction (h : Inv exact env st) (hw : st.objects w.extentId = none) (i : ℕ)
    (now : DateTime) {sources : List (ExtentManifest (Json ℚ))}
    (hp : ProcOk env st (.compactionListed schema sources)) :
    Inv exact env (st.readCompaction env i w now schema sources) := by
  obtain ⟨hnd, hsch, hread⟩ := hp
  unfold St.readCompaction
  split
  · exact h.setProc i (by simp)
  · rename_i extents hmap
    obtain ⟨-, hext, hsum⟩ := rowsOf_of_mapM env hmap
    refine h.writeMerged hw i now _ hnd ?_ ?_ ?_
    · intro id hid
      obtain ⟨m, hm, rfl⟩ := mem_map.mp hid
      exact (hread m hm).isSome
    · intro b hb c hc
      obtain ⟨b₀, -, rfl⟩ := mem_map.mp hb
      exact hsch c (promoteBatch_fields b₀ schema ▸ hc)
    · rw [blocksRows_map, blocksRows_flatten, hsum, map_map]
      · rfl
      · intro b hb
        obtain ⟨bs, hbs, hb⟩ := mem_flatten.mp hb
        obtain ⟨m, hm, hobj⟩ := hext bs hbs
        obtain ⟨bs', hobj', hf⟩ := hread m hm
        cases hobj.symm.trans hobj'
        exact visible_promote (hf b hb)

theorem Inv.readBackfill (h : Inv exact env st) (hw : st.objects w.extentId = none) (i : ℕ) (now : DateTime)
    {m : ExtentManifest (Json ℚ)} {src emb : String}
    (hp : ProcOk env st (.backfillListed schema m src emb)) :
    Inv exact env (st.readBackfill env i w now schema m src emb) := by
  obtain ⟨hsch, blocks, hobj, hf⟩ := hp
  unfold St.readBackfill
  rw [hobj]
  dsimp only
  split
  · exact h.setProc i (by simp)
  · rename_i hcol
    push Not at hcol
    split
    · exact h.setProc i (by simp)
    · split
      · exact h.setProc i (by simp)
      · refine h.writeMerged hw i now _ (by simp) ?_ ?_ ?_
        · intro id hid
          cases mem_singleton.mp hid
          exact Option.isSome_iff_exists.mpr ⟨blocks, hobj⟩
        · intro b hb c hc
          obtain ⟨b₀, -, rfl⟩ := mem_map.mp hb
          exact hsch c hc
        · have hemb : env.isEmbedding emb = true := by simpa using hcol.2
          rw [blocksRows_map fun b hb => visible_rewrite hemb (hf b hb)]
          simp [St.rowsOf, hobj]

/-! ### Ingest and retention -/

variable {writes : List (ExtentWriteResult × List (Block V))}

theorem writeObjects_of_notMem {objects : ExtentId → Option (List (Block V))}
    (h : ∀ p ∈ writes, p.1.extentId ≠ id) : writeObjects objects writes id = objects id := by
  induction writes with
  | nil => rfl
  | cons p rest ih =>
    obtain ⟨w, blocks⟩ := p
    rw [writeObjects, update_of_ne (Ne.symm (h (w, blocks) (by simp)))]
    exact ih fun q hq => h q (by simp [hq])

theorem writeObjects_of_mem {objects : ExtentId → Option (List (Block V))}
    (hnd : (writes.map fun p => p.1.extentId).Nodup) {p : ExtentWriteResult × List (Block V)}
    (hp : p ∈ writes) : writeObjects objects writes p.1.extentId = some p.2 := by
  induction writes with
  | nil => cases hp
  | cons q rest ih =>
    obtain ⟨w, blocks⟩ := q
    obtain ⟨hw, hrest⟩ := nodup_cons.mp hnd
    rcases mem_cons.mp hp with rfl | hp
    · exact update_self ..
    · have hne : p.1.extentId ≠ w.extentId := by
        intro heq
        exact hw (mem_map.mpr ⟨p, hp, heq⟩)
      rw [writeObjects, update_of_ne hne]
      exact ih hrest hp

theorem Inv.ingest (h : Inv exact env st) (i : ℕ) (hw : st.Writable writes) (now : DateTime) :
    Inv exact env { st.setProc i (some (.committing
        (.start .ingest (ingestManifests env writes now) []))) with
      objects := writeObjects st.objects writes } := by
  obtain ⟨hnd, hfresh, hfields⟩ := hw
  refine h.grow (i := i) ⟨?_, fun _ h => h⟩ rfl rfl rfl rfl ?_
  · intro id bs hbs
    show writeObjects st.objects writes id = some bs
    rw [writeObjects_of_notMem, hbs]
    rintro p hp rfl
    simpa [hbs] using hfresh p hp
  · rintro p ⟨⟩
    refine { ownTable := ?_, stored := ?_, fresh := fun _ _ => not_mem_nil, ingest := fun _ => rfl, retention := ?_,
             sources := ?_, merge := ?_, txn := ?_ }
    · intro m hm
      obtain ⟨q, -, rfl⟩ := mem_map.mp hm
      rfl
    · intro m hm
      obtain ⟨q, hq, rfl⟩ := mem_map.mp hm
      exact ⟨q.2, writeObjects_of_mem hnd hq, hfields q hq⟩
    · rintro ⟨⟩
    · rintro id ⟨⟩
    · rintro ⟨⟩
    · rintro txn ⟨⟩

theorem Inv.retention (h : Inv exact env st) (cutoff : DateTime) :
    CommitterOk env st (.start .retention [] (st.expired env cutoff)) := by
  refine { ownTable := ?_, stored := ?_, fresh := ?_, ingest := ?_, retention := fun _ => rfl, sources := ?_,
           merge := ?_, txn := ?_ }
  · rintro m ⟨⟩
  · rintro m ⟨⟩
  · rintro m ⟨⟩
  · rintro ⟨⟩
  · intro id hid
    obtain ⟨m, hm, rfl⟩ := mem_map.mp hid
    exact (h.stored_live (mem_filter.mp hm).1).isSome
  · rintro ⟨⟩
  · rintro txn ⟨⟩

/-! ### The commit loop -/

@[simp] theorem fill_tenant (c : Committer) (txn : SnapshotTxn (Json ℚ)) : (c.fill txn).tenant = txn.tenant := by
  unfold Committer.fill SnapshotTxn.removeExtents
  induction c.added generalizing txn with
  | nil => rfl
  | cons m ms ih => exact ih (txn.addExtent m)

@[simp] theorem fill_tableId (c : Committer) (txn : SnapshotTxn (Json ℚ)) : (c.fill txn).tableId = txn.tableId := by
  unfold Committer.fill SnapshotTxn.removeExtents
  induction c.added generalizing txn with
  | nil => rfl
  | cons m ms ih => exact ih (txn.addExtent m)

theorem fill_added (c : Committer) (txn : SnapshotTxn (Json ℚ)) : (c.fill txn).added = txn.added ++ c.added := by
  unfold Committer.fill SnapshotTxn.removeExtents
  induction c.added generalizing txn with
  | nil => simp
  | cons m ms ih =>
    rw [foldl_cons, ih (txn.addExtent m)]
    simp [SnapshotTxn.addExtent]

theorem fill_removed (c : Committer) (txn : SnapshotTxn (Json ℚ)) :
    (c.fill txn).removed = txn.removed ++ c.removed := by
  unfold Committer.fill SnapshotTxn.removeExtents
  induction c.added generalizing txn with
  | nil => rfl
  | cons m ms ih => exact ih (txn.addExtent m)

theorem Inv.beginCommit (h : Inv exact env st) (i : ℕ) (hc : CommitterOk env st c) : Inv exact env (st.beginCommit env i c) := by
  unfold St.beginCommit
  split
  · exact h.setProc i (by simp)
  · rename_i txn hb
    obtain ⟨hten, htab, hadd, hrem, -⟩ := beginSnapshot_eq_ok hb
    refine h.setProc i ?_
    rintro p ⟨⟩
    refine { hc with txn := ?_ }
    rintro txn' ⟨⟩
    simp [fill_added, fill_removed, hten, htab, hadd, hrem]

variable {txn : SnapshotTxn (Json ℚ)}

theorem live_commit (hc : CommitterOk env st c) (htxn : txn ∈ c.txn) {d : Draws} {db' : Db (Json ℚ)}
    (hspec : CommitSpec st.db txn d db') : liveExtents db' env.tenant env.tableId =
      (st.live env ++ c.added).filter fun m => m.id ∉ c.removed := by
  obtain ⟨hten, -, hadd, hrem⟩ := hc.txn txn htxn
  have hall : c.added.filter (fun m => env.tenant = env.tenant ∧ m.tableId = env.tableId) = c.added := by
    refine filter_eq_self.mpr fun m hm => ?_
    simp [hc.ownTable m hm]
  rw [hspec.liveExtents_eq, hten, hadd, hrem, hall, St.live]
  simp

theorem sum_filter_removed (env : Env V) (st : St V) (l : List (ExtentManifest (Json ℚ))) (removed : List ExtentId) :
    ((l.filter fun m => m.id ∉ removed).map fun m => st.rowsOf env m.id).sum +
      ((l.filter fun m => m.id ∈ removed).map fun m => st.rowsOf env m.id).sum =
    (l.map fun m => st.rowsOf env m.id).sum := by
  have hperm := filter_append_perm (fun m : ExtentManifest (Json ℚ) => m.id ∉ removed) l
  have hsum := (hperm.map fun m => st.rowsOf env m.id).sum_eq
  rw [map_append, sum_append] at hsum
  simpa using hsum

theorem Inv.removedRows_eq (h : Inv exact env st) (hnd : c.removed.Nodup)
    (hlive : ∀ id ∈ c.removed, id ∈ (st.live env).map ExtentManifest.id) :
    st.removedRows env c = (c.removed.map (st.rowsOf env)).sum := by
  have hperm : (((st.live env).filter fun m => m.id ∈ c.removed).map ExtentManifest.id).Perm
      c.removed := by
    refine (perm_ext_iff_of_nodup (h.nodup_live.sublist (filter_sublist.map _)) hnd).mpr ?_
    intro id
    constructor
    · intro hid
      obtain ⟨m, hm, rfl⟩ := mem_map.mp hid
      simpa using (mem_filter.mp hm).2
    · intro hid
      obtain ⟨m, hm, rfl⟩ := mem_map.mp (hlive id hid)
      exact mem_map_of_mem (mem_filter.mpr ⟨hm, by simpa using hid⟩)
  rw [St.removedRows, ← (hperm.map (st.rowsOf env)).sum_eq, map_map]
  rfl

theorem Inv.removedRows_le (h : Inv exact env st) (c : Committer) :
    st.removedRows env c ≤ (c.removed.map (st.rowsOf env)).sum := by
  have hnd : (((st.live env).filter fun m => m.id ∈ c.removed).map ExtentManifest.id).Nodup :=
    h.nodup_live.sublist (filter_sublist.map _)
  have hsub : ((st.live env).filter fun m => m.id ∈ c.removed).map ExtentManifest.id ⊆ c.removed := fun id hid => by
    obtain ⟨m, hm, rfl⟩ := mem_map.mp hid
    simpa using (mem_filter.mp hm).2
  obtain ⟨rest, hrest⟩ := Multiset.le_iff_exists_add.mp (Multiset.coe_le.mpr (subperm_of_subset hnd hsub))
  have hsum := congrArg (fun l => (l.map (st.rowsOf env)).sum) hrest
  simp only [Multiset.map_add, Multiset.sum_add, Multiset.map_coe, Multiset.sum_coe, map_map] at hsum
  exact hsum ▸ Multiset.le_add_right _ _

theorem CommitterOk.liveRows_commit (hc : CommitterOk env st c) (htxn : txn ∈ c.txn) {d : Draws} {db' : Db (Json ℚ)}
    (hspec : CommitSpec st.db txn d db') :
    ((liveExtents db' env.tenant env.tableId).map fun m => st.rowsOf env m.id).sum + st.removedRows env c =
      st.liveRows env + st.addedRows env c := by
  have hnew : c.added.filter (fun m => m.id ∈ c.removed) = [] :=
    filter_eq_nil_iff.mpr fun m hm hin => hc.fresh m hm (by simpa using hin)
  have hsplit := sum_filter_removed env st (st.live env ++ c.added) c.removed
  have hgone : (st.live env ++ c.added).filter (fun m => m.id ∈ c.removed) =
      (st.live env).filter fun m => m.id ∈ c.removed := by
    rw [filter_append, hnew, append_nil]
  rw [hgone, map_append, sum_append] at hsplit
  rw [live_commit hc htxn hspec]
  exact hsplit

/-- **One commit loses no row**, and makes none twice if a merge or rewrite still has all of its sources. -/
theorem Inv.rows_commit (h : Inv exact env st) (hc : CommitterOk env st c) (htxn : txn ∈ c.txn) {d : Draws}
    {db' : Db (Json ℚ)} (hspec : CommitSpec st.db txn d db')
    (hsrc : exact → c.kind = .merge → ∀ id ∈ c.removed, id ∈ (st.live env).map ExtentManifest.id)
    {all ingested : Multiset (Row V)}
    (hall : all = ((liveExtents db' env.tenant env.tableId).map fun m => st.rowsOf env m.id).sum +
      (st.retired + if c.kind = .retention then st.removedRows env c else 0))
    (hin : ingested = st.ingested + if c.kind = .ingest then st.addedRows env c else 0) :
    ingested ≤ all ∧ (exact → all = ingested) := by
  have hrows := hc.liveRows_commit htxn hspec
  subst hall hin
  cases hk : c.kind with
  | ingest =>
    have hnone : st.removedRows env c = 0 := by simp [St.removedRows, hc.ingest hk]
    rw [hnone, add_zero] at hrows
    rw [if_pos rfl, if_neg (by simp), add_zero, hrows, add_right_comm]
    exact ⟨add_le_add_left h.kept _, fun hexact => congrArg (· + _) (h.exactly hexact)⟩
  | retention =>
    have hnone : st.addedRows env c = 0 := by simp [St.addedRows, hc.retention hk]
    rw [hnone, add_zero] at hrows
    rw [if_pos rfl, if_neg (by simp), add_zero, ← add_assoc, add_right_comm, hrows]
    exact ⟨h.kept, h.exactly⟩
  | merge =>
    obtain ⟨hnd, hsum⟩ := hc.merge hk
    rw [if_neg (by simp), if_neg (by simp), add_zero, add_zero]
    constructor
    · -- a source that is gone is a row more, never a row less
      have hle : st.removedRows env c ≤ st.addedRows env c := hsum ▸ h.removedRows_le c
      have hgrown := le_of_add_le_add_right (hrows ▸ add_le_add_right hle _)
      exact h.kept.trans (add_le_add_left hgrown _)
    · intro hexact
      rw [h.removedRows_eq hnd (hsrc hexact hk), ← hsum] at hrows
      rw [add_right_cancel hrows]
      exact h.exactly hexact

theorem Inv.commit (h : Inv exact env st) (i : ℕ) (hc : CommitterOk env st c) (htxn : txn ∈ c.txn)
    (faults : Faults) (d : Draws)
    (hsrc : exact → c.kind = .merge → ¬Stale st.db txn → ∀ id ∈ c.removed,
      id ∈ (st.live env).map ExtentManifest.id) : Inv exact env (st.commit env i c txn faults d) := by
  unfold St.commit
  split
  · rename_i s db' hcommit
    obtain ⟨-, hspec⟩ := commit_eq_ok hcommit
    have hfresh : ¬Stale st.db txn := by
      intro hstale
      obtain ⟨t, ht, hhit⟩ := hspec.current
      exact hstale t ht (casHits_iff.mp hhit).2.1 (casHits_iff.mp hhit).2.2
    have hrows := h.rows_commit hc htxn hspec (fun hexact hk => hsrc hexact hk hfresh) rfl rfl
    refine { extentIds := ?_, stored := ?_, procs := ?_, kept := hrows.1, exactly := hrows.2 }
    · show (db'.extents.map fun e => e.manifest.id).Nodup
      rw [hspec.extents, map_map]
      simpa [comp_def, Catalog.extentIds, extentRow] using hspec.freshExtents h.extentIds
    · intro e he
      rw [show (St.setProc st i none).schema = st.schema from rfl]
      obtain ⟨e₀, he₀, rfl⟩ := mem_map.mp (hspec.extents ▸ he : e ∈ List.map _ _)
      rw [markDeleted_manifest]
      rcases mem_append.mp he₀ with he₀ | he₀
      · exact h.stored e₀ he₀
      · obtain ⟨m, hm, rfl⟩ := mem_map.mp he₀
        exact hc.stored m ((hc.txn txn htxn).2.2.1 ▸ hm)
    · intro j p hp
      have hp' : p ∈ st.procs j := by
        by_cases hij : j = i
        · subst hij
          simp [St.setProc] at hp
        · simpa [St.setProc, update_of_ne hij] using hp
      refine (h.procs j p hp').mono (?_ : Grows st _)
      exact ⟨fun _ _ h => h, fun _ h => h⟩
  · rename_i db' hcommit
    obtain rfl := commit_eq_error hcommit
    refine h.setProc i ?_
    intro p hp
    obtain ⟨c', hc', rfl⟩ := Option.map_eq_some_iff.mp hp
    unfold Committer.retry at hc'
    split at hc'
    · cases hc'
      exact { hc with txn := by simp }
    · cases hc'
  · rename_i msg db' hcommit
    obtain rfl := commit_eq_error hcommit
    exact h.setProc i (by simp)

/-! ### Every step and every run -/

theorem inv_step {a : Action V} (h : Inv exact env st) (ha : exact → SourcesLive env st a)
    (hs : step env st a = some st') : Inv exact env st' := by
  cases a with
  | alterTableAddColumn name =>
    simp only [step] at hs
    split at hs
    · cases hs
    · cases hs
      have hg : Grows st { st with schema := st.schema ++ [name] } :=
        ⟨fun _ _ h => h, fun c hc => mem_append_left _ hc⟩
      exact h.grow (i := 0) (o := st.procs 0) hg rfl (by simp) rfl rfl
        fun p hp => (h.procs 0 p hp).mono hg
  | submitCompaction i ids | submitBackfill i id src emb =>
    simp only [step] at hs
    split at hs
    · cases hs
      exact h.setProc i (by simp [ProcOk])
    · cases hs
  | list i =>
    simp only [step] at hs
    split at hs
    · cases hs
      exact h.setProc i (h.listCompaction _)
    · cases hs
      exact h.setProc i (h.listBackfill _ _ _)
    · cases hs
  | read i w now =>
    simp only [step] at hs
    split at hs
    · cases hs
    · rename_i hnone
      have hw : st.objects w.extentId = none := by simpa using hnone
      split at hs
      · rename_i schema sources hp
        cases hs
        exact h.readCompaction hw i now (h.procs i _ hp)
      · rename_i schema m src emb hp
        cases hs
        exact h.readBackfill hw i now (h.procs i _ hp)
      · cases hs
  | ingest i writes now =>
    simp only [step] at hs
    split at hs
    · split at hs
      · rename_i hw
        cases hs
        exact h.ingest i hw now
      · cases hs
    · cases hs
  | retention i cutoff =>
    simp only [step] at hs
    split at hs
    · split at hs
      · cases hs
      · cases hs
        refine h.setProc i ?_
        rintro p ⟨⟩
        exact h.retention cutoff
    · cases hs
  | beginSnapshot i =>
    simp only [step] at hs
    split at hs
    · rename_i c hp
      split at hs
      · cases hs
        exact h.beginCommit i (h.procs i _ hp)
      · cases hs
    · cases hs
  | commit i faults d =>
    simp only [step] at hs
    split at hs
    · rename_i c hp
      obtain ⟨txn, htxn, rfl⟩ := Option.map_eq_some_iff.mp hs
      exact h.commit i (h.procs i _ hp) htxn faults d fun hexact => ha hexact _ hp txn htxn
    · cases hs

theorem inv_reach (h : Runs.Reach (step env) (SourcesLive env) (St.init env schema) st) : Inv True env st :=
  h.inv (inv_init schema) fun _ _ _ hi ha hs => inv_step hi (fun _ => ha) hs

theorem Inv.conserved (h : Inv True env st) : Conserved env st := h.exactly trivial

/-- **Rows are conserved while sources last.**  In every run of any number of compaction tasks,
backfills, ingests, retention sweeps and column additions on a table, interleaved in any order, in
which every merge or rewrite that commits on the current snapshot still finds all of its sources
live, every state reached has the rows of the committed ingests, less those that retention
removed. -/
theorem rows_conserved_of_sourcesLive (env : Env V) (schema : List String) {st : St V}
    (h : Runs.Reach (step env) (SourcesLive env) (St.init env schema) st) :
    st.liveRows env + st.retired = st.ingested :=
  (inv_reach h).conserved

/-! ### Two tasks with the same sources -/

def smallEnv : Env String :=
  { backend := .sqlite, jsonbLe := fun _ _ => true, tenant := 0, tableId := 1,
    schemaSnapshotId := 5, isEmbedding := fun c => c = "embedding", isEmptyText := fun s => s = "",
    embed := fun s => s }

def smallWrite (id : ExtentId) : ExtentWriteResult :=
  { extentId := id, objectPath := "", byteSize := 0, minTimestampNanos := none,
    maxTimestampNanos := none, columnStats := .null, presentPaths := [] }

def smallBlock (value : String) : Block String :=
  { fields := ["message"], rows := [fun _ => some value] }

def mergeActions : List (Action String) :=
  [.ingest 0 [(smallWrite 100, [smallBlock "a"]), (smallWrite 101, [smallBlock "b"])] 0,
   .beginSnapshot 0, .commit 0 noFaults ⟨1, 50, 0⟩, .submitCompaction 1 [100, 101],
   .submitCompaction 2 [100, 101], .list 1, .list 2, .read 1 (smallWrite 200) 0,
   .read 2 (smallWrite 201) 0, .beginSnapshot 1, .commit 1 noFaults ⟨2, 51, 0⟩]

/-- One merge keeps the two rows, as the theorem says. -/
theorem rows_conserved_of_one_merge : ∃ st : St String,
      Runs.run (step smallEnv) (SourcesLive smallEnv) (St.init smallEnv ["message"]) mergeActions = some st ∧
      st.liveRows smallEnv + st.retired = st.ingested ∧ (st.liveRows smallEnv).card = 2 := by
  obtain ⟨st, hrun⟩ : ∃ st : St String, Runs.run (step smallEnv) (SourcesLive smallEnv)
      (St.init smallEnv ["message"]) mergeActions = some st := ⟨_, rfl⟩
  refine ⟨st, hrun, rows_conserved_of_sourcesLive smallEnv _ (Runs.reach_of_run hrun), ?_⟩
  cases hrun
  rfl

/-- **Overlapping merges duplicate rows.**  A second task has listed and read the same two extents
before the first one committed; its commit begins on the newest snapshot, adds its own copy, and
removes two extents that are gone already.  Two rows were ingested, and four are live. -/
theorem overlapping_merges_duplicate : ∃ st : St String,
      Runs.Reach (step smallEnv) Runs.Free (St.init smallEnv ["message"]) st ∧
      st.ingested.card = 2 ∧ st.retired = 0 ∧ (st.liveRows smallEnv).card = 4 ∧
      st.liveRows smallEnv + st.retired ≠ st.ingested := by
  obtain ⟨st, hrun⟩ : ∃ st : St String, Runs.run (step smallEnv) Runs.Free (St.init smallEnv ["message"])
      (mergeActions ++ [.beginSnapshot 2, .commit 2 noFaults ⟨3, 52, 0⟩]) = some st := ⟨_, rfl⟩
  have hin : st.ingested.card = 2 := by
    cases hrun
    rfl
  have hret : st.retired = 0 := by
    cases hrun
    rfl
  have hlive : (st.liveRows smallEnv).card = 4 := by
    cases hrun
    rfl
  refine ⟨st, Runs.reach_of_run hrun, hin, hret, hlive, ?_⟩
  intro heq
  have hcard := congrArg Multiset.card heq
  rw [hret, add_zero, hlive, hin] at hcard
  omega

/-- **No row is ever lost**, whatever tasks, backfills, ingests, sweeps and conflicts come together: every row of a committed
ingest is live, unless retention has removed it. -/
theorem rows_never_lost (env : Env V) (schema : List String) {st : St V}
    (h : Runs.Reach (step env) Runs.Free (St.init env schema) st) : st.ingested ≤ st.liveRows env + st.retired :=
  Inv.kept (h.inv (inv_init schema : Inv False env _) fun _ _ _ hi _ hs => inv_step hi False.elim hs)

/-- The two tasks with the same sources. -/
theorem rows_never_lost_overlapping : ∃ st : St String, st.ingested.card = 2 ∧
    st.ingested ≤ st.liveRows smallEnv + st.retired := by
  obtain ⟨st, hrun⟩ : ∃ st : St String, Runs.run (step smallEnv) Runs.Free (St.init smallEnv ["message"])
      (mergeActions ++ [.beginSnapshot 2, .commit 2 noFaults ⟨3, 52, 0⟩]) = some st := ⟨_, rfl⟩
  refine ⟨st, ?_, rows_never_lost smallEnv _ (Runs.reach_of_run hrun)⟩
  cases hrun
  rfl

end Compaction
