/-
**Embeddings in extents.**

A table may declare that the texts of one column are to be embedded into another.  An extent's
statistics tell of an embedding column only whether there are vectors in it: none are recorded when
no row has a vector that is worth normalising, and none when there are more than fifty thousand.
-/

import Pensieve.ColumnStats

namespace Coverage

open List
open Catalog (TenantId norm tiny HasSqrt)
open Tlm (ColumnAcc vecRowCap)

/-! ### Tables and extents -/

structure EmbedConfig where
  sourceColumn : String
  embeddingColumn : String
  modelId : String
  autoEmbed : Bool
  deriving DecidableEq

/-- A table, by its columns, which of them hold vectors of which dimension, and its configs, whose key
is the embedding column. -/
structure Table where
  tenant : TenantId
  columns : List String
  vectorColumns : List (String × ℕ)
  configs : List EmbedConfig
  vector_mem : ∀ c ∈ vectorColumns, c.1 ∈ columns
  config_key : (configs.map EmbedConfig.embeddingColumn).Nodup

def Table.autoConfigs (T : Table) : List EmbedConfig := T.configs.filter EmbedConfig.autoEmbed

variable {F : Type}

/-- A row: its texts and its vectors, `none` for a null. -/
structure Row (F : Type) where
  text : String → Option String
  vec : String → Option (List F)

/-- The blocks of an extent, by their columns of texts and of vectors; a column that they lack is null
in every row. -/
structure Contents (F : Type) where
  columns : List String
  blocks : List (List (Row F))
  lacks : ∀ b ∈ blocks, ∀ r ∈ b, ∀ c, c ∉ columns → r.text c = none ∧ r.vec c = none

def Contents.rows (x : Contents F) : List (Row F) := x.blocks.flatten

section Statistics

variable [Field F] [LinearOrder F] [HasSqrt F]

def cellOf : Option (List F) → Arrow.Value F
  | some v => .vec v
  | none => .null

def cells (c : String) (rows : List (Row F)) : List (Arrow.Value F) := rows.map fun r => cellOf (r.vec c)

/-- `column_stats[c]["vec"]`: the accumulator over all blocks. -/
def Contents.vecStat (x : Contents F) (c : String × ℕ) : Option (Catalog.Json F) :=
  (x.blocks.foldl (fun a b => a.updateVectorStats (cells c.1 b)) (ColumnAcc.new 0 (.vector c.2))).vectorStat

def Significant (v : List F) : Prop := ¬ norm v ≤ tiny

instance (v : List F) : Decidable (Significant v) := inferInstanceAs (Decidable (¬ _))

/-- The rows with a significant vector under `f`. -/
def tally (f : Row F → Option (List F)) (rows : List (Row F)) : ℕ :=
  rows.countP fun r => (f r).any fun v => Significant v

theorem unitRows_vec (v : List F) : (Tlm.unitRows [.vec v]).length = if Significant v then 1 else 0 := by
  by_cases hsig : Significant v
  · have hkeep : decide (¬ norm v ≤ tiny) = true := decide_eq_true hsig
    simp only [Tlm.unitRows, filterMap_cons, filterMap_nil, Tlm.asVec, filter_cons,
      hkeep, if_true, if_pos hsig, filter_nil, map_cons, map_nil, length_cons,
      length_nil]
  · have hdrop : decide (¬ norm v ≤ tiny) = false := decide_eq_false hsig
    simp only [Tlm.unitRows, filterMap_cons, filterMap_nil, Tlm.asVec, filter_cons,
      hdrop, Bool.false_eq_true, if_false, if_neg hsig, filter_nil, map_nil, length_nil]

theorem unitRows_cells (c : String) (rows : List (Row F)) :
    (Tlm.unitRows (cells c rows)).length = tally (·.vec c) rows := by
  induction rows with
  | nil => rfl
  | cons r rows ih =>
    have hsplit : Tlm.unitRows (cells c (r :: rows)) =
        Tlm.unitRows [cellOf (r.vec c)] ++ Tlm.unitRows (cells c rows) := by
      rw [← Tlm.unitRows_append]
      rfl
    rw [hsplit, length_append, ih, tally, tally, countP_cons, Nat.add_comm]
    congr 1
    cases r.vec c with
    | none => rfl
    | some v =>
      rw [show cellOf (some v) = .vec v from rfl, unitRows_vec]
      by_cases hsig : Significant v <;> simp [hsig]

def Capped (a : ColumnAcc F) : Prop := ∀ rows ∈ a.vecRows, rows.length ≤ vecRowCap

theorem Capped.pushVec {a : ColumnAcc F} (h : Capped a) (v : List F) : Capped (a.pushVec v) := by
  unfold ColumnAcc.pushVec
  split
  · exact h
  · dsimp only
    split
    · rename_i rows hrows
      split
      · intro rows' hrows'
        cases hrows'
        rw [length_append, length_singleton]
        omega
      · intro rows' hrows'
        cases hrows'
    · rename_i hnone
      intro rows' hrows'
      rw [show a.vecRows = none from hnone] at hrows'
      cases hrows'

theorem Capped.updateVectorStats {a : ColumnAcc F} (h : Capped a) (cells : List (Arrow.Value F)) :
    Capped (a.updateVectorStats cells) := by
  have hfold : ∀ vs : List (List F), Capped (vs.foldl ColumnAcc.pushVec a) := by
    intro vs
    induction vs generalizing a with
    | nil => exact h
    | cons v vs ih => exact ih (h.pushVec v)
  unfold ColumnAcc.updateVectorStats
  split
  · split
    · exact h
    · exact hfold _
  · exact h

theorem foldl_updateVectorStats {c : String} {dim : ℕ} (blocks : List (List (Row F)))
    {a : ColumnAcc F} {start : List F} {seen : List (Row F)} (hk : a.kind = .vector dim)
    (h : a.VecRecords start (Tlm.unitRows (cells c seen))) (hcap : Capped a) :
    (blocks.foldl (fun a b => a.updateVectorStats (cells c b)) a).VecRecords start
        (Tlm.unitRows (cells c (seen ++ blocks.flatten))) ∧
      Capped (blocks.foldl (fun a b => a.updateVectorStats (cells c b)) a) := by
  induction blocks generalizing a seen with
  | nil => exact ⟨by simpa using h, hcap⟩
  | cons b blocks ih =>
    obtain ⟨-, hkind, hrec⟩ := h.updateVectorStats hk (cells c b)
    rw [foldl_cons, flatten_cons, ← append_assoc]
    refine ih hkind ?_ (hcap.updateVectorStats _)
    unfold cells at hrec ⊢
    rwa [map_append]

theorem vecStat_isSome_iff {x : Contents F} {c : String × ℕ} :
    (x.vecStat c).isSome = true ↔ 0 < tally (·.vec c.1) x.rows ∧ tally (·.vec c.1) x.rows ≤ vecRowCap := by
  have hnew : (ColumnAcc.new 0 (.vector c.2) : ColumnAcc F).VecRecords (List.replicate c.2 0)
      (Tlm.unitRows (cells c.1 [])) := Tlm.records_new 0 (.vector c.2)
  have hcap : Capped (ColumnAcc.new 0 (.vector c.2) : ColumnAcc F) := by
    intro rows hrows
    cases hrows
    exact Nat.zero_le _
  obtain ⟨hrec, hcap'⟩ := foldl_updateVectorStats x.blocks rfl hnew hcap
  rw [nil_append, ← Contents.rows] at hrec
  rw [Contents.vecStat, ← unitRows_cells]
  rcases hrec with ⟨hsum, hmany⟩ | ⟨hsum, hrows, hcount⟩
  · rw [ColumnAcc.vectorStat, hsum]
    simp only [Option.bind_eq_bind, Option.bind_none, Option.isSome_none, Bool.false_eq_true, false_iff]
    omega
  · have hle := hcap' _ hrows
    rw [ColumnAcc.vectorStat, hsum, hrows, hcount]
    simp only [Option.bind_eq_bind, Option.bind_some]
    split
    · simp only [Option.isSome_none, Bool.false_eq_true, false_iff]
      omega
    · simp only [Option.isSome_some, true_iff]
      omega

end Statistics

/-! ### The backfill -/

/-- The backend, with the vectors that are cached of it: `none` for a text that it fails on, or that it
gives a vector of another dimension. -/
structure Embedder (F : Type) where
  id : String
  dim : ℕ
  embed : String → Option (List F)

def wantedText (cfg : EmbedConfig) (r : Row F) : Option String :=
  match r.text cfg.sourceColumn with
  | some t => if t = "" then none else some t
  | none => none

def needed (cfg : EmbedConfig) (r : Row F) : Option String :=
  if (r.vec cfg.embeddingColumn).isSome then none else wantedText cfg r

def fillRow (T : Table) (E : Embedder F) (cfg : EmbedConfig) (r : Row F) : Row F where
  text c := if c ∈ T.columns then r.text c else none
  vec c :=
    if c ∈ T.columns then
      if c = cfg.embeddingColumn then
        match needed cfg r with
        | some t => E.embed t
        | none => r.vec c
      else r.vec c
    else none

def fill (T : Table) (E : Embedder F) (cfg : EmbedConfig) (x : Contents F) : Contents F where
  columns := T.columns
  blocks := x.blocks.map fun b => b.map (fillRow T E cfg)
  lacks := by
    intro b hb r hr c hc
    obtain ⟨b, -, rfl⟩ := mem_map.1 hb
    obtain ⟨r, -, rfl⟩ := mem_map.1 hr
    exact ⟨if_neg hc, if_neg hc⟩

/-- Why the backfill of an extent fails: the embedding column is none of the embedder's dimension, the
source column is not there, or a text cannot be embedded. -/
inductive BackfillError where
  | embeddingColumn
  | sourceColumn
  | embedder
  deriving DecidableEq

/-- `backfill_one`: the new contents, or `none` if no row needs work. -/
def backfillOne (T : Table) (E : Embedder F) (cfg : EmbedConfig) (x : Contents F) :
    Except BackfillError (Option (Contents F)) :=
  if (cfg.embeddingColumn, E.dim) ∉ T.vectorColumns then .error .embeddingColumn
  else if x.blocks ≠ [] ∧ cfg.sourceColumn ∉ x.columns then .error .sourceColumn
  else if x.rows.all (fun r => (needed cfg r).isNone) then .ok none
  else if x.rows.any (fun r => (needed cfg r).any fun t => (E.embed t).isNone) then .error .embedder
  else .ok (some (fill T E cfg x))

/-! ### What is due -/

def due (T : Table) (E : Embedder F) (c : String) (r : Row F) : Option (List F) :=
  match r.vec c with
  | some v => some v
  | none =>
    match T.autoConfigs.find? (·.embeddingColumn = c) with
    | some cfg => (wantedText cfg r).bind E.embed
    | none => none

theorem find?_autoConfigs {T : Table} {cfg : EmbedConfig} (h : cfg ∈ T.autoConfigs) :
    T.autoConfigs.find? (·.embeddingColumn = cfg.embeddingColumn) = some cfg := by
  have hkey : (T.autoConfigs.map EmbedConfig.embeddingColumn).Nodup := T.config_key.sublist (filter_sublist.map _)
  cases hfind : T.autoConfigs.find? (·.embeddingColumn = cfg.embeddingColumn) with
  | none => exact absurd (find?_eq_none.1 hfind cfg h) (by simp)
  | some cfg' =>
    have hname : cfg'.embeddingColumn = cfg.embeddingColumn := by
      simpa using find?_some hfind
    have hmem := mem_of_find?_eq_some hfind
    rw [inj_on_of_nodup_map hkey hmem h hname]

theorem due_of_vec {T : Table} {E : Embedder F} {c : String} {r : Row F} {v : List F}
    (h : r.vec c = some v) : due T E c r = some v := by
  simp [due, h]

theorem due_of_none {T : Table} {E : Embedder F} {cfg : EmbedConfig} (hcfg : cfg ∈ T.autoConfigs)
    {r : Row F} (h : r.vec cfg.embeddingColumn = none) :
    due T E cfg.embeddingColumn r = (wantedText cfg r).bind E.embed := by
  simp [due, h, find?_autoConfigs hcfg]

section Filling

variable {T : Table} {E : Embedder F} {cfg : EmbedConfig}

theorem rows_fill (x : Contents F) : (fill T E cfg x).rows = x.rows.map (fillRow T E cfg) := by
  simp only [Contents.rows, fill, map_flatten]

variable {r : Row F}

theorem mem_rows_fill {x : Contents F} : r ∈ (fill T E cfg x).rows ↔ ∃ r₀ ∈ x.rows, fillRow T E cfg r₀ = r := by
  rw [rows_fill, mem_map]

theorem text_fillRow {c : String} (hc : c ∈ T.columns) : (fillRow T E cfg r).text c = r.text c := if_pos hc

theorem vec_fillRow_of_ne {c : String} (hc : c ∈ T.columns)
    (hne : c ≠ cfg.embeddingColumn) : (fillRow T E cfg r).vec c = r.vec c := by
  simp [fillRow, hc, hne]

theorem vec_fillRow (hcfg : cfg ∈ T.autoConfigs) (hmem : cfg.embeddingColumn ∈ T.columns) (r : Row F) :
    (fillRow T E cfg r).vec cfg.embeddingColumn = due T E cfg.embeddingColumn r := by
  simp only [fillRow, hmem, if_true]
  cases hv : r.vec cfg.embeddingColumn with
  | some v => simp [needed, hv, due_of_vec hv]
  | none =>
    rw [due_of_none hcfg hv]
    simp only [needed, hv, Option.isSome_none, Bool.false_eq_true, if_false]
    cases wantedText cfg r <;> rfl

theorem wantedText_fillRow {cfg' : EmbedConfig} (hsource : cfg'.sourceColumn ∈ T.columns) (r : Row F) :
    wantedText cfg' (fillRow T E cfg r) = wantedText cfg' r := by
  unfold wantedText
  rw [text_fillRow hsource]

theorem due_fillRow {c : String} (hc : c ∈ T.columns) (hcfg : cfg ∈ T.autoConfigs)
    (hsource : ∀ cfg' ∈ T.autoConfigs, cfg'.sourceColumn ∈ T.columns)
    (hembeds : ∀ t ∈ needed cfg r, (E.embed t).isSome = true) : due T E c (fillRow T E cfg r) = due T E c r := by
  by_cases hne : c = cfg.embeddingColumn
  · subst hne
    have hvec : (fillRow T E cfg r).vec cfg.embeddingColumn = due T E cfg.embeddingColumn r := vec_fillRow hcfg hc r
    cases hdue : due T E cfg.embeddingColumn r with
    | some v => exact due_of_vec (hvec.trans hdue)
    | none =>
      -- the row has no text to be embedded
      have hnone : r.vec cfg.embeddingColumn = none := by
        cases hv : r.vec cfg.embeddingColumn with
        | none => rfl
        | some v => rw [due_of_vec hv] at hdue; cases hdue
      have hwanted : wantedText cfg r = none := by
        cases ht : wantedText cfg r with
        | none => rfl
        | some t =>
          have hneeded : needed cfg r = some t := by simp [needed, hnone, ht]
          rw [due_of_none hcfg hnone, ht, Option.bind_some] at hdue
          simpa [hdue] using hembeds t hneeded
      rw [due_of_none hcfg (hvec.trans hdue), wantedText_fillRow (hsource cfg hcfg), hwanted]
      rfl
  · have hvec : (fillRow T E cfg r).vec c = r.vec c := vec_fillRow_of_ne hc hne
    unfold due
    rw [hvec]
    cases r.vec c with
    | some v => rfl
    | none =>
      cases hfind : T.autoConfigs.find? (·.embeddingColumn = c) with
      | none => rfl
      | some cfg' =>
        simp only
        rw [wantedText_fillRow (hsource cfg' (mem_of_find?_eq_some hfind))]

theorem needed_fillRow (hcfg : cfg ∈ T.autoConfigs) (hmem : cfg.embeddingColumn ∈ T.columns)
    (hsource : cfg.sourceColumn ∈ T.columns) (hembeds : ∀ t ∈ needed cfg r, (E.embed t).isSome = true) :
    needed cfg (fillRow T E cfg r) = none := by
  unfold needed
  rw [vec_fillRow hcfg hmem, wantedText_fillRow hsource]
  cases hv : r.vec cfg.embeddingColumn with
  | some v => simp [due_of_vec hv]
  | none =>
    rw [due_of_none hcfg hv]
    cases ht : wantedText cfg r with
    | none => simp
    | some t =>
      have hneeded : needed cfg r = some t := by simp [needed, hv, ht]
      have hsome := hembeds t hneeded
      simp [hsome]

theorem needed_fillRow_of_ne {cfg' : EmbedConfig} (hmem : cfg'.embeddingColumn ∈ T.columns)
    (hsource : cfg'.sourceColumn ∈ T.columns) (hne : cfg'.embeddingColumn ≠ cfg.embeddingColumn)
    (r : Row F) : needed cfg' (fillRow T E cfg r) = needed cfg' r := by
  unfold needed
  rw [vec_fillRow_of_ne hmem hne, wantedText_fillRow hsource]

end Filling

section Fit

variable [Field F] [LinearOrder F] [HasSqrt F]

/-- **What scheduler and backfill can deal with.**  A vector of the extent, or one that its rows are
to get, is significant unless it is zero, and there are no more of them than the statistics take; if
there are rows there is such a vector; an extent with vectors in an embedding column has one in every
row that has a text; and config, columns and texts are such that a backfill goes through. -/
structure Fit (T : Table) (E : Embedder F) (x : Contents F) : Prop where
  significant : ∀ c ∈ T.vectorColumns, ∀ r ∈ x.rows, ∀ v ∈ due T E c.1 r, (∃ a ∈ v, a ≠ 0) → Significant v
  capped : ∀ c ∈ T.vectorColumns, tally (due T E c.1) x.rows ≤ vecRowCap
  exists_vector : ∀ cfg ∈ T.autoConfigs, x.rows ≠ [] → 0 < tally (due T E cfg.embeddingColumn) x.rows
  unmixed : ∀ cfg ∈ T.autoConfigs, 0 < tally (·.vec cfg.embeddingColumn) x.rows → ∀ r ∈ x.rows, needed cfg r = none
  embedding : ∀ cfg ∈ T.autoConfigs, (cfg.embeddingColumn, E.dim) ∈ T.vectorColumns
  source : ∀ cfg ∈ T.autoConfigs, cfg.sourceColumn ∈ T.columns ∧ (x.rows ≠ [] → cfg.sourceColumn ∈ x.columns)
  embeds : ∀ cfg ∈ T.autoConfigs, ∀ r ∈ x.rows, ∀ t ∈ needed cfg r, (E.embed t).isSome = true

theorem tally_congr {f g : Row F → Option (List F)} {rows : List (Row F)}
    (h : ∀ r ∈ rows, f r = g r) : tally f rows = tally g rows :=
  countP_congr fun r hr => by rw [h r hr]

theorem tally_map (f : Row F → Option (List F)) (g : Row F → Row F) (rows : List (Row F)) :
    tally f (rows.map g) = tally (f ∘ g) rows := by
  unfold tally
  rw [countP_map]
  rfl

theorem tally_vec_le (T : Table) (E : Embedder F) (c : String) (rows : List (Row F)) :
    tally (·.vec c) rows ≤ tally (due T E c) rows := by
  refine countP_mono_left fun r _ hr => ?_
  cases hv : r.vec c with
  | none => simp [hv] at hr
  | some v =>
    rw [due_of_vec hv]
    simpa [hv] using hr

variable {T : Table} {E : Embedder F} {cfg : EmbedConfig} {x : Contents F}

theorem Fit.vector_mem (h : Fit T E x) (hcfg : cfg ∈ T.autoConfigs) :
    cfg.embeddingColumn ∈ T.columns := T.vector_mem _ (h.embedding cfg hcfg)

theorem Fit.due_fillRow (h : Fit T E x) (hcfg : cfg ∈ T.autoConfigs) {c : String} (hc : c ∈ T.columns)
    {r : Row F} (hr : r ∈ x.rows) : due T E c (fillRow T E cfg r) = due T E c r :=
  Coverage.due_fillRow hc hcfg (fun cfg' hcfg' => (h.source cfg' hcfg').1) (h.embeds cfg hcfg r hr)

theorem Fit.tally_due_fill (h : Fit T E x) (hcfg : cfg ∈ T.autoConfigs) {c : String}
    (hc : c ∈ T.columns) : tally (due T E c) (fill T E cfg x).rows = tally (due T E c) x.rows := by
  rw [rows_fill, tally_map]
  exact tally_congr fun r hr => h.due_fillRow hcfg hc hr

theorem Fit.tally_vec_fill (h : Fit T E x) (hcfg : cfg ∈ T.autoConfigs) :
    tally (·.vec cfg.embeddingColumn) (fill T E cfg x).rows = tally (due T E cfg.embeddingColumn) x.rows := by
  rw [rows_fill, tally_map]
  exact tally_congr fun r _ => vec_fillRow hcfg (h.vector_mem hcfg) r

theorem tally_vec_fill_of_ne {c : String} (hc : c ∈ T.columns) (hne : c ≠ cfg.embeddingColumn) :
    tally (·.vec c) (fill T E cfg x).rows = tally (·.vec c) x.rows := by
  rw [rows_fill, tally_map]
  exact tally_congr fun r _ => vec_fillRow_of_ne hc hne

theorem Fit.needed_fillRow (h : Fit T E x) (hcfg : cfg ∈ T.autoConfigs) {cfg' : EmbedConfig}
    (hcfg' : cfg' ∈ T.autoConfigs) {r : Row F} (hr : r ∈ x.rows) :
    needed cfg' (fillRow T E cfg r) = none ∨ cfg'.embeddingColumn ≠ cfg.embeddingColumn ∧
        needed cfg' (fillRow T E cfg r) = needed cfg' r := by
  by_cases hne : cfg'.embeddingColumn = cfg.embeddingColumn
  · have heq : cfg' = cfg := by
      have hfind := find?_autoConfigs hcfg'
      rw [hne, find?_autoConfigs hcfg] at hfind
      exact (Option.some.inj hfind).symm
    rw [heq]
    exact .inl (Coverage.needed_fillRow hcfg (h.vector_mem hcfg) (h.source cfg hcfg).1 (h.embeds cfg hcfg r hr))
  · exact .inr ⟨hne, needed_fillRow_of_ne (h.vector_mem hcfg') (h.source cfg' hcfg').1 hne r⟩

theorem Fit.fill (h : Fit T E x) (hcfg : cfg ∈ T.autoConfigs) : Fit T E (fill T E cfg x) where
  significant := by
    intro c hc r hr v hv hne
    obtain ⟨r₀, hr₀, rfl⟩ := mem_rows_fill.1 hr
    rw [h.due_fillRow hcfg (T.vector_mem c hc) hr₀] at hv
    exact h.significant c hc r₀ hr₀ v hv hne
  capped := by
    intro c hc
    rw [h.tally_due_fill hcfg (T.vector_mem c hc)]
    exact h.capped c hc
  exists_vector := by
    intro cfg' hcfg' hrows
    rw [h.tally_due_fill hcfg (h.vector_mem hcfg')]
    refine h.exists_vector cfg' hcfg' fun hnil => hrows ?_
    rw [rows_fill, hnil, map_nil]
  unmixed := by
    intro cfg' hcfg' hpos r hr
    obtain ⟨r₀, hr₀, rfl⟩ := mem_rows_fill.1 hr
    rcases h.needed_fillRow hcfg hcfg' hr₀ with hnone | ⟨hne, heq⟩
    · exact hnone
    · rw [tally_vec_fill_of_ne (h.vector_mem hcfg') hne] at hpos
      rw [heq]
      exact h.unmixed cfg' hcfg' hpos r₀ hr₀
  embedding := h.embedding
  source := fun cfg' hcfg' => ⟨(h.source cfg' hcfg').1, fun _ => (h.source cfg' hcfg').1⟩
  embeds := by
    intro cfg' hcfg' r hr t ht
    obtain ⟨r₀, hr₀, rfl⟩ := mem_rows_fill.1 hr
    rcases h.needed_fillRow hcfg hcfg' hr₀ with hnone | ⟨-, heq⟩
    · rw [hnone] at ht
      cases ht
    · rw [heq] at ht
      exact h.embeds cfg' hcfg' r₀ hr₀ t ht

theorem Fit.isSome_vecStat_iff (h : Fit T E x) {c : String × ℕ} (hc : c ∈ T.vectorColumns) :
    (x.vecStat c).isSome = true ↔ 0 < tally (·.vec c.1) x.rows := by
  rw [vecStat_isSome_iff]
  have hle := tally_vec_le T E c.1 x.rows
  have hcap := h.capped c hc
  exact ⟨fun hstat => hstat.1, fun hpos => ⟨hpos, by omega⟩⟩

theorem Fit.exists_needed (h : Fit T E x) (hcfg : cfg ∈ T.autoConfigs) (hrows : x.rows ≠ [])
    (hstat : (x.vecStat (cfg.embeddingColumn, E.dim)).isSome = false) : ∃ r ∈ x.rows, (needed cfg r).isSome = true := by
  have hzero : tally (·.vec cfg.embeddingColumn) x.rows = 0 := by
    by_contra hpos
    have := (h.isSome_vecStat_iff (h.embedding cfg hcfg)).2 (Nat.pos_of_ne_zero hpos)
    rw [hstat] at this
    cases this
  have hdue := h.exists_vector cfg hcfg hrows
  unfold tally at hdue hzero
  obtain ⟨r, hr, hsig⟩ := countP_pos_iff.1 hdue
  refine ⟨r, hr, ?_⟩
  cases hv : r.vec cfg.embeddingColumn with
  | some v =>
    rw [due_of_vec hv] at hsig
    have hnot : ¬ (r.vec cfg.embeddingColumn).any (fun v => Significant v) = true := countP_eq_zero.1 hzero r hr
    rw [hv] at hnot
    exact absurd hsig hnot
  | none =>
    rw [due_of_none hcfg hv] at hsig
    cases ht : wantedText cfg r with
    | none =>
      rw [ht] at hsig
      cases hsig
    | some t => simp [needed, hv, ht]

/-- **The backfill of fit contents**: it writes them again exactly when they have rows and no
statistics, and otherwise finds nothing to do. -/
theorem Fit.backfillOne_eq (h : Fit T E x) (hcfg : cfg ∈ T.autoConfigs) (hrows : x.rows ≠ []) : backfillOne T E cfg x =
      if (x.vecStat (cfg.embeddingColumn, E.dim)).isSome then .ok none
      else .ok (some (Coverage.fill T E cfg x)) := by
  have hcolumn : ¬ (cfg.embeddingColumn, E.dim) ∉ T.vectorColumns := not_not.2 (h.embedding cfg hcfg)
  have hsource : ¬ (x.blocks ≠ [] ∧ cfg.sourceColumn ∉ x.columns) := fun hnot =>
    hnot.2 ((h.source cfg hcfg).2 hrows)
  have hembeds : ¬ x.rows.any (fun r => (needed cfg r).any fun t => (E.embed t).isNone) = true := by
    intro hany
    obtain ⟨r, hr, hnone⟩ := any_eq_true.1 hany
    cases ht : needed cfg r with
    | none => simp [ht] at hnone
    | some t =>
      have hsome := h.embeds cfg hcfg r hr t ht
      rw [ht, Option.any_some, Option.isNone_iff_eq_none] at hnone
      rw [hnone] at hsome
      cases hsome
  rw [backfillOne, if_neg hcolumn, if_neg hsource, if_neg hembeds]
  cases hstat : (x.vecStat (cfg.embeddingColumn, E.dim)).isSome with
  | true =>
    have hpos := (h.isSome_vecStat_iff (h.embedding cfg hcfg)).1 hstat
    have hall : x.rows.all (fun r => (needed cfg r).isNone) = true := by
      rw [all_eq_true]
      intro r hr
      rw [h.unmixed cfg hcfg hpos r hr]
      rfl
    rw [if_pos hall]
    rfl
  | false =>
    obtain ⟨r, hr, hneeds⟩ := h.exists_needed hcfg hrows hstat
    have hall : ¬ x.rows.all (fun r => (needed cfg r).isNone) = true := by
      intro hall
      have := all_eq_true.1 hall r hr
      rw [Option.isNone_iff_eq_none] at this
      rw [this] at hneeds
      cases hneeds
    rw [if_neg hall]
    rfl

end Fit

end Coverage
