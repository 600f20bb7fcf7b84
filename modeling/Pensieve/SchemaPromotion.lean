/-
**Promoting batches to a later schema.**

An extent keeps the columns that its table had when it was written.  The query path promotes every
batch it reads to the table's schema of today: columns are matched by name, and a column that the
extent does not have is filled with nulls.
-/

import Mathlib.Data.List.GetD
import Pensieve.SchemaJson

namespace TableSchema

open List
open Catalog (Json TenantId TableId Uuid)

/-! ### How the schema of a table grows -/

def Schema.Extends (schema schema' : Schema) : Prop :=
  ∃ added : Schema, schema' = schema ++ added ∧ (∀ f ∈ added, f.isNullable = true ∧ f.name ∉ schema.names) ∧
    added.names.Nodup

theorem Schema.Extends.refl (schema : Schema) : schema.Extends schema :=
  ⟨[], (append_nil schema).symm, fun _ hf => absurd hf not_mem_nil, nodup_nil⟩

theorem Schema.Extends.trans {s₀ s₁ s₂ : Schema} (h : s₀.Extends s₁) (h' : s₁.Extends s₂) : s₀.Extends s₂ := by
  obtain ⟨a, rfl, hnew, hnodup⟩ := h
  obtain ⟨b, rfl, hnew', hnodup'⟩ := h'
  refine ⟨a ++ b, append_assoc _ _ _, fun f hf => ?_, ?_⟩
  · rcases mem_append.1 hf with hf | hf
    · exact hnew f hf
    · refine ⟨(hnew' f hf).1, fun hmem => (hnew' f hf).2 ?_⟩
      rw [Schema.names, map_append]
      exact mem_append_left _ hmem
  · rw [Schema.names, map_append, nodup_append]
    refine ⟨hnodup, hnodup', ?_⟩
    rintro n hn n' hn' rfl
    obtain ⟨f, hf, rfl⟩ := mem_map.1 hn'
    refine (hnew' f hf).2 ?_
    rw [Schema.names, map_append]
    exact mem_append_right _ hn

theorem Schema.Extends.eq_of_name_eq {s₀ s₁ s₂ : Schema} (h : s₀.Extends s₁) (h' : s₁.Extends s₂) {f g : Field}
    (hf : f ∈ s₁) (hg : g ∈ s₂) (hname : f.name = g.name) (hnew : f.name ∉ s₀.names) : f = g := by
  obtain ⟨a, rfl, -, hnodup⟩ := h
  obtain ⟨b, rfl, hnew', -⟩ := h'
  have hadded : ∀ k ∈ s₀ ++ a, k.name = f.name → k ∈ a := by
    intro k hk hkname
    refine (mem_append.1 hk).resolve_left fun hmem => hnew ?_
    exact hkname ▸ mem_map_of_mem hmem
  have hgmem : g ∈ s₀ ++ a := by
    refine (mem_append.1 hg).resolve_right fun hmem => (hnew' g hmem).2 ?_
    exact hname ▸ mem_map_of_mem hf
  exact inj_on_of_nodup_map hnodup (hadded f hf rfl) (hadded g hgmem hname.symm) hname

theorem Schema.Extends.append {schema : Schema} {name : String} (t : DataType) (h : name ∉ schema.names) :
    schema.Extends (schema ++ [.new name t true]) := by
  refine ⟨[.new name t true], rfl, fun f hf => ?_, nodup_singleton _⟩
  rw [mem_singleton.1 hf]
  exact ⟨rfl, h⟩

variable {F : Type} {c c' : SqliteCatalog F} {debug : DataType → String} {id : TableId} {schema schema' : Schema}

def tableSchema (c : SqliteCatalog F) (id : TableId) : Option Schema :=
  (c.tables.find? fun t => t.id = id).bind fun t =>
    (c.schemaSnapshot t).bind fun ss => (jsonToSchema ss.arrowSchema).toOption

theorem Inv.tableSchema_eq_some (h : Inv c) :
    tableSchema c id = some schema ↔ ∃ t ∈ c.tables, t.id = id ∧ ∃ ss ∈ c.schemaSnapshots,
      t.schemaSnapshotId = some ss.id ∧ ss.tableId = id ∧ jsonToSchema ss.arrowSchema = .ok schema := by
  constructor
  · intro hschema
    obtain ⟨t, hfind, hschema⟩ := Option.bind_eq_some_iff.1 hschema
    obtain ⟨ss, hsnap, hschema⟩ := Option.bind_eq_some_iff.1 hschema
    have ht : t ∈ c.tables := mem_of_find?_eq_some hfind
    have hid : t.id = id := by simpa using find?_some hfind
    obtain ⟨ss', hss', hpoint, htable⟩ := h.pointed t ht
    have heq : ss' = ss := Option.some.inj ((h.schemaSnapshot_eq_some hss' hpoint).symm.trans hsnap)
    subst heq
    exact ⟨t, ht, hid, ss', hss', hpoint, htable.trans hid, toOption_eq_some.1 hschema⟩
  · rintro ⟨t, ht, rfl, ss, hss, hpoint, -, hschema⟩
    have hfind : c.tables.find? (fun q => q.id = t.id) = some t := by
      refine Rows.find?_eq_some_of_unique ht (decide_eq_true rfl) fun q hq hid => ?_
      exact Rows.eq_of_key_eq h.tableIdsNodup hq ht (of_decide_eq_true hid)
    unfold tableSchema
    rw [hfind, Option.bind_some, h.schemaSnapshot_eq_some hss hpoint, Option.bind_some, hschema]
    rfl

def Gone (c : SqliteCatalog F) (id : TableId) : Prop := (∀ t ∈ c.tables, t.id ≠ id) ∧ id < c.nextId

theorem Gone.step {a : Call} (h : Gone c id) (hstep : step debug c a = some c') : Gone c' id := by
  obtain ⟨hgone, hlt⟩ := h
  cases a with
  | createDatabase tenant name =>
    have hout := toOption_eq_some.1 hstep
    unfold SqliteCatalog.createDatabase at hout
    split at hout
    · cases hout
    · cases hout
      exact ⟨hgone, Nat.lt_succ_of_lt hlt⟩
  | createTable tenant databaseId name schema =>
    obtain ⟨⟨id', out⟩, hout, rfl⟩ := Option.map_eq_some_iff.1 hstep
    obtain ⟨-, -, -, rfl⟩ := createTable_eq_ok (toOption_eq_some.1 hout)
    refine ⟨fun t ht => ?_, Nat.lt_add_right 3 hlt⟩
    rcases mem_append.1 ht with ht | ht
    · exact hgone t ht
    · rw [mem_singleton.1 ht]
      exact Nat.ne_of_gt hlt
  | alterTableAddColumn tableId columnName columnType =>
    obtain ⟨⟨id', out⟩, hout, rfl⟩ := Option.map_eq_some_iff.1 hstep
    obtain ⟨q, -, -, s, -, -, dataType, json', -, -, rfl⟩ := alterTableAddColumn_eq_ok (toOption_eq_some.1 hout)
    refine ⟨fun t ht => ?_, Nat.lt_succ_of_lt hlt⟩
    obtain ⟨r, hr, rfl⟩ := mem_map.1 ht
    split
    · exact hgone r hr
    · exact hgone r hr
  | dropTable tenant database name =>
    cases hstep
    rcases dropTable_cases c tenant database name with heq | ⟨q, hq, -, heq⟩
    · rw [heq]
      exact ⟨hgone, hlt⟩
    · rw [heq]
      exact ⟨fun t ht => hgone t (mem_of_mem_filter ht), hlt⟩

theorem extends_step {a : Call} (h : Inv c) (hschema : tableSchema c id = some schema)
    (hstep : step debug c a = some c') :
    (∃ schema', tableSchema c' id = some schema' ∧ schema.Extends schema') ∨ Gone c' id := by
  have hinv' : Inv c' := inv_step h hstep
  obtain ⟨t, ht, hid, ss, hss, hpoint, htable, hread⟩ := h.tableSchema_eq_some.1 hschema
  cases a with
  | createDatabase tenant name =>
    have hout := toOption_eq_some.1 hstep
    unfold SqliteCatalog.createDatabase at hout
    split at hout
    · cases hout
    · cases hout
      exact .inl ⟨schema, hinv'.tableSchema_eq_some.2 ⟨t, ht, hid, ss, hss, hpoint, htable, hread⟩, .refl schema⟩
  | createTable tenant databaseId name other =>
    obtain ⟨⟨id', out⟩, hout, rfl⟩ := Option.map_eq_some_iff.1 hstep
    obtain ⟨-, -, -, rfl⟩ := createTable_eq_ok (toOption_eq_some.1 hout)
    exact .inl ⟨schema, hinv'.tableSchema_eq_some.2 ⟨t, mem_append_left _ ht, hid, ss,
      mem_append_left _ hss, hpoint, htable, hread⟩, .refl schema⟩
  | alterTableAddColumn tableId columnName columnType =>
    obtain ⟨⟨id', out⟩, hout, rfl⟩ := Option.map_eq_some_iff.1 hstep
    obtain ⟨q, hq, hqid, s, hs, hqpoint, dataType, json', htype, hadd, rfl⟩ :=
      alterTableAddColumn_eq_ok (toOption_eq_some.1 hout)
    by_cases hself : tableId = id
    · -- the table's own schema: the new snapshot is the old one with a column more
      have hqt : q = t := Rows.eq_of_key_eq h.tableIdsNodup hq ht (by rw [hqid, hself, hid])
      subst hqt
      have hsss : s = ss := Rows.eq_of_key_eq h.snapshotIdsNodup hs hss
        (Option.some.inj (hqpoint.symm.trans hpoint))
      subst hsss
      obtain ⟨hnew, hread'⟩ := jsonToSchema_addColumn hread hadd htype
      refine .inl ⟨_, hinv'.tableSchema_eq_some.2 ⟨{ q with schemaSnapshotId := some c.nextId }, ?_, hid,
        ⟨c.nextId, q.tenantId, tableId, json'⟩, mem_append_right _ (mem_singleton_self _), rfl, hself, hread'⟩,
        .append dataType hnew⟩
      exact mem_map.2 ⟨q, hq, if_pos ⟨hqid, rfl⟩⟩
    · have hkeep : ¬(t.id = tableId ∧ t.schemaSnapshotId = q.schemaSnapshotId) := fun hchange =>
        hself (hchange.1.symm.trans hid)
      exact .inl ⟨schema, hinv'.tableSchema_eq_some.2 ⟨t, mem_map.2 ⟨t, ht, if_neg hkeep⟩, hid, ss,
        mem_append_left _ hss, hpoint, htable, hread⟩, .refl schema⟩
  | dropTable tenant database name =>
    cases hstep
    rcases dropTable_cases c tenant database name with heq | ⟨q, hq, -, heq⟩
    · rw [heq]
      exact .inl ⟨schema, hschema, .refl schema⟩
    · rw [heq] at hinv' ⊢
      by_cases hself : q.id = id
      · refine .inr ⟨fun r hr => ?_, hid ▸ h.tableIds t ht⟩
        rw [← hself]
        exact of_decide_eq_true (mem_filter.1 hr).2
      · refine .inl ⟨schema, hinv'.tableSchema_eq_some.2 ⟨t, mem_filter.2 ⟨ht, ?_⟩, hid, ss,
          mem_filter.2 ⟨hss, ?_⟩, hpoint, htable, hread⟩, .refl schema⟩
        · exact decide_eq_true (hid ▸ fun heq' => hself heq'.symm)
        · exact decide_eq_true (htable ▸ fun heq' => hself heq'.symm)

theorem extends_of_reach (h : Inv c) (hschema : tableSchema c id = some schema)
    (hrun : Runs.Reach (step debug) Runs.Free c c') (hschema' : tableSchema c' id = some schema') :
    schema.Extends schema' := by
  have hkept := hrun.inv (I := fun c' => Inv c' ∧
      ((∃ schema', tableSchema c' id = some schema' ∧ schema.Extends schema') ∨ Gone c' id))
    ⟨h, .inl ⟨schema, hschema, .refl schema⟩⟩ fun s a s' hs _ hstep => by
      refine ⟨inv_step hs.1 hstep, ?_⟩
      rcases hs.2 with ⟨middle, hmiddle, hext⟩ | hgone
      · rcases extends_step hs.1 hmiddle hstep with ⟨last, hlast, hext'⟩ | hgone
        · exact .inl ⟨last, hlast, hext.trans hext'⟩
        · exact .inr hgone
      · exact .inr (hgone.step hstep)
  obtain ⟨hinv', ⟨last, hlast, hext⟩ | hgone⟩ := hkept
  · rw [hschema'] at hlast
    cases hlast
    exact hext
  · obtain ⟨t, ht, hid, -⟩ := hinv'.tableSchema_eq_some.1 hschema'
    exact absurd hid (hgone.1 t ht)

/-! ### Batches -/

/-- An Arrow array over the values `V`. -/
structure ArrayRef (V : Type) where
  dataType : DataType
  values : List (Option V)
  deriving DecidableEq

variable {V : Type}

def newNullArray (dataType : DataType) (length : ℕ) : ArrayRef V := ⟨dataType, List.replicate length none⟩

structure RecordBatch (V : Type) where
  schema : Schema
  columns : List (ArrayRef V)
  numRows : ℕ
  width : columns.length = schema.length
  height : ∀ a ∈ columns, a.values.length = numRows
  typed : ∀ p ∈ schema.zip columns, p.2.dataType = p.1.dataType
  nonNull : ∀ p ∈ schema.zip columns, p.1.isNullable = false → p.2.values.any Option.isNone = false

inductive ArrowError where
  | columnCount (columns fields : ℕ)
  | noRowCount
  | nullInNonNullable
  | unequalLengths
  | typeMismatch
  deriving DecidableEq

namespace RecordBatch

/-- `RecordBatch::try_new`: without a column there is no row count. -/
def tryNew (schema : Schema) (columns : List (ArrayRef V)) : Except ArrowError (RecordBatch V) :=
  if hwidth : columns.length ≠ schema.length then .error (.columnCount columns.length schema.length)
  else match columns.head? with
    | none => .error .noRowCount
    | some first =>
      if hnull : ∃ p ∈ schema.zip columns, p.1.isNullable = false ∧ p.2.values.any Option.isNone = true then
        .error .nullInNonNullable
      else if hheight : ∃ a ∈ columns, a.values.length ≠ first.values.length then .error .unequalLengths
      else if htyped : ∃ p ∈ schema.zip columns, p.2.dataType ≠ p.1.dataType then .error .typeMismatch
      else .ok ⟨schema, columns, first.values.length, not_not.1 hwidth,
        fun a ha => not_not.1 fun hne => hheight ⟨a, ha, hne⟩,
        fun p hp => not_not.1 fun hne => htyped ⟨p, hp, hne⟩,
        fun p hp hnon => Bool.eq_false_iff.2 fun hany => hnull ⟨p, hp, hnon, hany⟩⟩

def column (b : RecordBatch V) (i : ℕ) : ArrayRef V := b.columns.getD i (newNullArray .null b.numRows)

variable {b b' : RecordBatch V}

theorem ext (hschema : b.schema = b'.schema) (hcolumns : b.columns = b'.columns) (hrows : b.numRows = b'.numRows) :
    b = b' := by
  cases b
  cases b'
  cases hschema
  cases hcolumns
  cases hrows
  rfl

theorem ext_of_ne_nil (hschema : b.schema = b'.schema) (hcolumns : b.columns = b'.columns) (hne : b.schema ≠ []) :
    b = b' := by
  refine ext hschema hcolumns ?_
  have hne' : b.columns ≠ [] := fun h => hne (eq_nil_of_length_eq_zero (by rw [← b.width, h]; rfl))
  obtain ⟨a, rest, hcons⟩ := exists_cons_of_ne_nil hne'
  have ha : a ∈ b.columns := by
    rw [hcons]
    exact mem_cons_self
  rw [← b.height a ha, ← b'.height a (hcolumns ▸ ha)]

theorem tryNew_eq_ok {schema : Schema} {columns : List (ArrayRef V)} :
    tryNew schema columns = .ok b ↔ b.schema = schema ∧ b.columns = columns ∧ schema ≠ [] := by
  unfold tryNew
  constructor
  · intro h
    split at h
    · cases h
    next hwidth =>
      split at h
      next => cases h
      next first hfirst =>
        split_ifs at h
        cases h
        refine ⟨rfl, rfl, ?_⟩
        rintro rfl
        rw [eq_nil_of_length_eq_zero (not_not.1 hwidth)] at hfirst
        cases hfirst
  · rintro ⟨rfl, rfl, hne⟩
    rw [dif_neg (not_not.2 b.width)]
    split
    next hnil => exact absurd (eq_nil_of_length_eq_zero (by rw [← b.width, head?_eq_none_iff.1 hnil]; rfl)) hne
    next first hhead =>
      have hfirst : first.values.length = b.numRows := b.height first (mem_of_head? hhead)
      rw [dif_neg, dif_neg, dif_neg]
      · exact congrArg Except.ok (ext_of_ne_nil rfl rfl hne)
      · rintro ⟨p, hp, hne⟩
        exact hne (b.typed p hp)
      · rintro ⟨a, ha, hne⟩
        exact hne ((b.height a ha).trans hfirst.symm)
      · rintro ⟨p, hp, hnon, hany⟩
        rw [b.nonNull p hp hnon] at hany
        cases hany

end RecordBatch

/-- `Schema::index_of`: the first column of the name. -/
def indexOf (schema : Schema) (name : String) : Option ℕ := schema.findIdx? fun f => f.name = name

/-! ### The two promotions -/

namespace Exec

inductive PromoteError where
  | typeMismatch (column : String) (extent table : DataType)
  | arrow (e : ArrowError)

def promoteColumn (batch : RecordBatch V) (targetField : Field) : Except PromoteError (ArrayRef V) :=
  match indexOf batch.schema targetField.name with
  | some idx =>
    let a := batch.column idx
    if a.dataType ≠ targetField.dataType then
      .error (.typeMismatch targetField.name a.dataType targetField.dataType)
    else .ok a
  | none => .ok (newNullArray targetField.dataType batch.numRows)

/-- `promote_batch` of the query path. -/
def promoteBatch (batch : RecordBatch V) (target : Schema) : Except PromoteError (RecordBatch V) := do
  let arrays ← target.mapM (promoteColumn batch)
  (RecordBatch.tryNew target arrays).mapError .arrow

end Exec

namespace Compaction

def promoteColumn (batch : RecordBatch V) (f : Field) : ArrayRef V :=
  match indexOf batch.schema f.name with
  | some i => batch.column i
  | none => newNullArray f.dataType batch.numRows

/-- `promote_batch` of compaction: a batch that has the columns of the table already is returned as it is. -/
def promoteBatch (batch : RecordBatch V) (target : Schema) : Except ArrowError (RecordBatch V) :=
  if batch.schema = target then .ok batch
  else RecordBatch.tryNew target (target.map (promoteColumn batch))

end Compaction

section Promotion

variable {b b' b₁ b₂ : RecordBatch V} {target s₁ s₂ : Schema}

theorem mem_zip_map {A B : Type} {g : A → B} {l : List A} {a : A} (h : a ∈ l) : (a, g a) ∈ l.zip (l.map g) := by
  induction l with
  | nil => cases h
  | cons x l ih =>
    rcases mem_cons.1 h with rfl | h
    · exact mem_cons_self
    · exact mem_cons_of_mem _ (ih h)

theorem mem_zip_map_iff {A B : Type} {g : A → B} {l : List A} {p : A × B} :
    p ∈ l.zip (l.map g) ↔ p.1 ∈ l ∧ p.2 = g p.1 := by
  constructor
  · intro h
    induction l with
    | nil => cases h
    | cons x l ih =>
      rcases mem_cons.1 h with rfl | h
      · exact ⟨mem_cons_self, rfl⟩
      · exact ⟨mem_cons_of_mem _ (ih h).1, (ih h).2⟩
  · rintro ⟨hmem, heq⟩
    have hpair : p = (p.1, g p.1) := Prod.ext rfl heq
    rw [hpair]
    exact mem_zip_map hmem

theorem Exec.promoteColumn_eq_ok {f : Field} {a : ArrayRef V} : Exec.promoteColumn b f = .ok a ↔
      a = Compaction.promoteColumn b f ∧ (Compaction.promoteColumn b f).dataType = f.dataType := by
  unfold Exec.promoteColumn Compaction.promoteColumn
  split
  next i _ =>
    dsimp only
    split
    next hne => exact ⟨nofun, fun h => absurd h.2 hne⟩
    next heq =>
      rw [Except.ok.injEq]
      exact ⟨fun h => ⟨h.symm, not_not.1 heq⟩, fun h => h.1.symm⟩
  next =>
    rw [Except.ok.injEq]
    exact ⟨fun h => ⟨h.symm, rfl⟩, fun h => h.1.symm⟩

theorem Exec.promoteBatch_eq_ok : Exec.promoteBatch b target = .ok b' ↔
      b'.schema = target ∧ b'.columns = target.map (Compaction.promoteColumn b) ∧ target ≠ [] := by
  unfold Exec.promoteBatch
  rw [Fallible.bind_eq_ok]
  constructor
  · rintro ⟨arrays, harrays, hnew⟩
    have hcolumns : arrays = target.map (Compaction.promoteColumn b) := by
      rw [Fallible.mapM_eq_ok_iff] at harrays
      clear hnew
      induction harrays with
      | nil => rfl
      | cons hhead _ ih => rw [map_cons, (Exec.promoteColumn_eq_ok.1 hhead).1, ih]
    cases htry : RecordBatch.tryNew target arrays with
    | error e =>
      rw [htry] at hnew
      cases hnew
    | ok out =>
      rw [htry] at hnew
      cases hnew
      rw [← hcolumns]
      exact RecordBatch.tryNew_eq_ok.1 htry
  · rintro ⟨hschema, hcolumns, hne⟩
    refine ⟨b'.columns, ?_, ?_⟩
    · rw [Fallible.mapM_eq_ok_iff, hcolumns, forall₂_map_right_iff, forall₂_same]
      intro f hf
      refine Exec.promoteColumn_eq_ok.2 ⟨rfl, ?_⟩
      exact b'.typed (f, Compaction.promoteColumn b f) (by rw [hschema, hcolumns]; exact mem_zip_map hf)
    · rw [RecordBatch.tryNew_eq_ok.2 ⟨hschema, rfl, hne⟩]
      rfl

theorem Compaction.promoteBatch_eq_ok (h : b.schema ≠ target) : Compaction.promoteBatch b target = .ok b' ↔
      b'.schema = target ∧ b'.columns = target.map (Compaction.promoteColumn b) ∧ target ≠ [] := by
  unfold Compaction.promoteBatch
  rw [if_neg h]
  exact RecordBatch.tryNew_eq_ok

/-! ### Columns by name -/

theorem indexOf_eq_none {schema : Schema} {name : String} : indexOf schema name = none ↔ name ∉ schema.names := by
  unfold indexOf
  rw [findIdx?_eq_none_iff]
  constructor
  · rintro h hmem
    obtain ⟨f, hf, rfl⟩ := mem_map.1 hmem
    simpa using h f hf
  · intro h f hf
    exact decide_eq_false fun heq => h (mem_map.2 ⟨f, hf, heq⟩)

theorem indexOf_eq_some {schema : Schema} {name : String} {i : ℕ} (h : indexOf schema name = some i) :
    ∃ hi : i < schema.length, schema[i].name = name := by
  obtain ⟨hi, hname, -⟩ := findIdx?_eq_some_iff_getElem.1 h
  exact ⟨hi, of_decide_eq_true hname⟩

theorem promoteColumn_congr {f g : Field} (hname : f.name = g.name)
    (htype : f.name ∉ b.schema.names → f.dataType = g.dataType) :
    Compaction.promoteColumn b f = Compaction.promoteColumn b g := by
  unfold Compaction.promoteColumn
  rw [hname]
  split
  · rfl
  next hnone => rw [htype (hname ▸ indexOf_eq_none.1 hnone)]

theorem length_promoteColumn (b : RecordBatch V) (f : Field) :
    (Compaction.promoteColumn b f).values.length = b.numRows := by
  unfold Compaction.promoteColumn
  split
  next i hindex =>
    have hi : i < b.columns.length := b.width ▸ (indexOf_eq_some hindex).1
    show (b.columns.getD i _).values.length = _
    rw [getD_eq_getElem _ _ hi]
    exact b.height _ (getElem_mem hi)
  next => exact length_replicate

theorem numRows_eq (hcolumns : b₁.columns = target.map (Compaction.promoteColumn b)) (hne : target ≠ []) :
    b₁.numRows = b.numRows := by
  obtain ⟨f, rest, hcons⟩ := exists_cons_of_ne_nil hne
  have hmem : Compaction.promoteColumn b f ∈ b₁.columns := by
    rw [hcolumns, hcons]
    exact mem_cons_self
  rw [← b₁.height _ hmem]
  exact length_promoteColumn b f

theorem promoteColumn_promoted (hcolumns : b₁.columns = s₁.map (Compaction.promoteColumn b)) (hschema : b₁.schema = s₁)
    (hrows : b₁.numRows = b.numRows) (h₁ : b.schema.Extends s₁) (h₂ : s₁.Extends s₂) {f : Field} (hf : f ∈ s₂) :
    Compaction.promoteColumn b₁ f = Compaction.promoteColumn b f := by
  cases hindex : indexOf s₁ f.name with
  | none =>
    have hold : indexOf b.schema f.name = none := by
      rw [indexOf_eq_none] at hindex ⊢
      obtain ⟨added, rfl, -⟩ := h₁
      exact fun hmem => hindex (by rw [Schema.names, map_append]; exact mem_append_left _ hmem)
    unfold Compaction.promoteColumn
    rw [hschema, hindex, hold, hrows]
  | some i =>
    obtain ⟨hi, hname⟩ := indexOf_eq_some hindex
    have hcolumn : Compaction.promoteColumn b₁ f = Compaction.promoteColumn b s₁[i] := by
      unfold Compaction.promoteColumn
      rw [hschema, hindex]
      show b₁.columns.getD i _ = _
      rw [hcolumns, getD_eq_getElem _ _ (by simpa using hi), getElem_map]
      rfl
    rw [hcolumn]
    refine promoteColumn_congr hname fun hnew => ?_
    exact congrArg Field.dataType (h₁.eq_of_name_eq h₂ (getElem_mem hi) hf hname hnew)

/-! ### Promotion in two steps -/

theorem promoteBatch_promoteBatch (h₁ : b.schema.Extends s₁) (h₂ : s₁.Extends s₂) :
    (∃ b₁, Compaction.promoteBatch b s₁ = .ok b₁ ∧ Exec.promoteBatch b₁ s₂ = .ok b₂) ↔
      Exec.promoteBatch b s₂ = .ok b₂ := by
  by_cases hsame : b.schema = s₁
  · -- compaction returns the batch as it is
    have hself : Compaction.promoteBatch b s₁ = .ok b := if_pos hsame
    constructor
    · rintro ⟨b₁, hb₁, hb₂⟩
      rw [hself] at hb₁
      cases hb₁
      exact hb₂
    · exact fun hb₂ => ⟨b, hself, hb₂⟩
  · constructor
    · rintro ⟨b₁, hb₁, hb₂⟩
      obtain ⟨hschema, hcolumns, hne⟩ := (Compaction.promoteBatch_eq_ok hsame).1 hb₁
      obtain ⟨hschema₂, hcolumns₂, hne₂⟩ := Exec.promoteBatch_eq_ok.1 hb₂
      refine Exec.promoteBatch_eq_ok.2 ⟨hschema₂, ?_, hne₂⟩
      rw [hcolumns₂]
      refine map_congr_left fun f hf => ?_
      exact promoteColumn_promoted hcolumns hschema (numRows_eq hcolumns hne) h₁ h₂ hf
    · intro hb₂
      obtain ⟨hschema₂, hcolumns₂, hne₂⟩ := Exec.promoteBatch_eq_ok.1 hb₂
      have hsub : ∀ f ∈ s₁, (f, Compaction.promoteColumn b f) ∈ b₂.schema.zip b₂.columns := by
        intro f hf
        obtain ⟨added, rfl, -⟩ := h₂
        rw [hschema₂, hcolumns₂]
        exact mem_zip_map (mem_append_left _ hf)
      have hne₁ : s₁ ≠ [] := by
        rintro rfl
        obtain ⟨added, happend, -⟩ := h₁
        exact hsame (append_eq_nil_iff.1 happend.symm).1
      -- the batch in between is a part of the last one
      obtain ⟨b₁, hb₁⟩ : ∃ b₁ : RecordBatch V, b₁.schema = s₁ ∧ b₁.columns = s₁.map (Compaction.promoteColumn b) :=
        ⟨⟨s₁, s₁.map (Compaction.promoteColumn b), b.numRows, length_map _, fun a ha => by
            obtain ⟨f, -, rfl⟩ := mem_map.1 ha
            exact length_promoteColumn b f,
          fun p hp => by
            obtain ⟨hf, heq⟩ := mem_zip_map_iff.1 hp
            rw [heq]
            exact b₂.typed _ (hsub p.1 hf),
          fun p hp => by
            obtain ⟨hf, heq⟩ := mem_zip_map_iff.1 hp
            rw [heq]
            exact b₂.nonNull _ (hsub p.1 hf)⟩, rfl, rfl⟩
      refine ⟨b₁, (Compaction.promoteBatch_eq_ok hsame).2 ⟨hb₁.1, hb₁.2, hne₁⟩, ?_⟩
      refine Exec.promoteBatch_eq_ok.2 ⟨hschema₂, ?_, hne₂⟩
      rw [hcolumns₂]
      refine (map_congr_left fun f hf => ?_).symm
      exact promoteColumn_promoted hb₁.2 hb₁.1 (numRows_eq hb₁.2 hne₁) h₁ h₂ hf

theorem map_promoteColumn_schema (b : RecordBatch V) (hdistinct : b.schema.names.Nodup) :
    b.schema.map (Compaction.promoteColumn b) = b.columns := by
  refine ext_getElem ((length_map _).trans b.width.symm) fun i hi hi' => ?_
  rw [length_map] at hi
  have hindex : indexOf b.schema b.schema[i].name = some i := by
    refine findIdx?_eq_some_iff_getElem.2 ⟨hi, decide_eq_true rfl, fun j hj heq => ?_⟩
    have hname : b.schema[j].name = b.schema[i].name := of_decide_eq_true heq
    have hlt : j < b.schema.length := hj.trans hi
    have hnames : b.schema.names[j]? = b.schema.names[i]? := by
      simpa [Schema.names, getElem?_eq_getElem hlt, getElem?_eq_getElem hi] using hname
    exact absurd ((getElem?_inj (by simpa [Schema.names] using hlt) hdistinct).1 hnames) (Nat.ne_of_lt hj)
  rw [getElem_map]
  unfold Compaction.promoteColumn
  rw [hindex]
  exact getD_eq_getElem _ _ hi'

theorem promoteBatch_of_distinct (b : RecordBatch V) (hdistinct : b.schema.names.Nodup) (h : b.schema.Extends target)
    (hne : target ≠ []) :
    ∃ b' added, Exec.promoteBatch b target = .ok b' ∧ target = b.schema ++ added ∧ b'.schema = target ∧
      b'.numRows = b.numRows ∧ b'.columns = b.columns ++ added.map fun f => newNullArray f.dataType b.numRows := by
  obtain ⟨added, rfl, hnew, -⟩ := h
  have hnull : ∀ f ∈ added, Compaction.promoteColumn b f = newNullArray f.dataType b.numRows := by
    intro f hf
    unfold Compaction.promoteColumn
    rw [indexOf_eq_none.2 (hnew f hf).2]
  have hcolumns : (b.schema ++ added).map (Compaction.promoteColumn b) =
      b.columns ++ added.map fun f => newNullArray f.dataType b.numRows := by
    rw [map_append, map_promoteColumn_schema b hdistinct]
    exact congrArg (b.columns ++ ·) (map_congr_left hnull)
  have hold : ∀ f ∈ b.schema, (f, Compaction.promoteColumn b f) ∈ b.schema.zip b.columns := by
    intro f hf
    have hmem := mem_zip_map (g := Compaction.promoteColumn b) hf
    rwa [map_promoteColumn_schema b hdistinct] at hmem
  refine ⟨⟨b.schema ++ added, (b.schema ++ added).map (Compaction.promoteColumn b), b.numRows, length_map _,
    fun a ha => ?_, fun p hp => ?_, fun p hp hnon => ?_⟩, added, ?_, rfl, rfl, rfl, hcolumns⟩
  · obtain ⟨f, -, rfl⟩ := mem_map.1 ha
    exact length_promoteColumn b f
  · obtain ⟨hf, heq⟩ := mem_zip_map_iff.1 hp
    rw [heq]
    rcases mem_append.1 hf with hf | hf
    · exact b.typed _ (hold p.1 hf)
    · rw [hnull p.1 hf]
      rfl
  · obtain ⟨hf, heq⟩ := mem_zip_map_iff.1 hp
    rw [heq]
    rcases mem_append.1 hf with hf | hf
    · exact b.nonNull _ (hold p.1 hf) hnon
    · exact absurd hnon (by simp [(hnew p.1 hf).1])
  · exact Exec.promoteBatch_eq_ok.2 ⟨rfl, rfl, hne⟩

/-- **Schema promotion commutes with compaction**: of a batch written under the schema that a table had at one time, the
promotion to a later schema and from there to one later still returns what the promotion in one step does; where the
columns of the batch have distinct names, it keeps them and adds columns of nulls. -/
theorem promotion_commutes {c₁ c₂ : SqliteCatalog F} (hc : Runs.Reach (step debug) Runs.Free SqliteCatalog.empty c)
    (h₁ : Runs.Reach (step debug) Runs.Free c c₁) (h₂ : Runs.Reach (step debug) Runs.Free c₁ c₂)
    (hschema : tableSchema c id = some b.schema) (hschema₁ : tableSchema c₁ id = some s₁)
    (hschema₂ : tableSchema c₂ id = some s₂) :
    (∀ b₂, (∃ b₁, Compaction.promoteBatch b s₁ = .ok b₁ ∧ Exec.promoteBatch b₁ s₂ = .ok b₂) ↔
      Exec.promoteBatch b s₂ = .ok b₂) ∧
    (b.schema.names.Nodup → s₂ ≠ [] → ∃ b₂ added, Exec.promoteBatch b s₂ = .ok b₂ ∧ s₂ = b.schema ++ added ∧
      b₂.schema = s₂ ∧ b₂.numRows = b.numRows ∧
      b₂.columns = b.columns ++ added.map fun f => newNullArray f.dataType b.numRows) := by
  have hinv : Inv c := hc.inv inv_empty fun _ _ _ h _ hstep => inv_step h hstep
  have hinv₁ : Inv c₁ := h₁.inv hinv fun _ _ _ h _ hstep => inv_step h hstep
  have hext₁ : b.schema.Extends s₁ := extends_of_reach hinv hschema h₁ hschema₁
  have hext₂ : s₁.Extends s₂ := extends_of_reach hinv₁ hschema₁ h₂ hschema₂
  exact ⟨fun b₂ => promoteBatch_promoteBatch hext₁ hext₂,
    fun hdistinct hne => promoteBatch_of_distinct b hdistinct (hext₁.trans hext₂) hne⟩

end Promotion

def grownDocument (schema : Schema) (columns : List String) : Json Unit :=
  .obj [("fields", .arr (schema.map (fieldToJson fun _ => "") ++ columns.map fun name => columnJson name "string"))]

/-- `oneTable` after a column was added. -/
def oneTableGrown (schema : Schema) : SqliteCatalog Unit :=
  ⟨[⟨0, 7, "logs"⟩], [⟨1, 7, 0, "events", some 3, some 4⟩],
    [⟨2, 7, 1, schemaToJson (fun _ => "") schema⟩, ⟨4, 7, 1, grownDocument schema ["x"]⟩], 5⟩

/-- `oneTable` after two columns were added. -/
def oneTableGrownTwice (schema : Schema) : SqliteCatalog Unit :=
  ⟨[⟨0, 7, "logs"⟩], [⟨1, 7, 0, "events", some 3, some 5⟩],
    [⟨2, 7, 1, schemaToJson (fun _ => "") schema⟩, ⟨4, 7, 1, grownDocument schema ["x"]⟩,
      ⟨5, 7, 1, grownDocument schema ["x", "y"]⟩], 6⟩

def oneColumn : Schema := [.new "a" .int64 true]

def sameNameTwice : Schema := [.new "a" .int64 true, .new "a" .int64 true]

theorem reach_oneTable (schema : Schema) :
    Runs.Reach (step fun _ => "") Runs.Free SqliteCatalog.empty (oneTable (fun _ => "") schema) :=
  .step (.createTable 7 0 "events" schema) (reach_oneDatabase _) trivial rfl

theorem reach_grown (schema : Schema) (h : step (fun _ => "") (oneTable (fun _ => "") schema)
    (.alterTableAddColumn 1 "x" "string") = some (oneTableGrown schema)) :
    Runs.Reach (step fun _ => "") Runs.Free (oneTable (fun _ => "") schema) (oneTableGrown schema) :=
  .step _ .init trivial h

theorem reach_grownTwice (schema : Schema) (h : step (fun _ => "") (oneTableGrown schema)
    (.alterTableAddColumn 1 "y" "string") = some (oneTableGrownTwice schema)) :
    Runs.Reach (step fun _ => "") Runs.Free (oneTableGrown schema) (oneTableGrownTwice schema) :=
  .step _ .init trivial h

/-- Two rows of `oneColumn`. -/
def oneColumnBatch : RecordBatch ℕ := ⟨oneColumn, [⟨.int64, [some 1, none]⟩], 2, rfl, by decide, by decide, by decide⟩

/-- A row of `sameNameTwice`, with another value in each of its columns. -/
def sameNameBatch : RecordBatch ℕ :=
  ⟨sameNameTwice, [⟨.int64, [some 1]⟩, ⟨.int64, [some 2]⟩], 1, rfl, by decide, by decide, by decide⟩

theorem promotion_commutes_oneColumn :
    (∀ b₂, (∃ b₁, Compaction.promoteBatch oneColumnBatch (oneColumn ++ [.new "x" .utf8 true]) = .ok b₁ ∧
      Exec.promoteBatch b₁ (oneColumn ++ [.new "x" .utf8 true, .new "y" .utf8 true]) = .ok b₂) ↔
        Exec.promoteBatch oneColumnBatch (oneColumn ++ [.new "x" .utf8 true, .new "y" .utf8 true]) = .ok b₂) ∧
    ∃ b₂, Exec.promoteBatch oneColumnBatch (oneColumn ++ [.new "x" .utf8 true, .new "y" .utf8 true]) = .ok b₂ ∧
      b₂.columns = [⟨.int64, [some 1, none]⟩, ⟨.utf8, [none, none]⟩, ⟨.utf8, [none, none]⟩] := by
  have hbatch : tableSchema (oneTable (fun _ => "") oneColumn) 1 = some oneColumnBatch.schema := rfl
  obtain ⟨hcommute, hvalues⟩ := promotion_commutes (reach_oneTable oneColumn) (reach_grown oneColumn rfl)
    (reach_grownTwice oneColumn rfl) hbatch rfl rfl
  obtain ⟨b₂, added, hb₂, happend, -, hrows, hcolumns⟩ := hvalues (by decide) (by decide)
  refine ⟨hcommute, b₂, hb₂, ?_⟩
  have hone : oneColumn ++ [.new "x" .utf8 true, .new "y" .utf8 true] = oneColumn ++ added := happend
  rw [hcolumns, ← append_cancel_left hone]
  rfl

/-- Two columns of one name: the second gets the values of the first. -/
theorem sameName_overwritten : ¬∀ (c c₁ c₂ : SqliteCatalog Unit) (id : TableId) (s₁ s₂ : Schema) (b : RecordBatch ℕ),
      Runs.Reach (step fun _ => "") Runs.Free SqliteCatalog.empty c →
      Runs.Reach (step fun _ => "") Runs.Free c c₁ → Runs.Reach (step fun _ => "") Runs.Free c₁ c₂ →
      tableSchema c id = some b.schema → tableSchema c₁ id = some s₁ → tableSchema c₂ id = some s₂ →
        ∃ b₂, Exec.promoteBatch b s₂ = .ok b₂ ∧ b.columns <+: b₂.columns := by
  intro h
  obtain ⟨b₂, hb₂, hprefix⟩ := h _ _ _ 1 (sameNameTwice ++ [.new "x" .utf8 true])
    (sameNameTwice ++ [.new "x" .utf8 true, .new "y" .utf8 true]) sameNameBatch (reach_oneTable sameNameTwice)
    (reach_grown sameNameTwice rfl) (reach_grownTwice sameNameTwice rfl) rfl rfl rfl
  rw [(Exec.promoteBatch_eq_ok.1 hb₂).2.1] at hprefix
  revert hprefix
  decide

end TableSchema
